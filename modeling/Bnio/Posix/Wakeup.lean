import Bnio.Posix.Watch

namespace Bnio.Posix

def Queue.past : Queue → Pc → Bool
  | .cpu => Pc.pastCpu
  | .io  => Pc.pastIo

namespace Group

variable {s s' : Group} {i t : Nat} {w w' : Worker} {input : Input} {a : Action} {q : Queue}
variable {awakeFirst : Bool}

def queue (s : Group) : Queue → List OpId
  | .cpu => s.sharedCpu
  | .io  => s.sharedIo

theorem past_queue (q : Queue) : Past q.past where
  collect _  := by cases q <;> simp [Queue.past, Pc.pastCpu, Pc.pastIo]
  fresh h hp := by cases q <;> simp_all [Queue.past, Pc.fresh]
  asleep h   := by cases q <;> first | exact Pc.asleep_of_pastCpu h | exact Pc.asleep_of_pastIo h

theorem past_of_moves {pc pc' : Pc} {emptyCpu emptyIo fetched : Prop}
    (hm : pc.Moves pc' emptyCpu emptyIo fetched) (hc : emptyCpu → s.sharedCpu = [])
    (hi : emptyIo → s.sharedIo = []) (hq : s.queue q ≠ []) (h : q.past pc') : q.past pc := by
  cases q
  case cpu => exact (hm.cpu h).resolve_right (hq ∘ hc)
  case io  => exact (hm.io h).resolve_right (hq ∘ hi)

-- A worker comes past its last look only when it finds the queue empty, and what it adds to the queue
-- itself it looks at later.
theorem Works.past (h : Works s i w input s' w') (hq : s'.queue q ≠ []) (hp : q.past w'.pc) :
    q.past w.pc := by
  cases h
  case moves hm _         => exact past_of_moves hm id False.elim hq hp
  case drainShared        => exact hp
  case drainWorker        => exact hp
  case signal h _ _       => exact past_of_moves (h ▸ Pc.moves_notify) False.elim False.elim hq hp
  case fetch h            => exact past_of_moves (fetchStep_moves _ h) False.elim False.elim hq hp
  case io site h          =>
    have hm := Pc.moves_io s.loop (s.consumeIo input).2 site
    rw [h]
    refine past_of_moves hm False.elim (fun hf => ?_) hq hp
    obtain he | he := s.consumeIo_cases input <;> rw [he] at hf ⊢
    cases hf
  case add                =>
    have hn : ∀ pc ∈ Pc.restarts, ¬q.past pc := by cases q <;> decide
    exact absurd hp (hn _ (Pc.afterWait_mem_restarts ..))
  all_goals cases q <;> simp [Queue.past, Pc.pastCpu, Pc.pastIo] at hp

theorem Works.queue (h : Works s i w input s' w') (hq : s'.queue q ≠ []) :
    s.queue q ≠ [] ∨ ∃ site, w'.pc = .notify site := by
  cases h
  case spill              => exact .inr ⟨_, rfl⟩
  case execute hc         => obtain rfl | rfl := hc <;> cases q <;> simp_all [Group.queue]
  case fetch caller f _   =>
    obtain ⟨_, _, _, _, he⟩ := s.fetchStep_frame w caller input.now f
    exact .inl (by rw [he] at hq; exact hq)
  case io                 =>
    obtain he | he := s.consumeIo_cases input <;> rw [he] at hq <;> cases q <;>
      simp_all [Group.queue]
  case abort              => cases q <;> simp_all [Group.queue]
  all_goals exact .inl hq

theorem Works.frame (h : Works s i w input s' w') :
    s'.calls = s.calls ∧ s'.lifeState = s.lifeState := by
  cases h
  case fetch caller f _ =>
    obtain ⟨_, _, _, _, he⟩ := s.fetchStep_frame w caller input.now f
    rw [he]
    exact ⟨rfl, rfl⟩
  case io => obtain he | he := s.consumeIo_cases input <;> rw [he] <;> exact ⟨rfl, rfl⟩
  all_goals exact ⟨rfl, rfl⟩

-- Work in the queue will be seen, or its publisher still has to signal.
def Served (q : Queue) (s : Group) : Prop :=
  s.queue q ≠ [] → s.Watched q.past ∨ ∃ t, (s.calls t).pending

theorem Served.work (hs : s.Served q) (hw : s.workers[i]? = some w) (h : Works s i w input s' w')
    (hn : (s'.setWorker i w').NoneLeft) : (s'.setWorker i w').Served q := by
  intro hq
  obtain hq' | ⟨site, hp⟩ := h.queue hq
  · obtain hs | ⟨t, ht⟩ := hs hq'
    · exact .inl (hs.work (past_queue q) hw h.heeds (h.past hq) hn)
    · exact .inr ⟨t, h.frame.1 ▸ ht⟩
  · have hm : w' ∈ (s'.setWorker i w').workers := self_mem_setWorker hw h.heeds.workers
    refine .inl (.of_mem hm (by rw [hp]; rfl) (.inl ?_))
    cases q <;> simp [hp, Queue.past, Pc.pastCpu, Pc.pastIo]

-- A step of the thread `t` that leaves the queue alone.
theorem Served.client (hs : s.Served q) (queue : s'.queue q = s.queue q)
    (calls : ∀ u ≠ t, s'.calls u = s.calls u) (watched : s.Watched q.past → s'.Watched q.past)
    (pending : (s.calls t).pending → s'.Watched q.past ∨ (s'.calls t).pending) : s'.Served q := by
  intro hq
  obtain hs | ⟨u, hu⟩ := hs (queue ▸ hq)
  · exact .inl (watched hs)
  · by_cases hut : u = t
    case pos => exact (pending (hut ▸ hu)).imp_right (⟨t, ·⟩)
    case neg => exact .inr ⟨u, calls u hut ▸ hu⟩

theorem queue_wakeStep {wk : Wake} : (s.wakeStep t awakeFirst wk).queue q = s.queue q := by
  have ⟨_, _, _, _, _, he⟩ := s.wakeStep_frame t awakeFirst wk
  rw [he]
  cases q <;> rfl

theorem Served.clientStep (hs : s.Served q) (ha : s.Accounted) (hn : s.NoneLeft)
    (hl : s.lifeState = false) (h : s.clientStep t awakeFirst = some s') : s'.Served q := by
  cases hc : s.calls t <;> simp only [Group.clientStep, hc] at h
  case wake wk =>
    cases h
    exact hs.client queue_wakeStep (fun _ => calls_wakeStep)
      (·.wakeStep (past_queue q) hn)
      (fun hp => ha.wakeStep_pending (past_queue q) hn hl (hc ▸ hp))
  case push =>
    rw [hl] at h
    cases h
    exact fun _ => .inr ⟨t, by simp [setCall, Call.pending]⟩
  case idle => cases h
  all_goals try split at h
  all_goals cases h
  all_goals
    refine hs.client (t := t) (by cases q <;> rfl) (fun u hu => by simp [setCall, unlock, hu])
      (·.congr rfl id) fun hp => ?_
    simp [hc, Call.pending] at hp

-- Published work is never left to workers that all sleep, as long as no worker has left its loop.
structure Attended (s : Group) : Prop where
  accounted : s.Accounted
  served    : s.lifeState = false → s.NoneLeft → ∀ q, s.Served q

theorem NoneLeft.of_step (hn : s'.NoneLeft) (h : s.step a = some s') : s.NoneLeft := by
  obtain ⟨i, input, w, s₁, w', rfl, hw, hs, rfl⟩ | hp | hp := step_cases h
  · have hh := (workStep_works hs).heeds
    intro v hv hl
    obtain hv | rfl := mem_setWorker w' hw hh.workers hv
    · exact hn v hv hl
    · exact hn w' (self_mem_setWorker hw hh.workers) (hh.stays hl)
  · exact hn.congr hp.symm
  · exact fun v hv => hn v (hp ▸ List.mem_append_left _ hv)

theorem lifeState_clientStep (h : s.clientStep t awakeFirst = some s') :
    s'.lifeState = s.lifeState := by
  cases hc : s.calls t <;> simp only [clientStep, hc] at h
  case wake wk =>
    have ⟨_, _, _, _, _, he⟩ := s.wakeStep_frame t awakeFirst wk
    rw [← Option.some.inj h, he]
  case push q op => split at h <;> cases h <;> cases q <;> rfl
  all_goals try split at h
  all_goals cases h
  all_goals rfl

theorem lifeState_of_step (h : s.step a = some s') (hl : s'.lifeState = false) :
    s.lifeState = false := by
  cases a
  case client => exact lifeState_clientStep h ▸ hl
  case work   =>
    have ⟨w, s₁, w', _, hx, he⟩ := step_work h
    subst he
    exact (workStep_works hx).frame.2 ▸ hl
  case run    => cases h; exact hl
  all_goals
    simp only [Group.step] at h
    split at h <;> cases h
    first | exact hl | cases hl

theorem Attended.step (ht : s.Attended) (h : s.step a = some s') : s'.Attended where
  accounted := ht.accounted.step h
  served hl hn q := by
    have hl₀ := lifeState_of_step h hl
    have hn₀ := hn.of_step h
    have hs := ht.served hl₀ hn₀ q
    cases a
    case client => exact hs.clientStep ht.accounted hn₀ hl₀ h
    case work i input =>
      have ⟨w, s₁, w', hw, hx, he⟩ := step_work h
      subst he
      exact hs.work hw (workStep_works hx) hn
    case run =>
      cases h
      intro hq
      exact (hs (by cases q <;> exact hq)).imp_left (·.run rfl rfl)
    all_goals
      simp only [Group.step] at h
      split at h <;> cases h
    case publish.isTrue t _ _ hc =>
      refine hs.client (t := t) (by cases q <;> rfl) (fun u hu => by simp [setCall, hu])
        (·.congr rfl id) fun hp => ?_
      simp [hc, Call.pending] at hp
    case timer.isTrue t _ _ hc =>
      refine hs.client (t := t) (by cases q <;> rfl) (fun u hu => by simp [setCall, hu])
        (·.congr rfl id) fun hp => ?_
      simp [hc, Call.pending] at hp
    case foreign.isTrue =>
      intro hq
      exact (hs (by cases q <;> exact hq)).imp_left (·.congr rfl id)
    case close.isTrue => cases hl

theorem attended_init (loop : Loop) : ({ loop } : Group).Attended where
  accounted      := accounted_init loop
  served _ _ q h := absurd (by cases q <;> rfl) h

-- Published work lies in a shared queue, and everybody sleeps.
structure Lost (s : Group) : Prop where
  running : s.lifeState = false
  loops   : s.NoneLeft
  work    : s.sharedCpu ≠ [] ∨ s.sharedIo ≠ []
  -- No thread is between its push and the end of its wake step.
  quiet   : ∀ t wk, s.calls t ≠ .wake wk
  blocked : ∀ w ∈ s.workers, w.pc.running → (∃ b, w.pc = .block b) ∧ w.wake = false
  shared  : s.sharedWake = false

theorem Attended.not_lost (ht : s.Attended) (hw : w ∈ s.workers) (hr : w.pc.running) : ¬s.Lost := by
  intro hl
  obtain ⟨q, hq⟩ : ∃ q, s.queue q ≠ [] := hl.work.elim (⟨.cpu, ·⟩) (⟨.io, ·⟩)
  obtain (h | ⟨v, hv, hi, h⟩ | h) | ⟨t, ht⟩ := ht.served hl.running hl.loops q hq
  · simp [hl.shared] at h
  · have ⟨⟨b, hb⟩, hv⟩ := hl.blocked v hv (Pc.running_of_inLoop hi)
    cases q <;> simp [hb, hv, Queue.past, Pc.pastCpu, Pc.pastIo] at h
  · have ⟨⟨b, hb⟩, _⟩ := hl.blocked w hw hr
    exact h w hw (by rw [hb]; rfl)
  · cases hc : s.calls t <;> simp [hc, Call.pending] at ht
    exact hl.quiet t _ hc

-- No wakeup is lost while somebody runs.
theorem always_not_lost (loop : Loop) (actions : List Action) :
    System.Always step (fun s => (∃ w ∈ s.workers, w.pc.running) → ¬s.Lost) { loop } actions :=
  .of_invariant Attended.step (fun ht ⟨_, hw, hr⟩ => ht.not_lost hw hr) (attended_init loop)

-- Before the first call of `run` a published operation waits in its queue.
theorem lost_of_no_worker : ∃ s,
    System.run step { loop := ⟨.uring, 0⟩ } (.publish 1 .cpu 7 :: List.replicate 5 (.client 1 true)) =
      some s ∧ s.Lost := by
  refine ⟨_, rfl, rfl, nofun, .inl nofun, fun t wk h => ?_, nofun, rfl⟩
  simp [setCall, unlock, wakeStep, push] at h

end Group
end Bnio.Posix
