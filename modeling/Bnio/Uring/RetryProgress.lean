import Bnio.Uring.SubmitFailure
import Bnio.Uring.Conservation

namespace Bnio.Uring

namespace Context

variable {s s' : Context} {p : Pass} {ops : List OpId} {answer : Int} {c : Channel}

-- The operations that wait for an SQE and the SQEs that wait for the kernel.
def outstanding (s : Context) : Nat :=
  s.ioSources.length + s.ring.sq.length

def HasRoom (s : Context) : Prop :=
  s.ring.sq.length < s.ring.entries

instance : Decidable s.HasRoom :=
  inferInstanceAs (Decidable (_ < _))

theorem trackPreparedBatch_inflight (s : Context) (ops : List OpId) :
    ∃ inflight, s.trackPreparedBatch ops = { s with inflight } := by
  induction ops generalizing s
  case nil          => exact ⟨_, rfl⟩
  case cons op l hi =>
    have ⟨m, hm⟩ : ∃ m, s.addInflight op = { s with inflight := m } := by
      unfold addInflight
      split <;> exact ⟨_, rfl⟩
    have ⟨m', hm'⟩ := hi (s.addInflight op)
    exact ⟨m', hm'.trans (by rw [hm])⟩

-- A closed ring leaves nothing in the queues.
theorem Pass.prepare_closed (ho : p.ctx.ring.isOpen = false) (hr : p.remaining = []) (ops : List OpId) :
    (p.prepare ops).ctx.ring.isOpen = false ∧ (p.prepare ops).remaining = [] := by
  unfold Pass.prepare
  split
  case isTrue  => exact ⟨ho, hr⟩
  case isFalse =>
    have ⟨f, hp⟩ := prepareIoBatch_closed ops p.prepared ho
    rw [hp]
    exact ⟨ho, rfl⟩

theorem preparePass_closed (ho : s.ring.isOpen = false) : s.preparePass.remaining = [] ∧
    s.preparePass.ctx.localIo = [] ∧ s.preparePass.ctx.sharedIo = [] := by
  have ⟨h₁, hr₁⟩ := Pass.prepare_closed (p := { ctx := { s with pendingIoRetry := [] } }) ho rfl
    s.pendingIoRetry
  unfold preparePass
  simp only
  generalize Pass.prepare { ctx := { s with pendingIoRetry := [] } } s.pendingIoRetry = p at h₁ hr₁
  have ⟨h₂, hr₂⟩ := Pass.prepare_closed (p := { p with ctx := { p.ctx with localIo := [] } }) h₁ hr₁
    p.ctx.localIo
  have hl : p.takeLocal = { p with ctx := { p.ctx with localIo := [] } }.prepare p.ctx.localIo :=
    if_pos hr₁
  have hq := Pass.takeLocal_localIo (hl ▸ hr₂)
  rw [← hl] at h₂ hr₂
  generalize p.takeLocal = q at h₂ hr₂ hq
  have ⟨_, hr₃⟩ := Pass.prepare_closed (p := { q with ctx := { q.ctx with sharedIo := [] } }) h₂ hr₂
    q.ctx.sharedIo
  have ⟨_, hlo, hsh⟩ := Pass.prepare_queues { q with ctx := { q.ctx with sharedIo := [] } } q.ctx.sharedIo
  rw [Pass.takeShared, if_pos hr₂]
  exact ⟨hr₃, hlo.trans hq, hsh⟩

-- After a submit that has not failed, only the remainder is in the retry slot.
theorem finishPass_queues (h : p.Of s) (hp : p.prepared ≠ []) (ha : 0 ≤ answer) :
    (finishPass p answer).pendingIoRetry = p.remaining ∧
      (finishPass p answer).localIo = p.ctx.localIo ∧
      (finishPass p answer).sharedIo = p.ctx.sharedIo := by
  have hopen : p.ctx.ring.isOpen := h.frame.isOpen ▸ h.opened hp
  have ⟨m, hm⟩ := trackPreparedBatch_inflight p.ctx p.prepared
  have hres : ¬(p.ctx.ring.submit answer).2 < 0 := by
    unfold Ring.submit
    split
    all_goals simp
    omega
  simp only [finishPass, submitAndTrackPrepared, if_neg hp, submitRing, hm, hopen, Bool.not_true,
    Bool.false_eq_true, if_false, hres, setRing, and_self]

-- What a pass does to the operations that wait and to the SQ.
inductive Passes (s s' : Context) : Prop
  -- they are stopped, or failed by a closed ring
  | drained (hd : s.ioSources = [] ∨ s.state ≠ .running ∨ s.lifeState ∨ s.ring.isOpen = false)
    (hq : s'.ring.sq = s.ring.sq) (hs : s'.ioSources = [])
  -- nothing can be prepared, and so nothing is submitted
  | idle (hr : s.room = 0 ∨ s.ioSources = [])
    (hq : s'.ring.sq = s.ring.sq) (hs : s'.ioSources = s.ioSources)
  | submitted (hr : s.room ≠ 0) (hq : s'.ring.sq = [])
    (hs : s'.ioSources.length < s.ioSources.length)

theorem consumeIoTasks_passes (ha : s.ioSqes ≠ 0 → (s.ioSqes : Int) ≤ answer) :
    Passes s (s.consumeIoTasks answer).1 := by
  unfold consumeIoTasks
  split
  case isTrue hstop =>
    obtain ⟨f, h⟩ := stopQueuedIo_eq s
    have hd : s.state ≠ .running ∨ s.lifeState := by
      simpa [stopRequested, closingRequested] using hstop
    exact .drained (.inr (by tauto)) (by rw [h]) (by simp [ioSources, h])
  case isFalse hrun =>
    obtain ⟨hstate, hlife⟩ := not_stopping_iff.mp hrun
    simp only
    split
    case isFalse hf =>
      obtain ⟨hs, hc⟩ := preparePass_not_found (Bool.eq_false_iff.mpr hf)
      simp only [hc]
      exact .drained (.inl hs) rfl hs
    case isTrue hf =>
      cases ho : s.ring.isOpen
      case false =>
        obtain ⟨hr, hl, hs⟩ := preparePass_closed ho
        have hp : s.preparePass.prepared = [] := preparePass_prepared_eq_nil.mpr (.inl ho)
        have hring := (preparePass_of s).ring
        refine .drained (.inr (.inr (.inr ho))) ?_ ?_
        · simp [finishPass, submitAndTrackPrepared, hp, hring, Ring.queue]
        · simp [finishPass, submitAndTrackPrepared, hp, ioSources, hl, hs, hr]
      case true =>
        have hlist := (preparePass_splits ho).list
        have hring := (preparePass_of s).ring
        by_cases hp : s.preparePass.prepared = []
        case pos =>
          have hr := (preparePass_prepared_eq_nil.mp hp).resolve_left (by simp [ho])
          refine .idle hr ?_ ?_
          · simp [finishPass, submitAndTrackPrepared, hp, hring, Ring.queue]
          · simpa [finishPass, submitAndTrackPrepared, hp, ioSources] using hlist
        case neg =>
          have hlen : s.preparePass.prepared.length = min s.room s.ioSources.length := by
            simp [(preparePass_filled ho).prepared]
          have hpos := List.length_pos_iff.mpr hp
          have hsq : s.preparePass.ctx.ring.sq.length = s.ioSqes := by
            rw [ioSqes, if_pos ⟨hstate, hlife, ho, by omega⟩, hring, ← hlen]
            simp [Ring.queue]
          have hans : (s.preparePass.ctx.ring.sq.length : Int) ≤ answer := hsq ▸ ha (by
            rw [← hsq, hring]
            simp [Ring.queue, hp])
          have hne : s.preparePass.ctx.ring.sq ≠ [] := by
            rw [hring]
            simp [Ring.queue, hp]
          refine .submitted (by omega) ?_ ?_
          · rw [finishPass_ring (preparePass_of s) fun _ => by omega, if_neg hp, Ring.submit_all hans hne]
          · have hq := finishPass_queues (preparePass_of s) hp (by omega : 0 ≤ answer)
            have := congrArg List.length hlist
            simp only [ioSources, hq, List.length_append, List.length_reverse] at this ⊢
            omega

namespace Passes

theorem outstanding_le (h : Passes s s') : s'.outstanding ≤ s.outstanding := by
  unfold outstanding
  cases h
  case drained hq hs   => simp [hq, hs]
  case idle hq hs      => simp [hq, hs]
  case submitted hq hs   => simp only [hq, List.length_nil]; omega

theorem outstanding_lt (h : Passes s s') (hr : s.HasRoom) (hp : s.pendingIoRetry ≠ []) :
    s'.outstanding < s.outstanding := by
  have hs : 0 < s.ioSources.length := by
    have := List.length_pos_iff.mpr hp
    simp only [ioSources, List.length_append]
    omega
  unfold outstanding
  unfold HasRoom at hr
  cases h
  case drained hq he   => simp only [hq, he, List.length_nil]; omega
  case idle hi _ _     =>
    unfold room at hi
    rcases hi with hi | hi
    · omega
    · simp [hi] at hs
  case submitted hq he => simp only [hq, List.length_nil]; omega

theorem hasRoom (h : Passes s s') (he : s'.ring.entries = s.ring.entries) (hr : s.HasRoom) :
    s'.HasRoom := by
  unfold HasRoom at hr ⊢
  cases h
  case drained hq _   => rwa [hq, he]
  case idle hq _      => rwa [hq, he]
  case submitted hq _ => rw [hq, he, List.length_nil]; omega

end Passes

-- A pass that starts with operations in the retry slot makes progress exactly when it can prepare one.
theorem consumeIoTasks_outstanding_lt_iff (hs : s.state = .running) (hl : s.lifeState = false)
    (ho : s.ring.isOpen) (hp : s.pendingIoRetry ≠ [])
    (ha : s.ioSqes ≠ 0 → (s.ioSqes : Int) ≤ answer) :
    (s.consumeIoTasks answer).1.outstanding < s.outstanding ↔ s.HasRoom := by
  have h := consumeIoTasks_passes ha
  refine ⟨fun hlt => ?_, fun hr => h.outstanding_lt hr hp⟩
  cases h
  case drained hd _ _   => simp [ioSources, hp, hs, hl, ho] at hd
  case idle hq he       => simp [outstanding, hq, he] at hlt
  case submitted hr _ _ => unfold HasRoom; unfold room at hr; omega

-- No more is outstanding, and the SQ does not get full.
structure Settles (s s' : Context) : Prop where
  outstanding : s'.outstanding ≤ s.outstanding
  hasRoom : s.HasRoom → s'.HasRoom

theorem Settles.of_eq (hr : s'.ring.sq = s.ring.sq) (he : s'.ring.entries = s.ring.entries)
    (hs : s'.ioSources.length ≤ s.ioSources.length) : Settles s s' := by
  refine ⟨?_, fun h => ?_⟩
  · unfold Context.outstanding
    rw [hr]
    omega
  · unfold HasRoom at h ⊢
    rwa [hr, he]

theorem armWakePoll_settles (ha : s.armSqes c ≠ 0 → (s.armSqes c : Int) ≤ answer) :
    Settles s (s.armWakePoll c answer).1 := by
  have h : Arms s c answer (s.armWakePoll c answer) := armWakePoll_arms
  generalize s.armWakePoll c answer = q at h
  cases h
  case kept          => exact .of_eq rfl rfl (Nat.le_refl _)
  case queued _ hc h => exact absurd (armSqes_pos hc ha) (by omega)
  case armed hc _    =>
    have hall : ((s.ring.queue [.wake c]).sq.length : Int) ≤ answer := by
      rw [armSqes, if_pos hc] at ha
      have := ha (by omega)
      simpa [Ring.queue] using this
    have hsq := Ring.submit_all hall (by simp [Ring.queue])
    have hroom := hc.2.2.2.2
    refine ⟨?_, fun _ => ?_⟩
    · simp [outstanding, ioSources, setRing, hsq]
    · simp only [HasRoom, setRing, hsq, List.length_nil]
      exact Nat.zero_lt_of_lt hroom

end Context

namespace Worker

variable {w w' : Worker} {i : Input} {a : Action}

-- The CQE that is collected next asks for a re-submission.
def rearms (w : Worker) : Bool :=
  match w.pc, w.ctx.ring.cq with
  | .collect _ (_ + 1), ⟨.operation op, result, _⟩ :: _ =>
    result = -eagain && (w.ctx.ops op).rearmOnEagain
  | _, _ => false

-- Every submit consumes all queued SQEs, no I/O operation is published and none is re-submitted.
def Quiet (w : Worker) (a : Action) : Prop :=
  w.SubmitsAll a ∧ w.publishesIo a = [] ∧ w.rearms = false

instance : Decidable (w.Quiet a) :=
  inferInstanceAs (Decidable (_ ∧ _))

theorem executeNext_ioSources {s : Context} (hp : i.publishedIo = []) :
    (s.executeNext i).ioSources = s.ioSources := by
  unfold Context.executeNext
  split
  case h_1 => rfl
  case h_2 => rw [hp, List.foldl_nil, Context.pushCpuList_eq]; rfl

theorem Leaf.settles {pc : Pc} {new : List OpId} {s : Context} (hp : w.pc = pc)
    (h : Leaf w.ctx i pc new s) (hq : w.Quiet (.work i)) : Context.Settles w.ctx s := by
  obtain ⟨ha, hpub, hre⟩ := hq
  unfold SubmitsAll sqes at ha
  cases h
  case skip       => exact .of_eq rfl rfl (Nat.le_refl _)
  case enter      => simp only [hp] at ha; exact Context.armWakePoll_settles ha
  case rearm      => simp only [hp] at ha; exact Context.armWakePoll_settles ha
  case rearmLocal => simp only [hp] at ha; exact Context.armWakePoll_settles ha
  case collect site left cqe cq ho hcq =>
    simp only [hp, ho, hcq] at ha
    obtain ⟨data, result, flags⟩ := cqe
    cases data
    case wake c       =>
      have hs : Context.Settles w.ctx { w.ctx.setRing w.ctx.ring.advance with
          pollPending := Function.update (w.ctx.setRing w.ctx.ring.advance).pollPending c false } :=
        .of_eq rfl rfl (Nat.le_refl _)
      have h' := Context.armWakePoll_settles ha
      exact ⟨Nat.le_trans h'.outstanding hs.outstanding, fun hr => h'.hasRoom (hs.hasRoom hr)⟩
    case operation op =>
      have hre : ¬(result = -eagain ∧ (w.ctx.ops op).rearmOnEagain) := by
        simpa [rearms, hp, hcq] using hre
      simp only [Context.collectCqe]
      rw [Context.enqueueCqeTask_deliver hre]
      exact .of_eq rfl rfl (Nat.le_refl _)
  case dispatch   =>
    obtain ⟨_, _, _, h⟩ := Context.dispatchCqeTasks_eq w.ctx
    exact h ▸ .of_eq rfl rfl (Nat.le_refl _)
  case fetchCpu   =>
    obtain ⟨_, _, _, h⟩ := Context.fetchCpuTask_eq w.ctx
    exact h ▸ .of_eq rfl rfl (Nat.le_refl _)
  case exec hb    =>
    obtain ⟨_, _, _, _, _, h⟩ := Context.executeNext_eq w.ctx i
    have hnil : i.publishedIo = [] := by simpa [publishesIo, hp, hb] using hpub
    exact .of_eq (by rw [h]) (by rw [h]) (Nat.le_of_eq (congrArg _ (executeNext_ioSources hnil)))
  case timers | fetch =>
    rw [Context.pushCpuList_eq]
    exact .of_eq rfl rfl (Nat.le_refl _)
  case io         =>
    simp only [hp] at ha
    have h := Context.consumeIoTasks_passes ha
    exact ⟨h.outstanding_le, h.hasRoom (Context.consumeIoTasks_frame ..).entries⟩
  case abort      =>
    obtain ⟨_, _, h⟩ := Context.abortInflightIo_eq w.ctx
    exact .of_eq (by rw [h]) (by rw [h]) (by simp [h, Context.ioSources])

theorem Ends.outstanding (h : Ends w w') :
    w'.ctx.outstanding = w.ctx.outstanding ∧ (w.ctx.HasRoom → w'.ctx.HasRoom) := by
  have ⟨_, _, he⟩ := h.ctx
  rw [he]
  exact ⟨rfl, id⟩

theorem outside_settles (h : step w a = some w') (hw : ∀ i, a ≠ .work i) (hq : w.publishesIo a = []) :
    Context.Settles w.ctx w'.ctx := by
  cases a
  case work i      => exact absurd rfl (hw i)
  case publishIo   => cases hq
  case takeIo      =>
    obtain rfl := Option.some.inj h
    exact .of_eq rfl rfl (by simp [Context.ioSources])
  case drainIo     =>
    simp only [step] at h
    split at h
    case h_1 => cases h
    case h_2 op l hl =>
      obtain ⟨hg, he⟩ := Option.ite_none_right_eq_some.mp h
      obtain rfl := Option.some.inj he
      refine .of_eq rfl rfl ?_
      simp [Context.ioSources, Context.execute, Context.completeSubmitStopped, Context.setOp, hl]
  case queueExit   =>
    simp only [step] at h
    split at h
    case h_1 => exact Option.some.inj h ▸ .of_eq rfl rfl (Nat.le_refl _)
    case h_2 =>
      obtain rfl := Option.some.inj h
      exact ⟨Nat.add_le_add_left (Nat.zero_le _) _, fun hr => Nat.zero_lt_of_lt hr⟩
    case h_3 => cases h
  all_goals
    simp only [step] at h
    repeat' split at h
    all_goals cases h
    all_goals exact .of_eq rfl rfl (Nat.le_refl _)

-- A pass of `consume_io_tasks` that starts with a non-empty retry slot.
def retryPasses (w : Worker) : Action → List Unit
  | .work _ =>
    match w.pc with
    | .io _ => if w.ctx.pendingIoRetry = [] then [] else [()]
    | _     => []
  | _       => []

theorem step_io {site : Site} (h : step w (.work i) = some w') (hp : w.pc = .io site) :
    w'.ctx.outstanding = (w.ctx.consumeIoTasks i.answer).1.outstanding := by
  obtain ⟨_, he⟩ := Option.ite_none_right_eq_some.mp h
  obtain rfl := Option.some.inj he
  have hm : Moves { w with ctx := (w.ctx.consumeIoTasks i.answer).1 } (w.workStep i) := by
    rw [workStep, hp]
    exact afterIo_moves rfl
  obtain ⟨_, _, hm⟩ := hm.ctx
  rw [hm]
  rfl

theorem retryPasses_cases (w : Worker) (a : Action) : w.retryPasses a = [] ∨
    ∃ i site, a = .work i ∧ w.pc = .io site ∧ w.ctx.pendingIoRetry ≠ [] ∧ w.retryPasses a = [()] := by
  cases a
  case work i =>
    unfold retryPasses
    cases hp : w.pc
    case io site =>
      by_cases hr : w.ctx.pendingIoRetry = []
      case pos => exact .inl (if_pos hr)
      case neg => exact .inr ⟨i, site, rfl, rfl, hr, if_neg hr⟩
    all_goals exact .inl rfl
  all_goals exact .inl rfl

-- Every pass with a non-empty retry slot takes something off what is outstanding.
theorem step_outstanding (h : step w a = some w') (hs : w.Settled) (hq : w.Quiet a)
    (hr : w.ctx.HasRoom) :
    w'.ctx.outstanding + (w.retryPasses a).length ≤ w.ctx.outstanding ∧ w'.ctx.HasRoom := by
  have hx : Context.Settles w.ctx w'.ctx := by
    by_cases hw : ∃ i, a = .work i
    case neg => exact outside_settles h (fun i hi => hw ⟨i, hi⟩) hq.2.1
    case pos =>
      obtain ⟨i, rfl⟩ := hw
      have ⟨⟨hp, leaf, _, ends⟩, _⟩ := work_steps h hs
      have hx := Leaf.settles hp leaf hq
      have ⟨he, hroom⟩ := ends.outstanding
      exact ⟨he ▸ hx.outstanding, fun hr => hroom (hx.hasRoom hr)⟩
  refine ⟨?_, hx.hasRoom hr⟩
  rcases w.retryPasses_cases a with hn | ⟨i, site, rfl, hp, hret, hn⟩
  · simpa [hn] using hx.outstanding
  · have ha := hq.1
    simp only [SubmitsAll, sqes, hp] at ha
    rw [hn, step_io h hp]
    exact (Context.consumeIoTasks_passes ha).outstanding_lt hr hret

-- Once the SQ has room and the kernel takes what is submitted, every pass with a non-empty retry slot
-- makes progress, and there are no more of them than operations and SQEs were outstanding.
theorem retry_progress (entries : Nat) (options : Options) (channelOpen : Channel → Bool)
    (as : List Action) (hr : System.run step (init entries options channelOpen) as = some w)
    (hroom : w.ctx.HasRoom) (bs : List Action) (hq : System.Along step Quiet w bs) :
    System.Always step (fun w => ∀ i site w', w.pc = .io site → w.ctx.pendingIoRetry ≠ [] →
        w.Quiet (.work i) → step w (.work i) = some w' → w'.ctx.outstanding < w.ctx.outstanding) w bs ∧
      ∀ w', System.run step w bs = some w' →
        w'.ctx.outstanding + (System.gathered step retryPasses w bs).length ≤ w.ctx.outstanding := by
  have hs : w.Settled := System.invariant (I := Settled) (fun hs h => step_settled h hs) init_settled hr
  have hkeep : ∀ {w a w'}, w.Settled ∧ w.ctx.HasRoom → w.Quiet a → step w a = some w' →
      w'.Settled ∧ w'.ctx.HasRoom := fun hi hq h =>
    ⟨step_settled h hi.1, (step_outstanding h hi.1 hq hi.2).2⟩
  refine ⟨hq.always hkeep (fun hi i site w' hp hret hq h => ?_) ⟨hs, hroom⟩, fun w' hr' => ?_⟩
  · have ho := (step_outstanding h hi.1 hq hi.2).1
    simp only [retryPasses, hp, if_neg hret, List.length_singleton] at ho
    omega
  · have hstep : ∀ {v a v'} {l : List Unit},
        (v.Settled ∧ v.ctx.HasRoom) ∧ v.ctx.outstanding + l.length ≤ w.ctx.outstanding → v.Quiet a →
          step v a = some v' → (v'.Settled ∧ v'.ctx.HasRoom) ∧
            v'.ctx.outstanding + (l ++ retryPasses v a).length ≤ w.ctx.outstanding := fun hi hq h => by
      have ho := (step_outstanding h hi.1.1 hq hi.1.2).1
      have := hi.2
      refine ⟨hkeep hi.1 hq h, ?_⟩
      rw [List.length_append]
      omega
    have hg := hq.gathered_invariant
      (J := fun v l => (v.Settled ∧ v.ctx.HasRoom) ∧ v.ctx.outstanding + l.length ≤ w.ctx.outstanding)
      hstep (l := []) ⟨⟨hs, hroom⟩, by simp⟩ hr'
    simpa using hg.2

-- Two operations are published to a worker whose SQ has one entry; the submit of the first pass gets
-- the given answer.
def publishTwo (answer : Int) (more : Nat) : List Action :=
  [.publishIo 1 .native, .publishIo 2 .native, .run 0] ++
    List.replicate 5 (.work { answer := 1 }) ++ [.work { answer }] ++
    List.replicate more (.work { answer := 1 })

theorem retry_progress_publishTwo :
    ∃ w, System.run step (init 1 {} fun _ => true) (publishTwo 1 0) = some w ∧
      w.ctx.pendingIoRetry = [1] ∧
      ∀ w', System.run step w (List.replicate 8 (.work { answer := 1 })) = some w' →
        w'.ctx.outstanding + 1 ≤ w.ctx.outstanding := by
  have ⟨w, hr, hp⟩ := Option.map_eq_some_iff.mp (by decide +kernel :
    (System.run step (init 1 {} fun _ => true) (publishTwo 1 0)).map (fun w =>
      (w.ctx.pendingIoRetry, decide w.ctx.HasRoom,
        decide (System.Along step Quiet w (List.replicate 8 (.work { answer := 1 }))),
        System.gathered step retryPasses w (List.replicate 8 (.work { answer := 1 })))) =
      some ([1], true, true, [()]))
  simp only [Prod.mk.injEq, decide_eq_true_eq] at hp
  have ⟨hret, hroom, hq, hg⟩ := hp
  have h := (retry_progress 1 {} (fun _ => true) _ hr hroom _ hq).2
  rw [hg] at h
  exact ⟨w, hr, hret, h⟩

-- The submit fails with EAGAIN while the SQ is full. From then on the loop goes round and round: no
-- pass can prepare an operation, and without one it does not submit.
theorem retry_spins : ∃ w w',
    System.run step (init 1 {} fun _ => true) (publishTwo (-eagain) 7) = some w ∧
    w.ctx.state = .running ∧ w.pc = .io .ready ∧ w.ctx.pendingIoRetry = [1] ∧
    System.Along step Quiet w (List.replicate 4 (.work { answer := 1 })) ∧
    System.run step w (List.replicate 4 (.work { answer := 1 })) = some w' ∧
    w'.pc = .io .ready ∧ w'.ctx.pendingIoRetry = [1] ∧ w'.ctx.outstanding = w.ctx.outstanding := by
  have ⟨w, hr, hp⟩ := Option.map_eq_some_iff.mp (by decide +kernel :
    (System.run step (init 1 {} fun _ => true) (publishTwo (-eagain) 7)).map (fun w =>
      (decide (w.ctx.state = .running ∧ w.pc = .io .ready ∧ w.ctx.pendingIoRetry = [1] ∧
          System.Along step Quiet w (List.replicate 4 (.work { answer := 1 }))),
        (System.run step w (List.replicate 4 (.work { answer := 1 }))).map (fun w' =>
          decide (w'.pc = .io .ready ∧ w'.ctx.pendingIoRetry = [1] ∧
            w'.ctx.outstanding = w.ctx.outstanding)))) =
      some (true, some true))
  simp only [Prod.mk.injEq, decide_eq_true_eq] at hp
  have ⟨⟨hs, hpc, hret, hq⟩, hp⟩ := hp
  have ⟨w', hr', hp'⟩ := Option.map_eq_some_iff.mp hp
  exact ⟨w, w', hr, hs, hpc, hret, hq, hr', of_decide_eq_true hp'⟩

end Worker
end Bnio.Uring
