import Bnio.Posix.Accounting

namespace Bnio.Posix

-- A wake that the worker group has not got yet, and that neither counter spares it.
def Call.pending : Call → Bool
  | .wake (.haveAwake awake)     => awake ≤ 0
  | .wake (.haveRunning running) => 0 < running
  | .wake _                      => true
  | _                            => false

namespace Group

variable {s s' : Group} {i t : Nat} {w w' : Worker} {input : Input} {a : Action}
variable {past : Pc → Bool} {awakeFirst : Bool}

def NoneLeft (s : Group) : Prop :=
  ∀ w ∈ s.workers, ¬w.pc.hasLeft

-- Someone will look again: a wake channel is signalled that a worker in the loop listens to, or a worker
-- is not yet `past` its last look, or whoever comes next has the look still ahead.
def Watched (past : Pc → Bool) (s : Group) : Prop :=
  s.sharedWake ∨ (∃ w ∈ s.workers, w.pc.inLoop ∧ (¬past w.pc ∨ w.wake)) ∨
    ∀ w ∈ s.workers, ¬w.pc.inLoop

-- What a step of a worker does to the wake channels, and where in the loop it ends.
structure Heeds (s : Group) (w : Worker) (s' : Group) (w' : Worker) : Prop where
  workers : s'.workers = s.workers
  loop    : w.pc.inLoop → w'.pc.inLoop ∨ w'.pc.hasLeft
  fresh   : w'.pc.inLoop → w.pc.inLoop ∨ w'.pc.fresh
  stays   : w.pc.hasLeft → w'.pc.hasLeft
  leaves  : w'.pc.hasLeft → w.pc.hasLeft ∨ w.pc.ending
  wake    : w.wake → w'.wake ∨ ∃ site, w'.pc = .collect site
  shared  : s.sharedWake → s'.sharedWake ∨ ∃ site, w'.pc = .collect site

theorem Heeds.of_moves {emptyCpu emptyIo fetched : Prop} (workers : s'.workers = s.workers)
    (wake : w'.wake = w.wake) (shared : s.sharedWake → s'.sharedWake)
    (hm : w.pc.Moves w'.pc emptyCpu emptyIo fetched) : Heeds s w s' w' where
  workers := workers
  loop    := hm.loop
  fresh   := hm.fresh
  stays   := hm.stays
  leaves  := hm.leaves
  wake h  := .inl (wake ▸ h)
  shared  := .inl ∘ shared

-- A step from one place in the loop to another.
theorem Heeds.inside (workers : s'.workers = s.workers) (wake : w'.wake = w.wake)
    (shared : s'.sharedWake = s.sharedWake) (h : w.pc.inLoop) (h' : w'.pc.inLoop) :
    Heeds s w s' w' where
  workers  := workers
  loop _   := .inl h'
  fresh _  := .inl h
  stays hl := absurd hl (Pc.not_hasLeft_of_inLoop h)
  leaves hl := absurd hl (Pc.not_hasLeft_of_inLoop h')
  wake h   := .inl (wake ▸ h)
  shared h := .inl (shared ▸ h)

-- A step of a thread that is not in the loop.
theorem Heeds.outside (workers : s'.workers = s.workers) (wake : w'.wake = w.wake)
    (shared : s'.sharedWake = s.sharedWake) (h : ¬w.pc.inLoop) (hf : w'.pc.inLoop → w'.pc.fresh)
    (stays : w'.pc.hasLeft = w.pc.hasLeft) : Heeds s w s' w' where
  workers  := workers
  loop hl  := absurd hl h
  fresh h  := .inr (hf h)
  stays hl := stays ▸ hl
  leaves hl := .inl (stays ▸ hl)
  wake h   := .inl (wake ▸ h)
  shared h := .inl (shared ▸ h)

theorem Works.heeds (h : Works s i w input s' w') : Heeds s w s' w' := by
  cases h
  case moves hm _     => exact .of_moves rfl rfl id hm
  case signal h _ _   => exact .of_moves rfl rfl (fun _ => rfl) (h ▸ Pc.moves_notify)
  case fetch caller f h =>
    have hm := fetchStep_moves (s := s) input.now h
    obtain ⟨_, _, _, _, he⟩ := s.fetchStep_frame w caller input.now f
    rw [he] at hm ⊢
    exact .of_moves rfl rfl id hm
  case io site h =>
    have hm := Pc.moves_io s.loop (s.consumeIo input).2 site
    obtain he | he := s.consumeIo_cases input <;> rw [he] at hm ⊢ <;>
      exact .of_moves rfl rfl id (h ▸ hm)
  case drainShared site h =>
    have hin : w.pc.inLoop := by rw [h]; rfl
    have hs : Heeds s w s w := .inside rfl rfl rfl hin hin
    exact { hs with shared := fun _ => .inr ⟨site, h⟩ }
  case drainWorker site h =>
    have hin : w.pc.inLoop := by rw [h]; rfl
    have hs : Heeds s w s w := .inside rfl rfl rfl hin hin
    exact { hs with wake := fun _ => .inr ⟨site, h⟩ }
  case enter h        =>
    exact .outside rfl rfl rfl (by simp [h, Pc.inLoop]) (fun _ => rfl) (by rw [h]; rfl)
  case refused h      => exact .outside rfl rfl rfl (by simp [h, Pc.inLoop]) nofun (by rw [h]; rfl)
  case unregister h _ => exact .outside rfl rfl rfl (by rw [h]; nofun) nofun (by rw [h]; rfl)
  case leave h _      => exact .outside rfl rfl rfl (by rw [h]; nofun) nofun (by rw [h]; rfl)
  case release h      => exact .outside rfl rfl rfl (by rw [h]; nofun) nofun (by rw [h]; rfl)
  case add h          =>
    have hl : ∀ pc ∈ Pc.restarts, pc.inLoop := by decide
    exact .inside rfl rfl rfl (by rw [h]; rfl) (hl _ (Pc.afterWait_mem_restarts ..))
  case execute h _ _  => exact .inside rfl rfl rfl (by rw [h]; rfl) rfl
  all_goals rename_i h; exact .inside rfl rfl rfl (by rw [h]; rfl) rfl

theorem self_mem_setWorker (hw : s.workers[i]? = some w) (hs : s'.workers = s.workers) :
    w' ∈ (s'.setWorker i w').workers := by
  rw [setWorker, hs]
  exact List.mem_set (List.getElem?_eq_some_iff.mp hw).1 w'

-- Every other worker stays in the list.
theorem mem_setWorker {v : Worker} (w' : Worker) (hw : s.workers[i]? = some w)
    (hs : s'.workers = s.workers) (hv : v ∈ s.workers) : v ∈ (s'.setWorker i w').workers ∨ v = w := by
  obtain ⟨j, hj⟩ := List.mem_iff_getElem?.mp hv
  by_cases hij : i = j
  case pos => exact .inr (Option.some.inj (hj.symm.trans (hij ▸ hw)))
  case neg =>
    refine .inl (List.mem_of_getElem? (i := j) ?_)
    simp [setWorker, hs, List.getElem?_set_ne hij, hj]

-- The places from which a worker may block without another look.
structure Past (past : Pc → Bool) : Prop where
  collect : ∀ site, ¬past (.collect site)
  fresh   : ∀ {pc : Pc}, pc.fresh → ¬past pc
  asleep  : ∀ {pc : Pc}, past pc → pc.asleep

theorem Watched.of_mem (hw : w ∈ s.workers) (hl : w.pc.inLoop) (h : ¬past w.pc ∨ w.wake) :
    s.Watched past :=
  .inr (.inl ⟨w, hw, hl, h⟩)

theorem Watched.congr (h : s.Watched past) (workers : s'.workers = s.workers)
    (shared : s.sharedWake → s'.sharedWake) : s'.Watched past := by
  unfold Watched at h ⊢
  rw [workers]
  exact h.imp_left shared

theorem Watched.run (h : s.Watched past) (workers : s'.workers = s.workers ++ [({} : Worker)])
    (shared : s'.sharedWake = s.sharedWake) : s'.Watched past := by
  unfold Watched at h ⊢
  rw [workers, shared]
  refine h.imp_right (Or.imp (fun ⟨w, hw, h⟩ => ⟨w, List.mem_append_left _ hw, h⟩) fun h w hw => ?_)
  obtain hw | hw := List.mem_append.mp hw
  · exact h w hw
  · rw [List.mem_singleton.mp hw]
    simp [Pc.inLoop]

theorem Watched.work (hp : Past past) (h : s.Watched past) (hw : s.workers[i]? = some w)
    (hh : Heeds s w s' w') (hb : past w'.pc → past w.pc) (hn : (s'.setWorker i w').NoneLeft) :
    (s'.setWorker i w').Watched past := by
  have hm : w' ∈ (s'.setWorker i w').workers := self_mem_setWorker hw hh.workers
  have hc : (∃ site, w'.pc = .collect site) → (s'.setWorker i w').Watched past := fun ⟨site, hs⟩ =>
    .of_mem hm (by rw [hs]; rfl) (.inl (by rw [hs]; exact hp.collect site))
  obtain h | ⟨v, hv, hl, h⟩ | h := h
  · exact (hh.shared h).elim .inl hc
  · obtain hv | rfl := mem_setWorker w' hw hh.workers hv
    · exact .of_mem hv hl h
    · have hl := (hh.loop hl).resolve_right (hn w' hm)
      obtain h | h := h
      · exact .of_mem hm hl (.inl (h ∘ hb))
      · exact (hh.wake h).elim (fun h => .of_mem hm hl (.inr h)) hc
  · by_cases hl : w'.pc.inLoop
    case pos =>
      have hf := (hh.fresh hl).resolve_left (h w (List.mem_of_getElem? hw))
      exact .of_mem hm hl (.inl (hp.fresh hf))
    case neg =>
      refine .inr (.inr fun v hv => ?_)
      rw [setWorker, hh.workers] at hv
      exact (List.mem_or_eq_of_mem_set hv).elim (h v) (· ▸ hl)

theorem NoneLeft.congr (hn : s.NoneLeft) (h : s'.pcs = s.pcs) : s'.NoneLeft := by
  have hn : ∀ pc ∈ s.pcs, ¬pc.hasLeft := forall_mem_pcs.mpr hn
  rw [← h] at hn
  exact forall_mem_pcs.mp hn

theorem Watched.signal (h : s.Watched past) (hp : Past past) (hn : s.NoneLeft) :
    (s.signal i).Watched past := by
  have hn : (s.signal i).NoneLeft := hn.congr pcs_signal
  unfold Group.signal at hn ⊢
  split at hn
  case h_1 => exact h
  case h_2 w hw =>
    have hh : Heeds s w s { w with wake := true } :=
      ⟨rfl, .inl, .inl, id, .inl, fun _ => .inl rfl, .inl⟩
    exact h.work hp hw hh id hn

theorem watched_signal (hw : s.workers[i]? = some w) (hl : w.pc.inLoop) :
    (s.signal i).Watched past := by
  have hi := (List.getElem?_eq_some_iff.mp hw).1
  simp only [Group.signal, hw]
  exact .of_mem (List.mem_set hi _) hl (.inr rfl)

theorem Watched.wakeOneSleeping (h : s.Watched past) (hp : Past past) (hn : s.NoneLeft) :
    s.wakeOneSleeping.1.Watched past := by
  simp only [Group.wakeOneSleeping]
  split
  · exact h.congr rfl id
  · exact Watched.signal (h.congr rfl id) hp hn

-- A directed wake reaches a worker in the loop.
theorem Accounted.watched_wakeOneSleeping (ha : s.Accounted) (h : s.wakeOneSleeping.2) :
    s.wakeOneSleeping.1.Watched past := by
  simp only [Group.wakeOneSleeping] at h ⊢
  split at h
  case h_1 => cases h
  case h_2 i hi =>
    obtain ⟨w, hw, hl⟩ := ha.target hi
    exact watched_signal hw (Pc.inLoop_of_linked hl)

theorem Accounted.watched_of_awake (ha : s.Accounted) (hp : Past past) (hn : s.NoneLeft)
    (h : 0 < s.awakeWorkers) : s.Watched past := by
  have hc : 0 < s.count Pc.awake := by rw [ha.awake] at h; omega
  have ⟨w, hw, hl⟩ := List.countP_pos_iff.mp hc
  have hl : w.pc.awake := hl
  refine .of_mem hw (Pc.inLoop_of_awake hl (hn w hw)) (.inl fun h => ?_)
  simp [Pc.awake, hp.asleep h] at hl

theorem Accounted.watched_of_not_running (ha : s.Accounted) (h : s.runningWorkers ≤ 0) :
    s.Watched past := by
  have hc : s.count Pc.running = 0 := by rw [ha.running] at h; omega
  exact .inr (.inr fun w hw hl => List.countP_eq_zero.mp hc w hw (Pc.running_of_inLoop hl))

theorem Watched.wakeStep {wk : Wake} (h : s.Watched past) (hp : Past past) (hn : s.NoneLeft) :
    (s.wakeStep t awakeFirst wk).Watched past := by
  cases wk <;> simp only [Group.wakeStep]
  case directed => split <;> exact (h.wakeOneSleeping hp hn).congr rfl id
  case shared =>
    split
    · exact h.congr rfl id
    · exact .inl rfl
  all_goals split <;> exact h.congr rfl id

theorem calls_wakeStep {wk : Wake} {u : Nat} (hu : u ≠ t) :
    (s.wakeStep t awakeFirst wk).calls u = s.calls u := by
  have ⟨_, _, he⟩ := s.wakeOneSleeping_frame
  cases wk <;> simp only [Group.wakeStep] <;> split <;> simp [unlock, setCall, hu, he]

-- A pending wake reaches the group, or stays pending.
theorem Accounted.wakeStep_pending {wk : Wake} (ha : s.Accounted) (hp : Past past)
    (hn : s.NoneLeft) (hl : s.lifeState = false) (h : (Call.wake wk).pending) :
    (s.wakeStep t awakeFirst wk).Watched past ∨ ((s.wakeStep t awakeFirst wk).calls t).pending := by
  cases wk <;> simp only [Group.wakeStep]
  case life => simp [hl, setCall, Call.pending]
  case counters =>
    split
    · by_cases hz : s.awakeWorkers ≤ 0
      case pos => exact .inr (by simp [setCall, Call.pending, hz])
      case neg => exact .inl ((ha.watched_of_awake hp hn (by omega)).congr rfl id)
    · by_cases hz : 0 < s.runningWorkers
      case pos => exact .inr (by simp [setCall, Call.pending, hz])
      case neg => exact .inl (ha.watched_of_not_running (by omega) |>.congr rfl id)
  case haveAwake awake =>
    have hz : awake ≤ 0 := by simpa [Call.pending] using h
    split
    · exact .inl (ha.watched_of_not_running (by omega) |>.congr rfl id)
    · exact .inr (by simp [setCall, Call.pending])
  case haveRunning running =>
    have hz : 0 < running := by simpa [Call.pending] using h
    split
    · exact .inl (ha.watched_of_awake hp hn (by omega) |>.congr rfl id)
    · exact .inr (by simp [setCall, Call.pending])
  case directed =>
    split
    · rename_i hw
      exact .inl ((ha.watched_wakeOneSleeping hw).congr rfl id)
    · exact .inr (by simp [setCall, Call.pending])
  case shared => exact .inl (.inl (by simp [hl]))

end Group
end Bnio.Posix
