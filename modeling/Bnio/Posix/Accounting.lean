import Bnio.Posix.Steps

namespace Bnio.Posix.Group

variable {s s' : Group} {i j t : Nat} {w w' : Worker} {input : Input} {p : Pc → Bool} {awakeFirst : Bool}

def count (s : Group) (p : Pc → Bool) : Nat :=
  s.workers.countP (p ·.pc)

structure Accounted (s : Group) : Prop where
  awake   : s.awakeWorkers = s.count Pc.awake
  running : s.runningWorkers = s.count Pc.running
  suspend : ∃ l, s.suspend.Holds l ∧ ∀ i, i ∈ l ↔ ∃ w, s.workers[i]? = some w ∧ w.pc.linked
  waits   : ∀ w ∈ s.workers, w.begun = w.ended + w.pc.linked.toNat

theorem count_setWorker (w' : Worker) (hw : s.workers[i]? = some w) :
    (s.setWorker i w').count p + (p w.pc).toNat = s.count p + (p w'.pc).toNat := by
  have ⟨hi, he⟩ := List.getElem?_eq_some_iff.mp hw
  have hp : p w.pc → 0 < s.workers.countP (p ·.pc) := fun h =>
    List.countP_pos_iff.mpr ⟨w, List.mem_of_getElem? hw, h⟩
  simp only [count, setWorker, List.countP_set hi, he]
  cases hb : p w.pc <;> cases p w'.pc <;> simp only [hb, Bool.toNat_true, Bool.toNat_false,
    if_true, Bool.false_eq_true, if_false, forall_const] at hp ⊢ <;> omega

theorem fetchStep_frame (s : Group) (w : Worker) (caller : Caller) (now : Nat) (f : Fetch) :
    ∃ timers locked fetching pc, s.fetchStep w caller now f =
      ({ s with timers, fetchLocked := locked, fetching }, { w with pc }) := by
  cases f <;> simp only [fetchStep] <;> try split
  all_goals exact ⟨_, _, _, _, rfl⟩

-- What a step of the worker `i` does to the books.
structure Books (s : Group) (i : Nat) (w : Worker) (s' : Group) (w' : Worker) : Prop where
  workers : s'.workers = s.workers
  awake   : s'.awakeWorkers + w.pc.awake.toNat = s.awakeWorkers + w'.pc.awake.toNat
  running : s'.runningWorkers + w.pc.running.toNat = s.runningWorkers + w'.pc.running.toNat
  suspend : ∀ l, s.suspend.Holds l → (i ∈ l ↔ w.pc.linked) →
              ∃ l', s'.suspend.Holds l' ∧ (i ∈ l' ↔ w'.pc.linked) ∧ ∀ j ≠ i, j ∈ l' ↔ j ∈ l
  waits   : w.begun = w.ended + w.pc.linked.toNat → w'.begun = w'.ended + w'.pc.linked.toNat

-- A step that does not touch the suspend list.
theorem Books.of_counters (workers : s'.workers = s.workers) (suspend : s'.suspend = s.suspend)
    (begun : w'.begun = w.begun) (ended : w'.ended = w.ended) (linked : w'.pc.linked = w.pc.linked)
    (awake : s'.awakeWorkers + w.pc.awake.toNat = s.awakeWorkers + w'.pc.awake.toNat)
    (running : s'.runningWorkers + w.pc.running.toNat = s.runningWorkers + w'.pc.running.toNat) :
    Books s i w s' w' where
  workers         := workers
  awake           := awake
  running         := running
  suspend l hl hi := ⟨l, suspend ▸ hl, by rw [linked]; exact hi, fun _ _ => .rfl⟩
  waits h         := by rw [begun, ended, linked]; exact h

-- A step that keeps the phase leaves the books alone.
theorem Books.of_moves {emptyCpu emptyIo fetched : Prop} (workers : s'.workers = s.workers)
    (awake : s'.awakeWorkers = s.awakeWorkers) (running : s'.runningWorkers = s.runningWorkers)
    (suspend : s'.suspend = s.suspend) (begun : w'.begun = w.begun) (ended : w'.ended = w.ended)
    (hm : w.pc.Moves w'.pc emptyCpu emptyIo fetched) : Books s i w s' w' :=
  .of_counters workers suspend begun ended hm.linked (by rw [awake, hm.awake])
    (by rw [running, hm.running])

theorem Works.books (h : Works s i w input s' w') : Books s i w s' w' := by
  cases h
  case moves hm _         => exact .of_moves rfl rfl rfl rfl rfl rfl hm
  case drainShared        => exact .of_counters rfl rfl rfl rfl rfl rfl rfl
  case drainWorker        => exact .of_counters rfl rfl rfl rfl rfl rfl rfl
  case spill h            => refine .of_counters rfl rfl rfl rfl ?_ ?_ ?_ <;> rw [h] <;> rfl
  case signal h _ _       => exact .of_moves rfl rfl rfl rfl rfl rfl (h ▸ Pc.moves_notify)
  case execute cpu h _ _  => refine .of_counters rfl rfl rfl rfl ?_ ?_ ?_ <;> rw [h] <;> rfl
  case fetch caller f h   =>
    have hm := fetchStep_moves (s := s) input.now h
    obtain ⟨_, _, _, _, he⟩ := s.fetchStep_frame w caller input.now f
    rw [he] at hm ⊢
    exact .of_moves rfl rfl rfl rfl rfl rfl hm
  case io site h          =>
    have hm := Pc.moves_io s.loop (s.consumeIo input).2 site
    have hf : (s.consumeIo input).1 = { s with sharedIo := (s.consumeIo input).1.sharedIo } := by
      obtain he | he := s.consumeIo_cases input <;> rw [he]
    rw [hf]
    exact .of_moves rfl rfl rfl rfl rfl rfl (h ▸ hm)
  case abort h            => refine .of_counters rfl rfl rfl rfl ?_ ?_ ?_ <;> rw [h] <;> rfl
  case enter h            =>
    refine .of_counters rfl rfl rfl rfl ?_ ?_ ?_ <;> rw [h] <;> simp [Pc.awake, Pc.running, Pc.linked,
      Pc.entered, Pc.asleep]
  case sub h              =>
    refine .of_counters rfl rfl rfl rfl ?_ ?_ ?_ <;> rw [h] <;> simp [Pc.awake, Pc.running, Pc.linked,
      Pc.entered, Pc.asleep, Site.waiting, Site.counted]
  case add next h         =>
    have hall : ∀ pc ∈ Pc.restarts, pc.awake ∧ pc.running ∧ pc.linked = false := by decide
    obtain ⟨ha, hr, hl⟩ := hall _ (Pc.afterWait_mem_restarts s.shouldFinish next)
    have ha' : (Pc.add next).awake = false := rfl
    have hr' : (Pc.add next).running = true := rfl
    refine .of_counters rfl rfl rfl rfl ?_ ?_ ?_ <;> rw [h]
    · exact hl
    · simp [ha, ha']
    · simp [hr, hr']
  case leave c n h ha     =>
    refine .of_counters rfl rfl rfl rfl ?_ ?_ ?_ <;> rw [h]
    · rfl
    · cases c <;> simp [ha, Pc.awake, Pc.entered, Pc.asleep, Pc.linked]
    · rfl
  case release h          =>
    refine .of_counters rfl rfl rfl rfl ?_ ?_ ?_ <;> rw [h] <;> simp [Pc.awake, Pc.running, Pc.linked,
      Pc.entered]
  case refused h          =>
    refine .of_counters rfl rfl rfl rfl ?_ ?_ ?_ <;> rw [h] <;> simp [Pc.awake, Pc.running, Pc.linked,
      Pc.entered]
  case link h             =>
    refine ⟨rfl, by rw [h]; rfl, by rw [h]; rfl, fun l hl hi => ?_, fun hb => ?_⟩
    · have hn : i ∉ l := by rw [hi, h]; simp [Pc.linked]
      exact ⟨i :: l, hl.linkLocalState hn, by simp [Pc.linked], fun j hj => by simp [hj]⟩
    · rw [h] at hb
      simpa [Pc.linked] using hb
  case unlink h           =>
    refine ⟨rfl, by rw [h]; rfl, by rw [h]; rfl, fun l hl hi => ?_, fun hb => ?_⟩
    · have hn : i ∈ l := by rw [hi, h]; rfl
      exact ⟨_, hl.unlinkLocalState hn, by simp [Pc.linked], fun j hj => by simp [hj]⟩
    · rw [h] at hb
      simpa [Pc.linked] using hb
  case unregister n h hs  =>
    refine ⟨rfl, by rw [h]; rfl, by rw [h]; rfl, fun l hl hi => ?_, fun hb => ?_⟩
    · have hn : i ∉ l := by rw [hi, h]; simp [Pc.linked]
      have hf : s.suspend.localStateInList i = false := by
        simpa [hn] using hl.localStateInList_iff (n := i)
      exact ⟨l, by simpa [hs, hf] using hl, by simpa [Pc.linked] using hn, fun _ _ => .rfl⟩
    · rw [h] at hb
      simpa [Pc.linked] using hb

theorem Accounted.work (ha : s.Accounted) (hw : s.workers[i]? = some w)
    (hb : Books s i w s' w') : (s'.setWorker i w').Accounted := by
  have hc (p : Pc → Bool) : (s'.setWorker i w').count p + (p w.pc).toNat =
      s.count p + (p w'.pc).toNat := by
    simpa only [count, setWorker, hb.workers] using count_setWorker (p := p) w' hw
  have hi := (List.getElem?_eq_some_iff.mp hw).1
  refine ⟨?_, ?_, ?_, fun v hv => ?_⟩
  · have := hc Pc.awake
    have := hb.awake
    have := ha.awake
    simp only [setWorker] at *
    omega
  · have := hc Pc.running
    have := hb.running
    have := ha.running
    simp only [setWorker] at *
    omega
  · obtain ⟨l, hl, hm⟩ := ha.suspend
    obtain ⟨l', hl', hi', hj⟩ := hb.suspend l hl (by simp [hm, hw])
    refine ⟨l', hl', fun j => ?_⟩
    by_cases hji : j = i
    case pos => simp [setWorker, hb.workers, hji, hi, hi']
    case neg => simp [setWorker, hb.workers, Ne.symm hji, hj j hji, hm]
  · simp only [setWorker, hb.workers] at hv
    cases List.mem_or_eq_of_mem_set hv
    case inl hv => exact ha.waits v hv
    case inr hv => exact hv ▸ hb.waits (ha.waits w (List.mem_of_getElem? hw))

-- The books depend on the phases of the workers only.
theorem Accounted.congr (ha : s.Accounted) (awake : s'.awakeWorkers = s.awakeWorkers)
    (running : s'.runningWorkers = s.runningWorkers)
    (suspend : ∀ l, s.suspend.Holds l → s'.suspend.Holds l)
    (workers : s'.workers = s.workers) : s'.Accounted where
  awake   := by rw [awake, ha.awake, count, count, workers]
  running := by rw [running, ha.running, count, count, workers]
  suspend := by
    have ⟨l, hl, hm⟩ := ha.suspend
    exact ⟨l, suspend l hl, by rw [workers]; exact hm⟩
  waits   := by rw [workers]; exact ha.waits

theorem Accounted.signal (ha : s.Accounted) : (s.signal i).Accounted := by
  unfold Group.signal
  split
  case h_1      => exact ha
  case h_2 w hw => exact ha.work hw (.of_counters rfl rfl rfl rfl rfl rfl rfl)

theorem wakeOneSleeping_cases (s : Group) :
    ∃ suspend, (∀ l, s.suspend.Holds l → suspend.Holds l) ∧
      (s.wakeOneSleeping = ({ s with suspend }, false) ∨
        ∃ i, s.wakeOneSleeping = ({ s with suspend }.signal i, true)) := by
  refine ⟨_, fun l hl => hl.wakeOneSleeping s.workers.length, ?_⟩
  simp only [wakeOneSleeping]
  split
  case h_1   => exact .inl rfl
  case h_2 i _ => exact .inr ⟨i, rfl⟩

theorem Accounted.wakeOneSleeping (ha : s.Accounted) : s.wakeOneSleeping.1.Accounted := by
  obtain ⟨suspend, hs, h | ⟨i, h⟩⟩ := s.wakeOneSleeping_cases <;> rw [h]
  · exact ha.congr rfl rfl hs rfl
  · exact Accounted.signal <| ha.congr rfl rfl hs rfl

theorem Accounted.wakeStep {wk : Wake} (ha : s.Accounted) :
    (s.wakeStep t awakeFirst wk).Accounted := by
  cases wk <;> simp only [Group.wakeStep]
  case directed => split <;> exact ha.wakeOneSleeping.congr rfl rfl (fun _ => id) rfl
  all_goals try split
  all_goals exact ha.congr rfl rfl (fun _ => id) rfl

theorem Accounted.clientStep (ha : s.Accounted) (h : s.clientStep t awakeFirst = some s') :
    s'.Accounted := by
  unfold Group.clientStep at h
  split at h
  case h_8 => exact Option.some.inj h ▸ ha.wakeStep
  case h_3 q _ _ =>
    split at h <;> cases h
    · exact ha.congr rfl rfl (fun _ => id) rfl
    · cases q <;> exact ha.congr rfl rfl (fun _ => id) rfl
  all_goals try split at h
  all_goals cases h
  all_goals exact ha.congr rfl rfl (fun _ => id) rfl

theorem linked_append_start :
    (∃ w, (s.workers ++ [({} : Worker)])[j]? = some w ∧ w.pc.linked) ↔
      ∃ w, s.workers[j]? = some w ∧ w.pc.linked := by
  rcases Nat.lt_trichotomy j s.workers.length with h | rfl | h
  · rw [List.getElem?_append_left h]
  · simp [Pc.linked]
  · have hn : s.workers[j]? = none := List.getElem?_eq_none (Nat.le_of_lt h)
    have hn' : (s.workers ++ [({} : Worker)])[j]? = none := List.getElem?_eq_none (by simp; omega)
    simp [hn, hn']

theorem Accounted.run (ha : s.Accounted) (h : s.step .run = some s') : s'.Accounted := by
  cases h
  have ⟨l, hl, hm⟩ := ha.suspend
  exact {
    awake   := by simpa [count, Pc.awake, Pc.entered] using ha.awake
    running := by simpa [count, Pc.running] using ha.running
    suspend := ⟨l, hl, fun i => (hm i).trans linked_append_start.symm⟩
    waits w := by
      simp only [List.mem_append, List.mem_singleton]
      rintro (hw | rfl)
      · exact ha.waits w hw
      · rfl }

theorem Accounted.step {a : Action} (ha : s.Accounted) (h : s.step a = some s') : s'.Accounted := by
  cases a
  case run    => exact ha.run h
  case client => exact ha.clientStep h
  case work i input =>
    have ⟨w, s₁, w', hw, hs, he⟩ := step_work h
    exact he ▸ ha.work hw (workStep_works hs).books
  all_goals
    simp only [Group.step] at h
    split at h <;> cases h
    exact ha.congr rfl rfl (fun _ => id) rfl

theorem accounted_init (loop : Loop) : ({ loop } : Group).Accounted where
  awake   := rfl
  running := rfl
  suspend := ⟨[], WorkerStateList.holds_init, by simp⟩
  waits   := by simp

theorem count_awake_add_asleep (s : Group) :
    s.count Pc.awake + s.count Pc.asleep = s.count Pc.entered := by
  unfold count
  induction s.workers
  case nil         => rfl
  case cons w l hi =>
    have h : w.pc.asleep → w.pc.entered := Pc.entered_of_asleep
    simp only [List.countP_cons, Pc.awake] at hi ⊢
    cases ha : w.pc.asleep <;> cases he : w.pc.entered <;> simp_all <;> omega

theorem count_awake_le (s : Group) : s.count Pc.awake ≤ s.count Pc.running :=
  List.countP_mono_left fun _ _ h => Pc.running_of_entered (Bool.and_eq_true _ _ ▸ h).1

-- `wake_one_sleeping` signals a worker between the two steps on the suspend list.
theorem Accounted.target (ha : s.Accounted)
    (h : (s.suspend.wakeOneSleeping s.workers.length).2 = some i) :
    ∃ w, s.workers[i]? = some w ∧ w.pc.linked := by
  have ⟨l, hl, hm⟩ := ha.suspend
  have hs : l ⊆ List.range s.workers.length := fun j hj =>
    have ⟨_, hw, _⟩ := (hm j).mp hj
    List.mem_range.mpr (List.getElem?_eq_some_iff.mp hw).1
  have hf : l.length ≤ s.workers.length := by
    simpa using (List.subperm_of_subset hl.queue.nodup hs).length_le
  exact (hm i).mp (hl.mem_of_wakeOneSleeping hf h)

-- The books of a worker group as the two wake shortcuts rely on them.
structure Balanced (s : Group) : Prop where
  awake_nonneg : 0 ≤ s.awakeWorkers
  awake_le     : s.awakeWorkers ≤ s.runningWorkers
  awake        : s.awakeWorkers = s.count Pc.entered - s.count Pc.asleep
  -- A worker never begins a wait before it has ended the last one, and has ended all on exit.
  waits        : ∀ w ∈ s.workers, w.begun = w.ended + w.pc.linked.toNat
  exit         : ∀ w ∈ s.workers, ¬w.pc.running → w.begun = w.ended
  suspend      : ∃ l, s.suspend.Holds l ∧ ∀ i, i ∈ l ↔ ∃ w, s.workers[i]? = some w ∧ w.pc.linked
  returned     : (∀ w ∈ s.workers, ¬w.pc.running) →
                   s.awakeWorkers = 0 ∧ s.runningWorkers = 0 ∧ s.suspend.Holds []

theorem Accounted.returned (ha : s.Accounted) (h : ∀ w ∈ s.workers, ¬w.pc.running) :
    s.awakeWorkers = 0 ∧ s.runningWorkers = 0 ∧ s.suspend.Holds [] := by
  have hr : s.count Pc.running = 0 := List.countP_eq_zero.mpr h
  have hl := s.count_awake_le
  have ⟨l, hs, hm⟩ := ha.suspend
  refine ⟨by rw [ha.awake]; omega, by rw [ha.running, hr]; rfl, ?_⟩
  have : l = [] := List.eq_nil_iff_forall_not_mem.mpr fun i hi => by
    have ⟨w, hw, hp⟩ := (hm i).mp hi
    exact h w (List.mem_of_getElem? hw) (Pc.running_of_linked hp)
  exact this ▸ hs

theorem Accounted.balanced (ha : s.Accounted) : s.Balanced where
  awake_nonneg := by rw [ha.awake]; omega
  awake_le     := by have := s.count_awake_le; rw [ha.awake, ha.running]; omega
  awake        := by have := s.count_awake_add_asleep; rw [ha.awake]; omega
  waits        := ha.waits
  exit w hw h  := by
    have hl : w.pc.linked = false := Bool.eq_false_iff.mpr fun hl => h (Pc.running_of_linked hl)
    rw [ha.waits w hw, hl]
    rfl
  suspend      := ha.suspend
  returned     := ha.returned

theorem always_balanced (loop : Loop) (actions : List Action) :
    System.Always step Balanced { loop } actions :=
  .of_invariant Accounted.step Accounted.balanced (accounted_init loop)

end Bnio.Posix.Group
