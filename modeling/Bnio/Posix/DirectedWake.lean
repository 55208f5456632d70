import Bnio.Posix.Accounting

namespace Bnio.Posix.Group

variable {s s' : Group} {i : Nat} {w w' : Worker} {input : Input} {a : Action}

-- What `wake_one_sleeping` and the wake shortcut take for granted: no worker in the suspend list runs
-- an operation, and `awake_workers` counts every worker that does.
structure Directed (s : Group) : Prop where
  linked : ∀ w ∈ s.workers, w.pc.linked → ¬w.pc.executing
  target : ∀ i, (s.suspend.wakeOneSleeping s.workers.length).2 = some i →
             ∃ w, s.workers[i]? = some w ∧ w.pc.linked ∧ ¬w.pc.executing
  awake  : s.awakeWorkers = s.count Pc.awake
  counts : ∀ w ∈ s.workers, w.pc.executing → w.pc.awake

-- `run_cpu_batch` finds nothing when it is called between `begin_wait` and `end_wait`, or in the drain
-- of a `run` that has not incremented `awake_workers`.
def Idle (s : Group) : Action → Prop
  | .work i input =>
    ∀ w ∈ s.workers[i]?, w.pc.sleepsInBatch → input.found = false ∧ s.sharedCpu = []
  | _ => True

instance : Decidable (s.Idle a) := by
  cases a <;> unfold Idle <;> infer_instance

-- Operations run in the step after `run_cpu_batch` has found some.
theorem Works.executing (h : Works s i w input s' w') (he : w'.pc.executing) :
    ∃ site, w.pc = .cpu site ∧ w'.pc = .exec site ∧ (input.found ∨ s.sharedCpu ≠ []) := by
  cases h
  case execute site _ h hw _ => exact ⟨site, h, rfl, hw⟩
  case moves hf              => simp [hf] at he
  case drainShared h         => simp [h, Pc.executing] at he
  case drainWorker h         => simp [h, Pc.executing] at he
  case signal                => simp [executing_afterCollect] at he
  case fetch                 => simp [executing_fetchStep] at he
  case io                    => simp [executing_afterIo] at he
  case add                   =>
    have hn : ∀ pc ∈ Pc.restarts, ¬pc.executing := by decide
    exact absurd he (hn _ (Pc.afterWait_mem_restarts ..))
  all_goals cases he

def Counts (s : Group) : Prop :=
  ∀ w ∈ s.workers, w.pc.executing → w.pc.awake

theorem Counts.congr (hc : s.Counts) (hw : s'.pcs = s.pcs) : s'.Counts := by
  have h : ∀ pc ∈ s.pcs, pc.executing → pc.awake := forall_mem_pcs.mpr hc
  rw [← hw] at h
  exact forall_mem_pcs.mp h

theorem Counts.work (hc : s.Counts) (hw : s.workers[i]? = some w) (h : Works s i w input s' w')
    (hi : s.Idle (.work i input)) : (s'.setWorker i w').Counts := by
  intro v hv he
  rw [setWorker, h.books.workers] at hv
  obtain hv | rfl := List.mem_or_eq_of_mem_set hv
  case inl => exact hc v hv he
  case inr =>
    obtain ⟨site, hs, hx, hq⟩ := h.executing he
    by_contra ha
    obtain ⟨hf, hn⟩ := hi w hw (by simpa [Pc.sleepsInBatch, hs, ← hx] using ha)
    simp [hf, hn] at hq

theorem Counts.step (hc : s.Counts) (hi : s.Idle a) (h : s.step a = some s') : s'.Counts := by
  obtain ⟨i, input, w, s₁, w', rfl, hw, hs, rfl⟩ | hp | hp := step_cases h
  · exact hc.work hw (workStep_works hs) hi
  · exact hc.congr hp
  · intro w hw he
    simp only [hp, List.mem_append, List.mem_singleton] at hw
    obtain hw | rfl := hw
    · exact hc w hw he
    · cases he

theorem Accounted.directed (ha : s.Accounted) (hc : s.Counts) : s.Directed where
  linked w hw hl he := Pc.not_linked_of_executing he (hc w hw he) hl
  target i h := by
    have ⟨w, hw, hl⟩ := ha.target h
    have hm := List.mem_of_getElem? hw
    exact ⟨w, hw, hl, fun he => Pc.not_linked_of_executing he (hc w hm he) hl⟩
  awake  := ha.awake
  counts := hc

-- The step that takes a batch leaves the worker in `execute_tasks`.
theorem workStep_exec {site : Site} (hs : w.pc = .cpu site)
    (hq : ¬(input.found = false ∧ s.sharedCpu = [])) (h : s.workStep i w input = some (s', w')) :
    w'.pc = .exec site := by
  simp only [workStep, hs] at h
  split at h
  case isTrue => cases h; rfl
  case isFalse hf =>
    have hc : s.sharedCpu ≠ [] := fun hc => hq ⟨Bool.eq_false_iff.mpr hf, hc⟩
    rw [if_pos hc] at h
    cases h
    rfl

theorem Counts.idle (hc : s'.Counts) (h : s.step a = some s') : s.Idle a := by
  cases a
  case work i input =>
    have ⟨v, s₁, w', hv, hs, he⟩ := step_work h
    intro w hw hb
    cases hv.symm.trans hw
    by_contra hq
    obtain ⟨site, hp, ha⟩ : ∃ site, v.pc = .cpu site ∧ (Pc.exec site).awake = false := by
      cases hp : v.pc <;> simp_all [Pc.sleepsInBatch]
    have hx := workStep_exec hp hq hs
    have hi := (List.getElem?_eq_some_iff.mp hv).1
    have hm : w' ∈ s'.workers := by
      rw [he, setWorker, (workStep_works hs).books.workers]
      exact List.mem_set hi w'
    have := hc w' hm (by rw [hx]; rfl)
    simp [hx, ha] at this
  all_goals trivial

-- Directed wakes only reach workers without user code exactly as long as no batch runs in a wait.
theorem always_directed_iff_idle (loop : Loop) {actions : List Action} {s' : Group}
    (h : System.run step { loop } actions = some s') :
    System.Always step Directed { loop } actions ↔ System.Along step Idle { loop } actions :=
  System.always_iff_along (I := fun s => s.Accounted ∧ s.Counts)
    (fun hi hg h => ⟨hi.1.step h, hi.2.step hg h⟩) (fun hi => hi.1.directed hi.2)
    (fun _ h hp => Counts.idle hp.counts h) ⟨accounted_init loop, by simp [Counts]⟩ h

-- A worker blocks, an operation is published, and the worker takes it after the wait.
def patient : List Action :=
  .run :: List.replicate 31 (.work 0 {}) ++ .publish 1 .cpu 7 :: List.replicate 6 (.client 1 true) ++
    List.replicate 5 (.work 0 {})

-- The operation is published between `begin_wait` and the check for pending work.
def hasty : List Action :=
  .run :: List.replicate 15 (.work 0 {}) ++
    [.publish 1 .cpu 7, .client 1 true, .client 1 true, .work 0 {}]

theorem always_directed_of_patient :
    ∃ s, System.run step { loop := ⟨.uring, 0⟩ } patient = some s ∧
      s.pcs = [.exec (.post false)] ∧ System.Always step Directed { loop := ⟨.uring, 0⟩ } patient := by
  have ⟨s, hr, hp⟩ := Option.map_eq_some_iff.mp
    (by decide +kernel : (System.run step { loop := ⟨.uring, 0⟩ } patient).map pcs =
      some [.exec (.post false)])
  exact ⟨s, hr, hp, (always_directed_iff_idle _ hr).mpr (by decide +kernel)⟩

theorem not_always_directed_of_hasty :
    ¬System.Always step Directed { loop := ⟨.uring, 0⟩ } hasty := by
  intro h
  have ⟨s, hr, hp⟩ := Option.map_eq_some_iff.mp
    (by decide +kernel : (System.run step { loop := ⟨.uring, 0⟩ } hasty).map pcs =
      some [.exec .pre])
  have hl : ∀ pc ∈ s.pcs, pc.linked → ¬pc.executing := forall_mem_pcs.mpr (h.last hr).linked
  simp [hp, Pc.linked, Pc.executing, Site.waiting] at hl

end Bnio.Posix.Group
