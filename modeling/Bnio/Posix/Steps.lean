import Bnio.Posix.Phases

namespace Bnio.Posix.Group

variable {s s' : Group} {i : Nat} {w w' : Worker} {input : Input}

-- A signal interrupts a kevent call with a timeout, and the worker makes the call again.
def Interrupts (s : Group) (w : Worker) (input : Input) : Prop :=
  s.loop.backend = .kqueue ∧ w.pc.waitsTimed ∧ input.outcome = .again ∧ s.shouldFinish = false

instance : Decidable (s.Interrupts w input) :=
  inferInstanceAs (Decidable (_ ∧ _))

-- The ways a worker makes a step. `moves` are the steps that only the worker itself sees; it may have
-- found the shared CPU queue empty.
inductive Works (s : Group) (i : Nat) (w : Worker) (input : Input) : Group → Worker → Prop
  | moves {pc timeout} (h : w.pc.Moves pc (s.sharedCpu = []) False (s.Interrupts w input))
    (he : pc.executing = false) : Works s i w input s { w with pc, timeout }
  | enter (h : w.pc = .enter) :
    Works s i w input { s with awakeWorkers := s.awakeWorkers + 1 } { w with pc := .arm }
  | drainShared {site} (h : w.pc = .collect site) :
    Works s i w input { s with sharedWake := false } w
  | drainWorker {site} (h : w.pc = .collect site) :
    Works s i w input s { w with wake := false }
  | spill {site} (h : w.pc = .collect site) :
    Works s i w input { s with sharedCpu := input.spilled ++ s.sharedCpu } { w with pc := .notify site }
  | signal {site} (h : w.pc = .notify site) (hs : site.waiting) (hl : s.submitLock = none) :
    Works s i w input { s with sharedWake := true } { w with pc := Loop.afterCollect true site }
  | execute {site} (cpu : List OpId) (h : w.pc = .cpu site) (hw : input.found ∨ s.sharedCpu ≠ [])
    (hc : cpu = [] ∨ cpu = s.sharedCpu) :
    Works s i w input { s with sharedCpu := cpu } { w with pc := .exec site }
  | fetch {caller f} (h : w.pc = .fetch caller f) :
    Works s i w input (s.fetchStep w caller input.now f).1 (s.fetchStep w caller input.now f).2
  | io {site} (h : w.pc = .io site) :
    Works s i w input (s.consumeIo input).1
      { w with pc := s.loop.afterIo (s.consumeIo input).2 site }
  | abort {counted} (h : w.pc = .abort counted) :
    Works s i w input { s with sharedIo := [] }
      { w with pc := .fetch (.consume (.drain false counted)) .gate }
  | link (h : w.pc = .link) :
    Works s i w input { s with suspend := s.suspend.linkLocalState i }
      { w with pc := .sub, begun := w.begun + 1 }
  | sub (h : w.pc = .sub) :
    Works s i w input { s with awakeWorkers := s.awakeWorkers - 1 } { w with pc := .collect .pre }
  | unlink {next} (h : w.pc = .unlink next) :
    Works s i w input { s with suspend := s.suspend.unlinkLocalState i }
      { w with pc := .add next, ended := w.ended + 1 }
  | add {next} (h : w.pc = .add next) :
    Works s i w input { s with awakeWorkers := s.awakeWorkers + 1 }
      { w with pc := Loop.afterWait s.shouldFinish next }
  | unregister {counted} (suspend : WorkerStateList) (h : w.pc = .unregister counted)
    (hs : suspend = if s.suspend.localStateInList i then s.suspend.unlinkLocalState i else s.suspend) :
    Works s i w input { s with suspend } { w with pc := .leave counted }
  | leave {counted} (awakeWorkers : Int) (h : w.pc = .leave counted)
    (ha : awakeWorkers = if counted then s.awakeWorkers - 1 else s.awakeWorkers) :
    Works s i w input { s with awakeWorkers } { w with pc := .release }
  | release (h : w.pc = .release) :
    Works s i w input { s with runningWorkers := s.runningWorkers - 1 } { w with pc := .left }
  | refused (h : w.pc = .refused) :
    Works s i w input { s with runningWorkers := s.runningWorkers - 1 } { w with pc := .gone }

open Pc in
attribute [local simp] running entered linked asleep inLoop hasLeft ending pastCpu pastIo bound? fresh
  Site.counted Site.waiting Loop.toReady Loop.toFinish

theorem executing_afterCollect {found : Bool} {site : Site} :
    (Loop.afterCollect found site).executing = false := by
  cases site <;> cases found <;> rfl

theorem executing_afterCpu {l : Loop} {ran : Bool} {site : Site} :
    (l.afterCpu ran site).executing = false := by
  obtain ⟨_ | _, _⟩ := l <;> rcases site with _ | _ | _ | _ | _ | _ | ⟨_ | _, _⟩ <;> cases ran <;>
    rfl

theorem executing_toSpin {l : Loop} {n : Nat} : (l.toSpin n).executing = false := by
  unfold Loop.toSpin
  split <;> rfl

theorem executing_afterCheck {l : Loop} {finish : Bool} {site : Site} :
    (l.afterCheck finish site).executing = false := by
  obtain ⟨_ | _, _⟩ := l <;> cases site <;> cases finish <;> first | rfl | exact executing_toSpin

theorem executing_afterIo {l : Loop} {found : Bool} {site : Site} :
    (l.afterIo found site).executing = false := by
  rcases site with _ | _ | _ | _ | _ | ⟨_ | _⟩ | ⟨_ | _, _⟩ <;> obtain ⟨_ | _, _⟩ := l <;>
    cases found <;> rfl

-- The shared I/O queue is empty after `consume_io_tasks` unless there was other work.
theorem consumeIo_cases (s : Group) (input : Input) : s.consumeIo input = (s, true) ∨
    s.consumeIo input = ({ s with sharedIo := [] }, input.found || s.sharedIo ≠ []) := by
  simp only [consumeIo]
  split
  · exact .inl rfl
  · exact .inr rfl

theorem consumeIo_loop : (s.consumeIo input).1.loop = s.loop := by
  obtain h | h := s.consumeIo_cases input <;> rw [h]

theorem Works.of_moves {pc : Pc} {timeout : TimePoint} {emptyCpu : Prop}
    (h : w.pc.Moves pc emptyCpu False False) (hc : emptyCpu → s.sharedCpu = [])
    (he : pc.executing = false) : Works s i w input s { w with pc, timeout } :=
  .moves { h with
    cpu   := fun hp => (h.cpu hp).imp_right hc
    bound := fun b hb => (h.bound b hb).imp_right False.elim } he

theorem prepareTimeout_eq (w : Worker) (now : Nat) (site : Site) :
    ∃ timeout, w.prepareTimeout now site = { w with timeout } := by
  cases site <;> exact ⟨_, rfl⟩

-- The second wait has the phase of the first one.
theorem Works.waitAgain {bound : TimePoint} (hp : w.pc = .block bound)
    (hk : s.loop.backend = .kqueue) (hi : input.outcome = .again) (hf : s.shouldFinish = false) :
    Works s i w input s (w.waitAgain bound input.now) := by
  refine .moves ?_ rfl
  by_cases hb : bound = ⊤
  case pos => rw [hp, if_pos hb, hb]; constructor <;> simp
  case neg =>
    have hint : s.Interrupts w input := ⟨hk, by simp [hp, Pc.waitsTimed, hb], hi, hf⟩
    rw [hp, if_neg hb]
    constructor <;> simp [hint]

theorem workStep_works (h : s.workStep i w input = some (s', w')) : Works s i w input s' w' := by
  cases hpc : w.pc <;> simp only [workStep, hpc] at h
  case start =>
    cases h
    refine .moves ?_ ?_ <;> split <;> first | rfl | (rw [hpc]; constructor <;> simp)
  case «open» =>
    split at h <;> cases h
    · refine .moves ?_ rfl
      rw [hpc]; constructor <;> simp
    · refine .moves ?_ ?_ <;> split <;> first | rfl | (rw [hpc]; constructor <;> simp)
  case enter =>
    split at h <;> cases h
    · refine .moves ?_ rfl
      rw [hpc]; constructor <;> simp
    · exact .enter hpc
  case arm =>
    split at h <;> cases h <;> refine .moves ?_ rfl <;> rw [hpc] <;> constructor <;> simp
  case collect site =>
    split at h <;> cases h
    · exact .drainShared hpc
    · rw [← hpc]
      exact .drainWorker hpc
    · exact .of_moves (hpc ▸ Pc.moves_collect) False.elim executing_afterCollect
    · exact .spill hpc
  case notify site =>
    split at h
    · cases h
      exact .of_moves (hpc ▸ Pc.moves_notify) False.elim executing_afterCollect
    · rename_i hs
      split at h <;> cases h
      exact .signal hpc (by simpa using hs) (by simp_all)
  case cpu site =>
    split at h
    · rename_i hf
      cases h
      exact .execute s.sharedCpu hpc (.inl hf) (.inr rfl)
    · split at h <;> cases h
      · rename_i hc
        exact .execute [] hpc (.inr hc) (.inl rfl)
      · rename_i hc
        exact .of_moves (hpc ▸ Pc.moves_cpu) (fun _ => not_not.mp hc) executing_afterCpu
  case exec site =>
    cases h
    exact .of_moves (hpc ▸ Pc.moves_exec) False.elim executing_afterCpu
  case fetch caller f =>
    obtain ⟨rfl, rfl⟩ := Prod.mk.inj (Option.some.inj h)
    exact .fetch hpc
  case io site =>
    cases h
    rw [consumeIo_loop]
    exact .io hpc
  case check site =>
    cases h
    obtain ⟨_, ht⟩ := prepareTimeout_eq w input.now site
    rw [ht]
    exact .of_moves (hpc ▸ Pc.moves_check) False.elim executing_afterCheck
  case link => cases h; exact .link hpc
  case sub => cases h; exact .sub hpc
  case rearm b =>
    split at h <;> cases h <;> refine .moves ?_ rfl <;> rw [hpc] <;> constructor <;> simp
  case rearmLocal b =>
    split at h <;> cases h <;> refine .moves ?_ rfl <;> rw [hpc] <;> constructor <;> simp
  case block b =>
    split at h
    case h_1    => cases h; refine .moves ?_ rfl; rw [hpc]; constructor <;> simp
    case h_2 hk =>
      split at h
      case isTrue hi  => cases h; exact .waitAgain hpc hk hi.1 (by simpa using hi.2)
      case isFalse    => cases h; refine .moves ?_ rfl; rw [hpc]; constructor <;> simp
  case conclude =>
    cases h
    refine .moves ?_ rfl
    rw [hpc]; constructor <;> simp
  case unlink next => cases h; exact .unlink hpc
  case add next => cases h; exact .add hpc
  case resume =>
    cases h
    refine .moves ?_ ?_ <;> split <;> first | rfl | (rw [hpc]; constructor <;> simp)
  case abort c => cases h; exact .abort hpc
  case unregister c => cases h; exact .unregister _ hpc rfl
  case leave c => cases h; exact .leave _ hpc rfl
  case release => cases h; exact .release hpc
  case refused => cases h; exact .refused hpc
  case left => cases h
  case gone => cases h

theorem executing_afterFetch {l : Loop} {result : Option (TimePoint × List Staged)}
    {caller : Caller} : (l.afterFetch result caller).executing = false := by
  cases caller
  case consume site =>
    unfold Loop.afterFetch
    cases result.any (·.2 ≠ []) <;> cases site <;> rfl
  case wait =>
    obtain ⟨_ | _, _⟩ := l <;> rcases result with _ | ⟨_, _ | _⟩ <;> rfl

-- The steps of a fetch keep the phase; only the wait may get a deadline from them.
theorem fetchStep_moves {caller : Caller} {f : Fetch} (now : Nat) (h : w.pc = .fetch caller f) :
    w.pc.Moves (s.fetchStep w caller now f).2.pc False False (caller = .wait) := by
  rw [h]
  cases f <;> simp only [fetchStep] <;> try split
  all_goals first | exact Pc.moves_afterFetch | exact Pc.moves_phase

theorem executing_fetchStep {caller : Caller} {f : Fetch} {now : Nat} :
    (s.fetchStep w caller now f).2.pc.executing = false := by
  cases f <;> simp only [fetchStep] <;> try split
  all_goals first | exact executing_afterFetch | rfl

def pcs (s : Group) : List Pc :=
  s.workers.map (·.pc)

theorem forall_mem_pcs {p : Pc → Prop} : (∀ pc ∈ s.pcs, p pc) ↔ ∀ w ∈ s.workers, p w.pc :=
  List.forall_mem_map

theorem pcs_signal : (s.signal i).pcs = s.pcs := by
  unfold signal
  split
  case h_1      => rfl
  case h_2 w hw =>
    have ⟨hi, he⟩ := List.getElem?_eq_some_iff.mp hw
    refine List.ext_getElem? fun j => ?_
    by_cases hj : i = j
    case pos => subst hj; simp [pcs, setWorker, hi, he]
    case neg => simp [pcs, setWorker, List.getElem?_set_ne hj]

theorem pcs_wakeOneSleeping : s.wakeOneSleeping.1.pcs = s.pcs := by
  simp only [wakeOneSleeping]
  split
  · rfl
  · exact pcs_signal

theorem wakeOneSleeping_frame (s : Group) :
    ∃ workers suspend, s.wakeOneSleeping.1 = { s with workers, suspend } := by
  simp only [wakeOneSleeping]
  split
  · exact ⟨_, _, rfl⟩
  · simp only [signal]
    split <;> exact ⟨_, _, rfl⟩

theorem wakeStep_frame (s : Group) (t : Nat) (awakeFirst : Bool) (wk : Wake) :
    ∃ workers suspend calls submitLock sharedWake, s.wakeStep t awakeFirst wk =
      { s with workers, suspend, calls, submitLock, sharedWake } := by
  have ⟨_, _, he⟩ := s.wakeOneSleeping_frame
  cases wk <;> simp only [wakeStep, he] <;> split <;> exact ⟨_, _, _, _, _, rfl⟩

theorem pcs_wakeStep {t : Nat} {awakeFirst : Bool} {wk : Wake} :
    (s.wakeStep t awakeFirst wk).pcs = s.pcs := by
  cases wk <;> simp only [wakeStep] <;> split
  all_goals first | exact pcs_wakeOneSleeping | rfl

theorem pcs_clientStep {t : Nat} {awakeFirst : Bool} (h : s.clientStep t awakeFirst = some s') :
    s'.pcs = s.pcs := by
  unfold clientStep at h
  split at h
  case h_8 => exact Option.some.inj h ▸ pcs_wakeStep
  case h_3 q _ _ => split at h <;> cases h <;> cases q <;> rfl
  all_goals try split at h
  all_goals cases h
  all_goals rfl

theorem step_work (h : s.step (.work i input) = some s') :
    ∃ w s₁ w', s.workers[i]? = some w ∧ s.workStep i w input = some (s₁, w') ∧
      s' = s₁.setWorker i w' := by
  simp only [step, Option.bind_eq_bind, Option.bind_eq_some_iff] at h
  obtain ⟨w, hw, ⟨s₁, w'⟩, hs, h⟩ := h
  exact ⟨w, s₁, w', hw, hs, (Option.some.inj h).symm⟩

-- Only the worker that makes a step changes its place in the loop.
theorem step_cases {a : Action} (h : s.step a = some s') :
    (∃ i input w s₁ w', a = .work i input ∧ s.workers[i]? = some w ∧
      s.workStep i w input = some (s₁, w') ∧ s' = s₁.setWorker i w') ∨
    s'.pcs = s.pcs ∨ s'.workers = s.workers ++ [({} : Worker)] := by
  cases a
  case run    => exact .inr (.inr (Option.some.inj h ▸ rfl))
  case client => exact .inr (.inl (pcs_clientStep h))
  case work i input =>
    have ⟨w, s₁, w', hw, hs, he⟩ := step_work h
    exact .inl ⟨i, input, w, s₁, w', rfl, hw, hs, he⟩
  all_goals
    simp only [step] at h
    split at h <;> cases h
    exact .inr (.inl rfl)

end Bnio.Posix.Group
