import Bnio.Posix.Custody
import Bnio.Kqueue.Shutdown

-- The kqueue worker does what a worker may do: each of its steps is a sequence of moves, and at the
-- end of `finish` it holds nothing.
namespace Bnio.Kqueue

open Posix (Custody)

-- `finish` does not come to these positions: after the abort nothing is collected.
def Pc.sane : Pc → Bool
  | .collect .drain | .process .drain | .check .drain => false
  | _                                                 => true

namespace Worker

variable {w w' v : Worker} {i : Input} {a : WorkerAction} {site : Site} {new : List OpId}

-- What the native context holds.
def custody (w : Worker) : Custody OpId where
  sharedCpu := w.sharedCpu
  sharedIo  := w.sharedIo
  held      := w.ctx.inflight ++ w.localIo ++ w.tasks ++ w.ctx.localCpu ++ w.batch
  executed  := w.executed

theorem custody_total (h : w'.held.Perm (new ++ w.held)) :
    w'.custody.total = w.custody.total + new := by
  ext op
  have := h.count_eq op
  simp only [held, List.count_append] at this
  simp only [custody, Custody.total, Multiset.count_add, Multiset.coe_count, List.count_append]
  omega

theorem Resumes.custody (h : v.Resumes w') : w'.custody = v.custody := by
  obtain ⟨_, _, _, rfl, -, -⟩ := h
  rfl

theorem serves_receive (hcpu : w'.sharedCpu = w.sharedCpu) (hio : w'.sharedIo = w.sharedIo)
    (hx : w'.executed = w.executed) (ht : w'.custody.total = w.custody.total + new) :
    w.custody.Serves new w'.custody :=
  .receive hcpu hio (by simp only [custody, hx]) ht

-- `dispatch_event_tasks` keeps the tasks or spills all of them.
theorem dispatchEventTasks_serves (ht : w.dispatchEventTasks.custody.total = w.custody.total + new) :
    w.custody.Serves new w.dispatchEventTasks.custody := by
  have hpush : w.tasks.reverse.foldl (fun l op => op :: l) w.sharedCpu =
      w.tasks.reverse.reverse ++ w.sharedCpu := by simp
  have hle : (w.tasks.reverse : Multiset OpId) ≤ w.custody.held := Multiset.le_iff_count.mpr fun op => by
    simp only [custody, Multiset.coe_count, List.count_append, List.count_reverse]
    omega
  unfold dispatchEventTasks pushCpuTasks at ht ⊢
  simp only [Context.pushCpuList_eq] at ht ⊢
  split at ht
  case isTrue h =>
    rw [if_pos h]
    exact serves_receive rfl rfl rfl ht
  case isFalse h =>
    rw [if_neg h]
    split at ht
    case isTrue h =>
      rw [if_pos h]
      split at ht
      case isTrue h  => exact (if_pos h).symm ▸ serves_receive rfl rfl rfl ht
      case isFalse h => exact (if_neg h).symm ▸ serves_receive rfl rfl rfl ht
    case isFalse h =>
      rw [if_neg h]
      split at ht
      case isTrue h  => exact (if_pos h).symm ▸ serves_receive rfl rfl rfl ht
      case isFalse h =>
        rw [if_neg h]
        exact .after (m := .spill w.tasks.reverse) (if_pos hle) rfl hpush rfl rfl ht

theorem fetchCpuTask_serves (ht : w.fetchCpuTask.custody.total = w.custody.total + new) :
    w.custody.Serves new w.fetchCpuTask.custody := by
  unfold fetchCpuTask at ht ⊢
  split at ht
  case isTrue h  => exact (if_pos h).symm ▸ serves_receive rfl rfl rfl ht
  case isFalse h =>
    rw [if_neg h]
    exact .after (m := .takeCpu) rfl rfl rfl rfl rfl ht

theorem executeNext_serves (hb : w.batch ≠ [])
    (ht : (w.executeNext i).custody.total = w.custody.total + new) :
    w.custody.Serves new (w.executeNext i).custody := by
  obtain ⟨op, l, h⟩ := List.exists_cons_of_ne_nil hb
  obtain ⟨_, he⟩ := executeNext_eq (i := i) h
  rw [he] at ht ⊢
  have hop : op ∈ w.custody.held := by simp [custody, h]
  exact .after (m := .execute op) (if_pos hop) rfl rfl rfl rfl ht

-- The shared I/O queue is taken as a whole or left alone.
theorem consumeIoTasks_serves {env : OpId → Env}
    (ht : (w.consumeIoTasks env).1.custody.total = w.custody.total + new) :
    w.custody.Serves new (w.consumeIoTasks env).1.custody := by
  unfold consumeIoTasks popIo at ht ⊢
  split at ht
  case isTrue h =>
    rw [if_pos h]
    exact .after (m := .takeIo) rfl rfl rfl rfl rfl ht
  case isFalse h =>
    rw [if_neg h]
    by_cases hl : w.localIo ≠ []
    case pos =>
      simp only [if_pos hl] at ht ⊢
      exact serves_receive rfl rfl rfl ht
    case neg =>
      simp only [if_neg hl] at ht ⊢
      exact .after (m := .takeIo) rfl rfl rfl rfl rfl ht

theorem processStep_serves {env : OpId → Env}
    (ht : (w.processStep site env).custody.total = w.custody.total + new) :
    w.custody.Serves new (w.processStep site env).custody := by
  unfold processStep at ht ⊢
  split at ht
  case h_1 e es he =>
    rw [processEvent_eq] at ht ⊢
    exact serves_receive rfl rfl rfl ht
  case h_2 =>
    split at ht
    case isTrue h =>
      rw [if_pos h]
      rw [Resumes.afterCollect.custody] at ht ⊢
      exact serves_receive rfl rfl rfl ht
    case isFalse h =>
      rw [if_neg h]
      rw [Resumes.afterCollect.custody] at ht ⊢
      exact dispatchEventTasks_serves ht

theorem workStep_serves (hw : Working w.pc) (ht : (w.workStep i).custody.total = w.custody.total + new) :
    w.custody.Serves new (w.workStep i).custody := by
  have hsame : ∀ {v}, w.Resumes v → v.custody.total = w.custody.total + new →
      w.custody.Serves new v.custody := fun hv ht => by
    rw [hv.custody] at ht ⊢
    exact serves_receive rfl rfl rfl ht
  have htimers : ∀ {v}, { w with ctx := w.ctx.pushCpuList i.timers }.Resumes v →
      v.custody.total = w.custody.total + new → w.custody.Serves new v.custody := fun hv ht => by
    rw [hv.custody, Context.pushCpuList_eq] at ht
    rw [hv.custody, Context.pushCpuList_eq]
    exact serves_receive rfl rfl rfl ht
  unfold workStep at ht ⊢
  cases hp : w.pc <;> simp only [hp] at ht ⊢
  case collect site => exact serves_receive rfl rfl rfl ht
  case block t => exact serves_receive rfl rfl rfl ht
  case process site => exact processStep_serves ht
  case cpu site =>
    split at ht
    case isTrue h  => exact (if_pos h).symm ▸ hsame .afterCpu ht
    case isFalse h => exact (if_neg h).symm ▸ fetchCpuTask_serves ht
  case exec site =>
    split at ht
    case isTrue h  => exact (if_pos h).symm ▸ hsame .afterCpu ht
    case isFalse h => exact (if_neg h).symm ▸ executeNext_serves h ht
  case timers site =>
    split at ht
    case isTrue h  => exact (if_pos h).symm ▸ htimers .afterTimers ht
    case isFalse h => exact (if_neg h).symm ▸ hsame .afterTimers ht
  case io site =>
    rw [Resumes.afterIo.custody] at ht ⊢
    exact consumeIoTasks_serves ht
  case check site => exact hsame .afterCheck ht
  case resume =>
    split at ht
    case isTrue h  => exact (if_pos h).symm ▸ hsame .toFinish ht
    case isFalse h => exact (if_neg h).symm ▸ hsame .toReady ht
  case fetch =>
    split at ht
    case isTrue h  => exact (if_pos h).symm ▸ serves_receive rfl rfl rfl ht
    case isFalse h =>
      rw [if_neg h]
      split at ht
      case isTrue h  => exact (if_pos h).symm ▸ htimers (.goto (by simp) (by simp)) ht
      case isFalse h => exact (if_neg h).symm ▸ serves_receive rfl rfl rfl ht
  case abort => exact .after (m := .takeIo) rfl rfl rfl rfl rfl ht
  all_goals simp [hp, Working] at hw

theorem Kept.serves (h : w.Kept) (hs : Worker.step w (.work i) = some w') :
    w.custody.Serves (w.publishes (.work i)) w'.custody := by
  obtain ⟨-, hheld⟩ := h.next hs
  obtain ⟨hg, he⟩ := Option.ite_none_right_eq_some.mp hs
  cases Option.some.inj he
  exact workStep_serves hg.1 (custody_total hheld)

-- What everything but the worker does leaves alone what the worker holds.
theorem outside_custody (hs : step w a = some w') (hw : ∀ i, a ≠ .work i) :
    w'.custody.held = w.custody.held := by
  cases a
  case work i => exact absurd rfl (hw i)
  all_goals
    simp only [step] at hs
    repeat' split at hs
    all_goals cases hs
    all_goals rfl

section Sane

-- The next position is reached by `finish`, and it is behind the abort only if the site is.
def Proceeds (site : Site) (w : Worker) : Prop :=
  w.pc.sane ∧ (site ≠ .drain → w.pc.aborted = false)

theorem toReady_proceeds : w.toReady.Proceeds site := by
  unfold toReady
  simp only [Proceeds]
  split <;> simp [Pc.sane, Pc.aborted]

theorem toSpin_proceeds {round : Nat} : (w.toSpin round).Proceeds site := by
  unfold toSpin
  split <;> simp [Proceeds, goto, Pc.sane, Pc.aborted]

theorem afterCollect_proceeds {found : Bool} : (w.afterCollect found site).Proceeds site := by
  cases site <;> simp only [afterCollect] <;> (try split)
  all_goals first | exact toReady_proceeds | simp [Proceeds, goto, Pc.sane, Pc.aborted]

theorem afterCpu_proceeds {ran : Bool} : (w.afterCpu ran site).Proceeds site := by
  cases site <;> simp only [afterCpu] <;> split
  all_goals first | exact toReady_proceeds | simp [Proceeds, toFinish, goto, Pc.sane, Pc.aborted]

theorem afterTimers_proceeds {got : Bool} : (w.afterTimers got site).Proceeds site := by
  cases site <;> simp only [afterTimers] <;> (try split)
  all_goals first | exact toReady_proceeds | simp [Proceeds, goto, Pc.sane, Pc.aborted]

theorem afterIo_proceeds {found : Bool} : (w.afterIo found site).Proceeds site := by
  cases site <;> simp only [afterIo] <;> (try split)
  all_goals first | exact toReady_proceeds | simp [Proceeds, toFinish, goto, Pc.sane, Pc.aborted]

theorem afterCheck_proceeds {finish : Bool} : (w.afterCheck finish site).Proceeds site := by
  cases site <;> simp only [afterCheck] <;> (try split)
  all_goals first | exact toSpin_proceeds | simp [Proceeds, toFinish, goto, Pc.sane, Pc.aborted]

-- Before `finish` the worker does not get behind the abort.
theorem workStep_sane (h : w.pc.sane) :
    (w.workStep i).pc.sane ∧ (w.pc.tearing = false → (w.workStep i).pc.aborted = false) := by
  have hsite : ∀ {site} {v : Worker}, v.Proceeds site → (w.pc.tearing = false → site ≠ .drain) →
      v.pc.sane ∧ (w.pc.tearing = false → v.pc.aborted = false) := fun hv hne =>
    ⟨hv.1, fun ht => hv.2 (hne ht)⟩
  have hdrain : ∀ {site}, Site.tearing site = false → site ≠ .drain := by
    rintro site ht rfl
    cases ht
  unfold workStep
  cases hp : w.pc <;> rw [hp] at h <;> simp only [hp] at hsite ⊢
  case collect site => cases site <;> simp_all [goto, Pc.sane, Pc.aborted]
  case process site =>
    have hne : site ≠ .drain := fun he => by simp [he, Pc.sane] at h
    unfold processStep
    split
    case h_1 =>
      rw [processEvent_eq]
      simp [hp, h, Pc.aborted]
    case h_2 => split <;> exact hsite afterCollect_proceeds fun _ => hne
  case cpu site =>
    split
    case isTrue  => exact hsite afterCpu_proceeds hdrain
    case isFalse => cases site <;> simp [goto, Pc.sane, Pc.aborted, Pc.tearing, Site.tearing]
  case exec site =>
    split
    case isTrue    => exact hsite afterCpu_proceeds hdrain
    case isFalse hb =>
      obtain ⟨op, l, hl⟩ := List.exists_cons_of_ne_nil hb
      obtain ⟨_, he⟩ := executeNext_eq (i := i) hl
      rw [he]
      cases site <;> simp [hp, Pc.sane, Pc.aborted, Pc.tearing, Site.tearing]
  case timers site => split <;> exact hsite afterTimers_proceeds hdrain
  case io site => exact hsite afterIo_proceeds hdrain
  case check site =>
    have hne : site ≠ .drain := fun he => by simp [he, Pc.sane] at h
    exact hsite afterCheck_proceeds fun _ => hne
  case resume =>
    split
    case isTrue  => simp [toFinish, goto, Pc.sane, Pc.aborted]
    case isFalse =>
      have hr : w.toReady.Proceeds .ready := toReady_proceeds
      exact hsite hr (by simp)
  case fetch =>
    split
    case isTrue  => simp [goto, Pc.sane, Pc.aborted]
    case isFalse => split <;> simp [goto, Pc.sane, Pc.aborted]
  all_goals simp [goto, Pc.sane, Pc.aborted, Pc.tearing]

end Sane

-- Nothing gets inflight after the abort, and the last look at the I/O queues comes after one at the CPU
-- queues that has found nothing.
structure Closing (w : Worker) : Prop where
  kept : w.Kept
  sane : w.pc.sane
  inflight : w.pc.aborted → w.ctx.inflight = []
  last : w.pc = .io .drain → w.ctx.localCpu = []
  finished : w.pc = .finished → w.custody.held = 0

theorem init_closing (options : Options) (hasShared : Bool) : (init options hasShared).Closing :=
  ⟨init_kept options hasShared, rfl, by simp [init, Pc.aborted], by simp [init], by simp [init]⟩

theorem Ending.closing (h : w.Ending) (hk : w.Kept) (hs : w.pc.sane) : w.Closing where
  kept := hk
  sane := hs
  inflight := h.inflight
  last hp := (h.last hp).1
  finished hp := by
    have hq := h.finished hp
    simp only [queued, List.append_eq_nil_iff] at hq
    simp [custody, hq]

theorem Closing.consumeIo (h : w.Closing) (hp : w.pc = .io .drain) (hk : (w.workStep i).Kept) :
    (w.workStep i).Closing := by
  obtain ⟨-, ht, hb⟩ : w.events = [] ∧ w.tasks = [] ∧ w.batch = [] := by
    simpa [Tidy, hp] using h.kept.tidy
  have hlocal := h.last hp
  have hi := h.inflight (by rw [hp]; rfl)
  have hsane := (workStep_sane (i := i) h.sane).1
  obtain ⟨s, l, q, he, -, hnot⟩ := w.consumeIoTasks_eq i.env
  simp only [workStep, hp] at hk hsane ⊢
  cases hf : (w.consumeIoTasks i.env).2 <;> rw [hf] at hk hsane
  case true  => exact (Ending.of_not_aborted rfl).closing hk hsane
  case false =>
    obtain ⟨-, -, hs, hl, hq⟩ := hnot hf
    rw [he, hs, hl, hq] at hk ⊢
    refine ⟨hk, rfl, fun _ => hi, by simp [afterIo], fun _ => ?_⟩
    simp [custody, afterIo, hi, ht, hb, hlocal]

theorem outside_pc (hs : step w a = some w') (hw : ∀ i, a ≠ .work i) :
    (w'.pc = w.pc ∧ w'.ctx.inflight = w.ctx.inflight ∧ w'.ctx.localCpu = w.ctx.localCpu) ∨
      w'.pc.sane ∧ w'.pc.aborted = false := by
  cases a
  case work i => exact absurd rfl (hw i)
  case run =>
    simp only [step, Option.ite_none_right_eq_some, Option.some.injEq] at hs
    obtain ⟨-, rfl⟩ := hs
    have hr : w.toReady.Proceeds .ready := toReady_proceeds
    exact .inr ⟨hr.1, hr.2 (by simp)⟩
  case queueExit =>
    simp only [step] at hs
    split at hs <;> cases hs
    all_goals exact .inr ⟨rfl, rfl⟩
  all_goals
    simp only [step] at hs
    repeat' split at hs
    all_goals cases hs
    all_goals exact .inl ⟨rfl, rfl, rfl⟩

theorem Closing.step (h : w.Closing) (hs : Worker.step w a = some w') : w'.Closing := by
  obtain ⟨hk, -⟩ := h.kept.next hs
  by_cases hw : ∃ i, a = .work i
  case pos =>
    obtain ⟨i, rfl⟩ := hw
    obtain ⟨hg, he⟩ := Option.ite_none_right_eq_some.mp hs
    cases Option.some.inj he
    obtain ⟨hsane, hnot⟩ := workStep_sane (i := i) h.sane
    by_cases ht : w.pc.tearing
    case neg => exact (Ending.of_not_aborted (hnot (by simpa using ht))).closing hk hsane
    case pos =>
      have hfin : w.pc ≠ .finished := fun hp => by simp [hp, Working] at hg
      by_cases hio : w.pc = .io .drain
      case pos => exact h.consumeIo hio hk
      case neg =>
        have hend : w.Ending := ⟨h.inflight, fun hp => absurd hp hio, fun hp => absurd hp hfin⟩
        exact (hend.work h.kept ht hfin).closing hk hsane
  case neg =>
    have hw : ∀ i, a ≠ .work i := fun i ha => hw ⟨i, ha⟩
    obtain ⟨hpc, hi, hl⟩ | ⟨hsane, hnot⟩ := outside_pc hs hw
    · exact ⟨hk, hpc ▸ h.sane, fun ha => hi.trans (h.inflight (hpc ▸ ha)),
        fun hp => hl.trans (h.last (hpc ▸ hp)),
        fun hp => (outside_custody hs hw).trans (h.finished (hpc ▸ hp))⟩
    · exact (Ending.of_not_aborted hnot).closing hk hsane

end Worker

end Bnio.Kqueue
