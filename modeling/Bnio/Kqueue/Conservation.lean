import Bnio.Kqueue.RunLoop
import Bnio.Kqueue.Custody

namespace Bnio.Kqueue

namespace Context

variable {env : OpId → Env} {s : Context} {op : OpId} {l : List OpId}

theorem pushCpuList_eq (s : Context) (l : List OpId) :
    s.pushCpuList l = { s with localCpu := l.reverse ++ s.localCpu } := by
  induction l generalizing s
  case nil          => rfl
  case cons op l hi =>
    rw [pushCpuList, List.foldl_cons]
    exact (hi _).trans (by simp [pushCpu])

theorem Threaded.stopList (h : s.Threaded []) : (s.drainIoListCompleteStopped l).Threaded [] ∧
    (s.drainIoListCompleteStopped l).inflight = s.inflight ∧
    (s.drainIoListCompleteStopped l).localCpu = l.reverse ++ s.localCpu := by
  induction l generalizing s
  case nil          => exact ⟨h, rfl, rfl⟩
  case cons op l hi =>
    have hs : (s.stopOperation op).Threaded [] :=
      (h.setOp (o := { s.ops op with result := -ecanceled, completion := .stopped }) op rfl).pushCpu
    have ⟨h₁, h₂, h₃⟩ := hi hs
    refine ⟨h₁, h₂, h₃.trans ?_⟩
    simp [stopOperation, Context.pushCpu, completeSubmitStopped, Context.setOp]

-- The operations are taken one after the other; each of them leaves the list for good.
theorem Threaded.consumeList (env : OpId → Env) (h : s.Threaded []) (hd : (l ++ s.inflight).Nodup) :
    let s' := l.foldl (fun s op => s.consumeOperation (env op) op) s
    ∃ M, s'.Threaded [] ∧ (l ++ s.inflight).Perm (M ++ s'.inflight) ∧
      s'.localCpu.Perm (M ++ s.localCpu) := by
  induction l generalizing s
  case nil          => exact ⟨[], h, .refl _, .refl _⟩
  case cons op l hi =>
    have ⟨hop, hd'⟩ := List.nodup_cons.mp hd
    have ⟨M, h₁, hin, hl⟩ := h.consume (env op) op fun hm => hop (List.mem_append_right _ hm)
    simp only [List.foldl_cons]
    generalize s.consumeOperation (env op) op = s₁ at h₁ hin hl ⊢
    have hp : (op :: l ++ s.inflight).Perm (M ++ (l ++ s₁.inflight)) := calc op :: l ++ s.inflight
      _ |>.Perm (l ++ op :: s.inflight) := List.perm_middle.symm
      _ |>.Perm (l ++ (M ++ s₁.inflight)) := hin.append_left l
      _ |>.Perm (M ++ (l ++ s₁.inflight)) := by
        simp only [← List.append_assoc]
        exact List.perm_append_comm.append_right _
    have ⟨M', h₂, hin', hl'⟩ := hi h₁ (List.nodup_append.mp (hp.nodup_iff.mp hd)).2.1
    refine ⟨M ++ M', h₂, ?_, ?_⟩
    · rw [List.append_assoc]
      exact hp.trans (hin'.append_left M)
    · refine hl'.trans <| (hl.append_left M').trans ?_
      simp only [← List.append_assoc]
      exact List.perm_append_comm.append_right _

end Context

namespace Worker

variable {w w' : Worker} {a : WorkerAction} {i : Input} {site : Site}

-- The operations that wait to be taken or wait for the kernel, and those that have been pushed to a
-- CPU queue; `tasks` is the list `collect_event_tasks` is about to push.
def waiting (w : Worker) : List OpId :=
  w.ctx.inflight ++ w.localIo ++ w.sharedIo

def pushed (w : Worker) : List OpId :=
  w.tasks ++ w.ctx.localCpu ++ w.sharedCpu ++ w.batch ++ w.executed

theorem held_eq : w.held = w.waiting ++ w.pushed := by
  simp [held, waiting, pushed]

-- What a step publishes to the I/O queues and to the CPU queues.
def publishesIo (w : Worker) : WorkerAction → List OpId
  | .publishIo op _ => [op]
  | .work i         =>
    match w.pc with
    | .exec _ => if w.batch = [] then [] else i.publishedIo.map Prod.fst
    | _       => []
  | _               => []

def publishesCpu (w : Worker) : WorkerAction → List OpId
  | .publishCpu op => [op]
  | .work i        =>
    match w.pc with
    | .exec _            => if w.batch = [] then [] else i.publishedCpu
    | .timers _ | .fetch => if i.fetched then i.timers else []
    | _                  => []
  | _              => []

def publishes (w : Worker) (a : WorkerAction) : List OpId :=
  w.publishesIo a ++ w.publishesCpu a

-- `events` and `tasks` are used while a batch of events is processed, `batch` while a list of tasks is
-- executed.
def Tidy (w : Worker) : Prop :=
  match w.pc with
  | .process _ => w.batch = []
  | .exec _    => w.events = [] ∧ w.tasks = []
  | _          => w.events = [] ∧ w.tasks = [] ∧ w.batch = []

structure Kept (w : Worker) : Prop where
  threaded : w.ctx.Threaded []
  awaits : w.ctx.Awaits w.events
  tidy : w.Tidy
  nodup : w.held.Nodup

-- `w'` is `w` after `newIo` and `newCpu` have been published and the operations of a list have been
-- pushed to the CPU queues.
structure Advances (w w' : Worker) (newIo newCpu : List OpId) : Prop where
  threaded : w'.ctx.Threaded []
  awaits : w'.ctx.Awaits w'.events
  tidy : w'.Tidy
  moved : ∃ M, (newIo ++ w.waiting).Perm (M ++ w'.waiting) ∧
    w'.pushed.Perm (M ++ (newCpu ++ w.pushed))

-- `w'` differs from `w` by where it goes on, and that is not in the middle of a list.
def Resumes (w w' : Worker) : Prop :=
  ∃ pc b st, w' = { w with pc, localTaskBudget := b, state := st } ∧
    (∀ site, pc ≠ .process site) ∧ ∀ site, pc ≠ .exec site

namespace Resumes

theorem goto {pc : Pc} (h : ∀ site, pc ≠ .process site) (h' : ∀ site, pc ≠ .exec site) :
    w.Resumes (w.goto pc) :=
  ⟨pc, _, _, rfl, h, h'⟩

theorem toReady : w.Resumes w.toReady := by
  refine ⟨_, _, _, rfl, fun site => ?_, fun site => ?_⟩ <;> split <;> simp

theorem toFinish : w.Resumes w.toFinish :=
  goto (by simp) (by simp)

theorem toSpin {round : Nat} : w.Resumes (w.toSpin round) := by
  unfold Worker.toSpin
  split
  all_goals exact goto (by simp) (by simp)

theorem afterCollect {found : Bool} : w.Resumes (w.afterCollect found site) := by
  unfold Worker.afterCollect
  split
  all_goals first | split | skip
  all_goals first | exact toReady | exact goto (by simp) (by simp)

theorem afterCpu {ran : Bool} : w.Resumes (w.afterCpu ran site) := by
  unfold Worker.afterCpu
  split
  all_goals split
  all_goals first | exact toReady | exact goto (by simp) (by simp)

theorem afterTimers {got : Bool} : w.Resumes (w.afterTimers got site) := by
  unfold Worker.afterTimers
  split
  all_goals first | split | skip
  all_goals first | exact toReady | exact goto (by simp) (by simp)

theorem afterIo {found : Bool} : w.Resumes (w.afterIo found site) := by
  unfold Worker.afterIo
  split
  all_goals first | split | skip
  all_goals first
    | exact toReady | exact goto (by simp) (by simp) | exact toFinish
    | exact ⟨_, _, _, rfl, by simp, by simp⟩

theorem afterCheck {finish : Bool} : w.Resumes (w.afterCheck finish site) := by
  unfold Worker.afterCheck
  split
  all_goals first | split | skip
  all_goals first | exact toSpin | exact goto (by simp) (by simp)

theorem advances {v : Worker} {newIo newCpu : List OpId} (h : v.Resumes w')
    (ht : v.ctx.Threaded []) (he : v.events = []) (hk : v.tasks = []) (hb : v.batch = [])
    (hm : ∃ M, (newIo ++ w.waiting).Perm (M ++ v.waiting) ∧
      v.pushed.Perm (M ++ (newCpu ++ w.pushed))) : w.Advances w' newIo newCpu := by
  obtain ⟨pc, b, st, rfl, hp, hx⟩ := h
  refine ⟨ht, ?_, ?_, hm⟩
  · rw [show _ = [] from he]
    exact ⟨by simp, .nil⟩
  · unfold Tidy
    split
    case h_1 site hpc => exact absurd hpc (hp site)
    case h_2 site hpc => exact absurd hpc (hx site)
    case h_3          => exact ⟨he, hk, hb⟩

end Resumes

-- Lists of operations that hold the same operations, by counting each of them.
theorem perm_of_count {l l' : List OpId} (h : ∀ op, l.count op = l'.count op) : l.Perm l' :=
  List.perm_iff_count.mpr h

theorem Kept.publishLocalIo (ps : List (OpId × Request)) (h : w.ctx.Threaded [])
    (hp : ∀ p ∈ ps, p.1 ∉ w.ctx.inflight) :
    ∃ s : Context, ps.foldl Worker.publishLocalIo w =
        { w with ctx := s, localIo := (ps.map Prod.fst).reverse ++ w.localIo } ∧
      s.Threaded [] ∧ s.inflight = w.ctx.inflight ∧ s.localCpu = w.ctx.localCpu := by
  induction ps generalizing w
  case nil          => exact ⟨w.ctx, rfl, h, rfl, rfl⟩
  case cons p ps hi =>
    have hc : (w.ctx.ops p.1).registrationCount = 0 := h.idle (hp p (by simp)) (by simp)
    have ⟨s, h₁, h₂, h₃, h₄⟩ := hi (w := w.publishLocalIo p) (h.setOp p.1 hc.symm) fun q hq =>
      hp q (by simp [hq])
    refine ⟨s, ?_, h₂, h₃, h₄⟩
    rw [List.foldl_cons, h₁]
    simp [Worker.publishLocalIo]

theorem Kept.execute {op : OpId} {l : List OpId} (h : w.Kept) (hf : w.Fresh (w.started i))
    (hpc : w.pc = .exec site) (hb : w.batch = op :: l) :
    w.Advances (w.executeNext i) (i.publishedIo.map Prod.fst) i.publishedCpu := by
  have ⟨he, ht⟩ : w.events = [] ∧ w.tasks = [] := by simpa [Tidy, hpc] using h.tidy
  have hfresh : ∀ p ∈ i.publishedIo, p.1 ∉ w.ctx.inflight := fun p hp hin => by
    refine hf.2 p.1 ?_ (by simp [held, hin])
    simp only [started, hpc, List.mem_append, List.mem_map]
    exact .inr ⟨p, hp, rfl⟩
  have ⟨s, hs, h₁, h₂, h₃⟩ := Kept.publishLocalIo i.publishedIo
    (w := { w with batch := l, executed := op :: w.executed, ctx := w.ctx.pushCpuList i.publishedCpu })
    (by rw [Context.pushCpuList_eq]; exact h.threaded.congr rfl rfl (fun _ => rfl) rfl)
    (by rw [Context.pushCpuList_eq]; exact hfresh)
  have hx : w.executeNext i = { w with
      batch := l, executed := op :: w.executed, ctx := s,
      localIo := (i.publishedIo.map Prod.fst).reverse ++ w.localIo } := by
    simp only [executeNext, hb]
    exact hs
  rw [Context.pushCpuList_eq] at h₂ h₃
  rw [hx]
  refine ⟨h₁, ?_, ?_, [], ?_, ?_⟩
  · rw [he]
    exact ⟨by simp, .nil⟩
  · simp only [Tidy, hpc]
    exact ⟨he, ht⟩
  · refine perm_of_count fun o => ?_
    simp only [waiting, h₂, List.count_append, List.count_reverse, List.count_nil]
    omega
  · refine perm_of_count fun o => ?_
    simp only [pushed, h₃, hb, ht, List.count_append, List.count_reverse, List.count_nil,
      List.count_cons]
    omega

theorem Kept.consume (h : w.Kept) (hpc : w.pc = .io site) :
    w.Advances (w.workStep i) [] [] := by
  have ⟨he, ht, hb⟩ : w.events = [] ∧ w.tasks = [] ∧ w.batch = [] := by
    simpa [Tidy, hpc] using h.tidy
  have hd : (w.ctx.inflight ++ w.localIo ++ w.sharedIo).Nodup :=
    (List.nodup_append.mp (held_eq ▸ h.nodup)).1
  simp only [workStep, hpc, consumeIoTasks]
  split
  case isTrue =>
    have ⟨h₁, h₂, h₃⟩ := h.threaded.stopList (l := w.localIo)
    have ⟨h₄, h₅, h₆⟩ := h₁.stopList (l := w.sharedIo)
    refine Resumes.afterIo.advances h₄ he ht hb ⟨w.localIo ++ w.sharedIo, ?_, ?_⟩
    · refine perm_of_count fun o => ?_
      simp only [waiting, stopQueuedIo, h₅, h₂, List.count_append, List.count_nil]
      omega
    · refine perm_of_count fun o => ?_
      simp only [pushed, stopQueuedIo, h₆, h₃, List.count_append, List.count_nil, List.count_reverse]
      omega
  case isFalse =>
    -- one of the two queues is taken as a whole
    have hpop : ∃ v l, w.popIo = (v, l) ∧ v.ctx = w.ctx ∧ v.events = [] ∧ v.tasks = [] ∧ v.batch = [] ∧
        v.pushed = w.pushed ∧ (l ++ v.waiting).Perm w.waiting := by
      unfold popIo
      split
      · refine ⟨_, _, rfl, rfl, he, ht, hb, rfl, perm_of_count fun o => ?_⟩
        simp only [waiting, List.count_append, List.count_nil]
        omega
      · refine ⟨_, _, rfl, rfl, he, ht, hb, rfl, perm_of_count fun o => ?_⟩
        simp only [waiting, List.count_append, List.count_nil]
        omega
    obtain ⟨v, l, hv, hc, he, ht, hb, hp, hw⟩ := hpop
    rw [hv]
    have hnd : (l.reverse ++ v.ctx.inflight).Nodup := by
      have hsub := hw.symm.nodup_iff.mp hd
      have hl : (l ++ v.ctx.inflight).Nodup := by
        rw [waiting, List.append_assoc, ← List.append_assoc] at hsub
        exact (List.nodup_append.mp hsub).1
      exact (List.reverse_perm l).append_right _ |>.nodup_iff.mpr hl
    have ⟨M, h₁, h₂, h₃⟩ := (hc ▸ h.threaded).consumeList i.env hnd
    refine Resumes.afterIo.advances h₁ he ht hb ⟨M, perm_of_count fun o => ?_, perm_of_count fun o => ?_⟩
    · have := hw.count_eq o
      have := h₂.count_eq o
      simp only [waiting, List.count_append, List.count_nil, List.count_reverse] at *
      omega
    · have := congrArg (List.count o) hp
      have := h₃.count_eq o
      simp only [pushed, List.count_append, List.count_nil] at *
      omega

theorem Kept.abort (h : w.Kept) (hpc : w.pc = .abort) : w.Advances (w.workStep i) [] [] := by
  have ⟨he, ht, hb⟩ : w.events = [] ∧ w.tasks = [] ∧ w.batch = [] := by
    simpa [Tidy, hpc] using h.tidy
  have ⟨h₀, hi, hl⟩ := h.threaded.abort
  have ⟨h₁, h₂, h₃⟩ := h₀.stopList (l := w.localIo)
  have ⟨h₄, h₅, h₆⟩ := h₁.stopList (l := w.sharedIo)
  simp only [workStep, hpc]
  refine Resumes.goto (by simp) (by simp) |>.advances (v := w.abortInflightIo) h₄ he ht hb
    ⟨w.waiting, perm_of_count fun o => ?_, perm_of_count fun o => ?_⟩
  · simp only [waiting, abortInflightIo, stopQueuedIo, h₅, h₂, hi, List.count_append, List.count_nil]
    omega
  · simp only [waiting, pushed, abortInflightIo, stopQueuedIo, h₆, h₃, hl, List.count_append,
      List.count_nil, List.count_reverse]
    omega

theorem dispatchEventTasks_eq (w : Worker) : ∃ s b l, w.dispatchEventTasks =
      { w with ctx := { w.ctx with localCpu := s }, sharedCpu := l, localTaskBudget := b, tasks := [] } ∧
    (s ++ l).Perm (w.tasks ++ (w.ctx.localCpu ++ w.sharedCpu)) := by
  have hpush : ∀ l : List OpId, l.reverse.foldl (fun l op => op :: l) w.sharedCpu = l ++ w.sharedCpu := by
    intro l
    induction l
    case nil          => rfl
    case cons op l hi => simp [hi]
  have hlocal : (w.tasks ++ w.ctx.localCpu ++ w.sharedCpu).Perm
      (w.tasks ++ (w.ctx.localCpu ++ w.sharedCpu)) := .of_eq (List.append_assoc ..)
  have hshared : (w.ctx.localCpu ++ (w.tasks ++ w.sharedCpu)).Perm
      (w.tasks ++ (w.ctx.localCpu ++ w.sharedCpu)) := by
    simp only [← List.append_assoc]
    exact List.perm_append_comm.append_right _
  simp only [dispatchEventTasks, pushCpuTasks, Context.pushCpuList_eq, List.reverse_reverse, hpush]
  split
  · exact ⟨_, _, _, rfl, hlocal⟩
  · split
    · split <;> exact ⟨_, _, _, rfl, hlocal⟩
    · split
      · exact ⟨_, _, _, rfl, hlocal⟩
      · exact ⟨_, _, _, rfl, hshared⟩

theorem processEvent_eq (w : Worker) (env : Env) (e : Event) : w.processEvent env e = { w with
    ctx := (w.ctx.processEvent env e).1
    tasks := Context.completedTask e (w.ctx.processEvent env e).2 ++ w.tasks } := by
  simp only [processEvent, Context.completedTask]
  generalize w.ctx.processEvent env e = r
  cases r.2 <;> cases e.udata <;> rfl

theorem Kept.process (h : w.Kept) (hpc : w.pc = .process site) :
    w.Advances (w.workStep i) [] [] := by
  have hb : w.batch = [] := by simpa [Tidy, hpc] using h.tidy
  have hstep : w.workStep i = w.processStep site i.env := by simp only [workStep, hpc]
  rw [hstep, processStep]
  split
  case h_1 e es he =>
    have ⟨F, h₁, h₂, h₃, h₄⟩ := h.threaded.processEvent (e.udata.op?.elim {} i.env) (he ▸ h.awaits)
    rw [processEvent_eq]
    simp only
    generalize w.ctx.processEvent (e.udata.op?.elim {} i.env) e = r at h₁ h₂ h₃ h₄ ⊢
    refine ⟨h₁, h₂, by simpa [Tidy, hpc] using hb, Context.completedTask e r.2 ++ F, ?_, ?_⟩
    · refine perm_of_count fun o => ?_
      have := h₃.count_eq o
      simp only [waiting, List.count_append, List.count_nil] at *
      omega
    · refine perm_of_count fun o => ?_
      have := h₄.count_eq o
      simp only [pushed, List.count_append, List.count_nil] at *
      omega
  case h_2 he =>
    split
    case isTrue ht =>
      exact Resumes.afterCollect.advances h.threaded he ht hb ⟨[], .refl _, .refl _⟩
    case isFalse =>
      have ⟨s, b, l, hd, hp⟩ := w.dispatchEventTasks_eq
      rw [hd]
      refine Resumes.afterCollect.advances (h.threaded.congr rfl rfl (fun _ => rfl) rfl) he rfl hb
        ⟨[], .refl _, perm_of_count fun o => ?_⟩
      have := hp.count_eq o
      simp only [pushed, List.count_append, List.count_nil] at *
      omega

theorem Kept.fetchCpu (h : w.Kept) (hpc : w.pc = .cpu site) : w.Advances (w.workStep i) [] [] := by
  have ⟨he, ht, hb⟩ : w.events = [] ∧ w.tasks = [] ∧ w.batch = [] := by
    simpa [Tidy, hpc] using h.tidy
  have haw : ∀ s : Context, s.Awaits w.events := fun s => he ▸ ⟨by simp, .nil⟩
  simp only [workStep, hpc]
  split
  case isTrue  => exact Resumes.afterCpu.advances h.threaded he ht hb ⟨[], .refl _, .refl _⟩
  case isFalse =>
    unfold fetchCpuTask
    split
    · refine ⟨h.threaded.congr rfl rfl (fun _ => rfl) rfl, haw _, ⟨he, ht⟩, [], .refl _,
        perm_of_count fun o => ?_⟩
      simp only [goto, pushed, hb, List.count_append, List.count_nil, List.count_reverse]
      omega
    · refine ⟨h.threaded, haw _, ⟨he, ht⟩, [], .refl _, perm_of_count fun o => ?_⟩
      simp only [goto, pushed, hb, List.count_append, List.count_nil, List.count_reverse]
      omega

-- Timers whose wait is over are pushed by the fetch that has found them.
theorem Kept.pushTimers (ops : List OpId) (h : w.Kept) (he : w.events = []) (ht : w.tasks = [])
    (hb : w.batch = []) (hr : { w with ctx := w.ctx.pushCpuList ops }.Resumes w') :
    w.Advances w' [] ops := by
  rw [Context.pushCpuList_eq] at hr
  refine hr.advances (h.threaded.congr rfl rfl (fun _ => rfl) rfl) he ht hb
    ⟨[], .refl _, perm_of_count fun o => ?_⟩
  simp only [pushed, List.count_append, List.count_nil, List.count_reverse]
  omega

theorem Kept.work (h : w.Kept) (hf : w.Fresh (w.started i)) (hr : w.Reports i.events)
    (hw : Working w.pc) :
    w.Advances (w.workStep i) (w.publishesIo (.work i)) (w.publishesCpu (.work i)) := by
  have hstay : ∀ {v}, w.Resumes v → w.events = [] ∧ w.tasks = [] ∧ w.batch = [] →
      w.Advances v [] [] := fun hv ⟨he, ht, hb⟩ =>
    hv.advances h.threaded he ht hb ⟨[], .refl _, .refl _⟩
  have htidy := h.tidy
  simp only [Tidy] at htidy
  simp only [publishesIo, publishesCpu]
  cases hpc : w.pc <;> simp only [hpc] at htidy hw
  case collect site =>
    have hev := h.threaded.awaits (by simpa [Reports, hpc] using hr : _ ∧ _).2
    simp only [workStep, hpc]
    exact ⟨h.threaded, hev, htidy.2.2, [], .refl _, .refl _⟩
  case block t =>
    have hev := h.threaded.awaits (by simpa [Reports, hpc] using hr : _ ∧ _).2
    simp only [workStep, hpc]
    exact ⟨h.threaded, hev, htidy.2.2, [], .refl _, .refl _⟩
  case process => exact h.process hpc
  case cpu     => exact h.fetchCpu hpc
  case io      => exact h.consume hpc
  case abort   => exact h.abort hpc
  case exec site =>
    cases hb : w.batch
    case nil =>
      simp only [workStep, hpc, hb, if_true]
      exact hstay .afterCpu ⟨htidy.1, htidy.2, hb⟩
    case cons op l =>
      simpa [workStep, hpc, hb] using h.execute hf hpc hb
  case timers site =>
    simp only [workStep, hpc]
    split
    case isTrue ht =>
      rw [if_pos ht.1]
      exact h.pushTimers _ htidy.1 htidy.2.1 htidy.2.2 .afterTimers
    case isFalse ht =>
      have hnil : (if i.fetched = true then i.timers else []) = [] := by
        split
        case isTrue hf => exact not_not.mp fun hne => ht ⟨hf, hne⟩
        case isFalse   => rfl
      rw [hnil]
      exact hstay .afterTimers htidy
  case fetch =>
    simp only [workStep, hpc]
    cases hf : i.fetched
    case false => exact hstay (.goto (by simp) (by simp)) htidy
    case true  =>
      by_cases ht : i.timers = []
      case pos => simpa [ht] using hstay (.goto (by simp) (by simp)) htidy
      case neg =>
        have hgo : Resumes { w with ctx := w.ctx.pushCpuList i.timers } (goto _ .resume) :=
          .goto (by simp) (by simp)
        have hp := h.pushTimers i.timers htidy.1 htidy.2.1 htidy.2.2 hgo
        simpa [ht, hpc] using hp
  case check site =>
    simp only [workStep, hpc]
    exact hstay .afterCheck htidy
  case resume =>
    simp only [workStep, hpc]
    split
    · exact hstay .toFinish htidy
    · exact hstay .toReady htidy
  all_goals simp [Working] at hw

theorem publishes_subset_started : w.publishes (.work i) ⊆ w.started i ∧
    ((w.started i).Nodup → (w.publishes (.work i)).Nodup) := by
  simp only [publishes, publishesIo, publishesCpu, started]
  cases w.pc <;> dsimp only
  case exec =>
    by_cases hb : w.batch = []
    case pos => simp [hb]
    case neg =>
      simp only [hb, if_false]
      exact ⟨by simp, List.perm_append_comm.nodup_iff.mp⟩
  case timers => by_cases hf : i.fetched <;> simp [hf]
  case fetch  => by_cases hf : i.fetched <;> simp [hf]
  all_goals simp

theorem Kept.step (h : w.Kept) (hs : Worker.step w a = some w') :
    w.Advances w' (w.publishesIo a) (w.publishesCpu a) ∧ w.Fresh (w.publishes a) := by
  have hnil : w.Fresh [] := ⟨.nil, by simp⟩
  have hstay : ∀ {v}, w.Resumes v → w.events = [] ∧ w.tasks = [] ∧ w.batch = [] →
      w.Advances v [] [] ∧ w.Fresh [] := fun hv hn =>
    ⟨hv.advances h.threaded hn.1 hn.2.1 hn.2.2 ⟨[], .refl _, .refl _⟩, hnil⟩
  cases a
  case publishIo op request =>
    simp only [Worker.step, Option.ite_none_right_eq_some, Option.some.injEq] at hs
    obtain ⟨⟨_, _, hf⟩, rfl⟩ := hs
    have hop : op ∉ w.ctx.inflight := fun hin => hf.2 op (by simp) (by simp [held, hin])
    refine ⟨⟨h.threaded.setOp op (h.threaded.idle hop (by simp)).symm,
      ⟨h.awaits.armed, h.awaits.distinct⟩, h.tidy, [], perm_of_count fun o => ?_, .refl _⟩, hf⟩
    simp only [waiting, publishesIo, Context.setOp, List.count_append, List.count_cons, List.count_nil]
    omega
  case publishCpu op =>
    simp only [Worker.step, Option.ite_none_right_eq_some, Option.some.injEq] at hs
    obtain ⟨⟨_, _, hf⟩, rfl⟩ := hs
    refine ⟨⟨h.threaded, h.awaits, h.tidy, [], .refl _, perm_of_count fun o => ?_⟩, hf⟩
    simp only [pushed, publishesCpu, List.count_append, List.count_cons, List.count_nil]
    omega
  case stop =>
    have hw : w' = { w with state := w'.state } := by
      simp only [Worker.step] at hs
      split at hs <;> cases hs <;> rfl
    rw [hw]
    exact ⟨⟨h.threaded, h.awaits, h.tidy, [], .refl _, .refl _⟩, hnil⟩
  case close =>
    obtain rfl := Option.some.inj hs
    exact ⟨⟨h.threaded, h.awaits, h.tidy, [], .refl _, .refl _⟩, hnil⟩
  case run =>
    simp only [Worker.step, Option.ite_none_right_eq_some, Option.some.injEq] at hs
    obtain ⟨⟨hpc, _⟩, rfl⟩ := hs
    exact hstay .toReady (by simpa [Tidy, hpc] using h.tidy)
  case queueExit =>
    simp only [Worker.step] at hs
    split at hs
    case h_1 hpc =>
      obtain rfl := Option.some.inj hs
      exact hstay ⟨_, _, _, rfl, by simp, by simp⟩ (by simpa [Tidy, hpc] using h.tidy)
    case h_2 hpc =>
      obtain rfl := Option.some.inj hs
      obtain ⟨he, ht, hb⟩ : w.events = [] ∧ w.tasks = [] ∧ w.batch = [] := by
        simpa [Tidy, hpc] using h.tidy
      refine ⟨⟨?_, he ▸ ⟨by simp, .nil⟩, ⟨he, ht, hb⟩, [], .refl _, .refl _⟩, hnil⟩
      exact { h.threaded with kernel := by simp }
    case h_3 => cases hs
  case work i =>
    simp only [Worker.step, Option.ite_none_right_eq_some, Option.some.injEq] at hs
    obtain ⟨⟨hw, hf, hr⟩, rfl⟩ := hs
    obtain ⟨hsub, hnd⟩ := publishes_subset_started (w := w) (i := i)
    exact ⟨h.work hf hr hw, hnd hf.1, fun op hop => hf.2 op (hsub hop)⟩

theorem Advances.held {newIo newCpu : List OpId} (h : w.Advances w' newIo newCpu) :
    w'.held.Perm (newIo ++ newCpu ++ w.held) := by
  have ⟨M, h₁, h₂⟩ := h.moved
  refine perm_of_count fun o => ?_
  have := h₁.count_eq o
  have := h₂.count_eq o
  simp only [held_eq, List.count_append] at *
  omega

theorem Kept.next (h : w.Kept) (hs : Worker.step w a = some w') :
    w'.Kept ∧ w'.held.Perm (w.publishes a ++ w.held) := by
  have ⟨ha, hf⟩ := h.step hs
  refine ⟨⟨ha.threaded, ha.awaits, ha.tidy, ?_⟩, ha.held⟩
  rw [ha.held.nodup_iff]
  refine List.nodup_append.mpr ⟨hf.1, h.nodup, fun o ho o' ho' he => ?_⟩
  exact hf.2 o ho (he ▸ ho')

theorem init_kept (options : Options) (hasShared : Bool) : (init options hasShared).Kept where
  threaded := by
    refine ⟨⟨?_, ?_, ⟨fun _ => 0, ?_⟩⟩, ?_, ?_, ?_, ?_, ?_, ?_, ?_, ?_, ?_, ?_⟩
    all_goals simp [init, Loop.init, Context.links, Context.Stuck]
  awaits := ⟨by simp [init], .nil⟩
  tidy   := ⟨rfl, rfl, rfl⟩
  nodup  := .nil

-- Once pushed, an operation stays in the CPU queues, the batch or the past.
theorem pushed_subperm {as : List WorkerAction} (h : w.Kept) (hr : System.run step w as = some w') :
    w.pushed.Subperm w'.pushed := by
  induction as generalizing w
  case nil          => exact Option.some.inj hr ▸ .refl _
  case cons a as hi =>
    have ⟨m, hm, hr⟩ := System.run_cons_eq_some step |>.mp hr
    have ⟨M, _, hp⟩ := (h.step hm).1.moved
    refine List.Subperm.trans ?_ (hi (h.next hm).1 hr)
    refine List.Subperm.trans ?_ hp.symm.subperm
    rw [← List.append_assoc]
    exact (List.sublist_append_right _ _).subperm

-- In every state of every run of a worker: the operations published so far are those in the queues,
-- in the inflight list, in the batch that is executed and among the executed ones, each in one place
-- only; what has been pushed to a CPU queue stays pushed, so it is pushed once; and an event whose
-- operation has left the inflight list changes nothing.
theorem exactly_once (options : Options) (hasShared : Bool) (as : List WorkerAction)
    (hr : System.run step (init options hasShared) as = some w) :
    w.held.Perm (System.gathered step publishes (init options hasShared) as) ∧ w.held.Nodup ∧
      (∀ bs w', System.run step w bs = some w' → w.pushed.Subperm w'.pushed) ∧
      ∀ env e op, e.udata = .operation op → op ∉ w.ctx.inflight →
        w.ctx.processEvent env e = (w.ctx, false) := by
  have hinit := init_kept options hasShared
  have hk : w.Kept := System.invariant (fun h hs => (h.next hs).1) hinit hr
  have hp := System.gathered_perm (fun h hs => h.next hs) hinit hr
  refine ⟨?_, hk.nodup, fun bs w' => pushed_subperm hk, fun env e op hu hop => ?_⟩
  · simpa [init, Loop.init, held] using hp
  · exact hk.threaded.processEvent_stale env hu hop

-- Both events of a poll for reading and writing come in one batch: the first completes the operation
-- and the second finds nothing.
def pollBoth : List WorkerAction :=
  let event (filter : Int) : Event := { udata := .operation 0, ident := 3, filter }
  [.publishIo 0 (.poll 3 0x5), .run, .work {}, .work {}, .work {},
    .work { events := [event evfiltRead, event evfiltWrite] }, .work {}, .work {}, .work {}, .work {},
    .work {}]

theorem exactly_once_pollBoth :
    ∃ w, System.run step (init { eventBatchWindow := 2 } true) pollBoth = some w ∧
      w.executed = [0] ∧ w.held.Perm [0] ∧ w.held.Nodup := by
  have ⟨w, hr, he⟩ := Option.map_eq_some_iff.mp (by decide +kernel :
    (System.run step (init { eventBatchWindow := 2 } true) pollBoth).map Worker.executed = some [0])
  have ⟨hp, hd, _⟩ := exactly_once { eventBatchWindow := 2 } true pollBoth hr
  have hg : System.gathered step publishes (init { eventBatchWindow := 2 } true) pollBoth = [0] := by
    decide +kernel
  exact ⟨w, hr, he, hg ▸ hp, hd⟩

end Worker
end Bnio.Kqueue
