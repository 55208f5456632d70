import Bnio.Uring.Shutdown

namespace Bnio.Uring

-- The first part of `finish`: `drain_local_tasks` with CQEs.
def Pc.draining : Pc → Bool
  | .collect (.drain true) _ | .timers (.drain true) => true
  | .cpu (.drain true) | .exec (.drain true)         => true
  | _                                                => false

namespace Worker

variable {w w' : Worker} {i : Input} {a : Action} {op : OpId} {s s' : Context} {cqe : Cqe}
  {t : List Cqe} {due : List (OpId × Cqe)} {others : Bool} {site : Site} {left : Nat} {answer : Int}

section Coverage

-- The marks of the completions `t` in the coverage of the drain.
def marks (s : Context) (t : List Cqe) : List Bool :=
  t.map fun c => (s.due c).isSome

theorem due_congr (h : ∀ op, cqe.userData = .operation op → s'.ops op = s.ops op) :
    s'.due cqe = s.due cqe := by
  unfold Context.due
  split
  case h_1       => rfl
  case h_2 op hu => rw [h op hu]

theorem marks_congr (h : ∀ c ∈ t, ∀ op, c.userData = .operation op → s'.ops op = s.ops op) :
    marks s' t = marks s t :=
  List.map_congr_left fun c hc => by rw [due_congr (h c hc)]

theorem any_marks : (marks s t).any id ↔ ∃ c ∈ t, ∃ op, s.due c = some op := by
  simp [marks, Option.isSome_iff_exists]

-- How many entries of the CQ are collected before the drain looks for CPU work again.
def ahead (w : Worker) : Nat :=
  match w.pc with
  | .collect _ left => left
  | .exec _         => w.window
  | _               => 0

-- From where it is the drain gets to everything that is due in `t`.
def Covers (others : Bool) (t : List Cqe) (w : Worker) : Prop :=
  w.ctx.options.covered others (marks w.ctx t) w.ahead w.ctx.cqeTasks.length w.ctx.localTaskBudget
    (!w.ctx.localCpu.isEmpty) (!w.ctx.sharedCpu.isEmpty)

theorem covers_of_none (h : ¬(marks w.ctx t).any id) : w.Covers others t :=
  Options.covered_of_none (Bool.eq_false_iff.mpr h)

theorem Covers.mono (h : w.Covers others t) (hm : marks w'.ctx t = marks w.ctx t)
    (hopt : w'.ctx.options = w.ctx.options) (hahead : w'.ahead = w.ahead)
    (htasks : w'.ctx.cqeTasks = w.ctx.cqeTasks)
    (hbudget : w'.ctx.localTaskBudget = w.ctx.localTaskBudget)
    (hown : w.ctx.localCpu ⊆ w'.ctx.localCpu)
    (hshared : others = false → w.ctx.sharedCpu ⊆ w'.ctx.sharedCpu) : w'.Covers others t := by
  have hne : ∀ {l l' : List OpId}, l ⊆ l' → !l.isEmpty → !l'.isEmpty := fun hl h => by
    simp only [Bool.not_eq_true', List.isEmpty_eq_false_iff] at h ⊢
    exact fun hnil => h (List.subset_nil.mp (hnil ▸ hl))
  rw [Covers, hm, hopt, hahead, htasks, hbudget]
  exact Options.covered_mono (hne hown) (fun ho => hne (hshared (by simpa using ho))) h

theorem Covers.congr (h : w.Covers others t) (hm : marks w'.ctx t = marks w.ctx t)
    (hopt : w'.ctx.options = w.ctx.options) (hahead : w'.ahead = w.ahead)
    (htasks : w'.ctx.cqeTasks = w.ctx.cqeTasks)
    (hbudget : w'.ctx.localTaskBudget = w.ctx.localTaskBudget)
    (hown : w'.ctx.localCpu = w.ctx.localCpu) (hshared : w'.ctx.sharedCpu = w.ctx.sharedCpu) :
    w'.Covers others t :=
  h.mono hm hopt hahead htasks hbudget (hown ▸ List.Subset.refl _)
    fun _ => hshared ▸ List.Subset.refl _

theorem marks_collect {c : Cqe} {cq : List Cqe} (ha : s.Agree) (hcq : s.ring.cq = c :: cq)
    (ht : t ⊆ cq) : marks ((s.setRing s.ring.advance).collectCqe c answer) t = marks s t :=
  marks_congr fun _ hx op hop =>
    (Context.collectCqe_collects (s.setRing s.ring.advance) c answer).ops op
      (ha.ne_of_cq hcq (ht hx) hop)

theorem covers_collect {c : Cqe} {cq : List Cqe} (ha : w.ctx.Agree) (hcq : w.ctx.ring.cq = c :: cq)
    (ht : t ⊆ cq) (hp : w.pc = .collect site (left + 1)) :
    Covers others t ⟨(w.ctx.setRing w.ctx.ring.advance).collectCqe c answer, .collect site left⟩ ↔
      w.Covers others (c :: t) := by
  have hcol := Context.collectCqe_collects (w.ctx.setRing w.ctx.ring.advance) c answer
  have hlen : (((w.ctx.setRing w.ctx.ring.advance).due c).toList ++ w.ctx.cqeTasks).length =
      w.ctx.cqeTasks.length + (w.ctx.due c).isSome.toNat := by
    have hd : (w.ctx.setRing w.ctx.ring.advance).due c = w.ctx.due c := rfl
    rw [hd, List.length_append, Nat.add_comm]
    cases w.ctx.due c <;> rfl
  have htasks : (w.ctx.setRing w.ctx.ring.advance).cqeTasks = w.ctx.cqeTasks := rfl
  simp only [Covers, ahead, hp, marks_collect ha hcq ht, hcol.options, hcol.cqeTasks,
    hcol.localTaskBudget, hcol.localCpu, hcol.sharedCpu, htasks, hlen]
  rw [marks, marks, List.map_cons, Options.covered]
  rfl

theorem dispatchCqeTasks_nil (h : s.cqeTasks = []) : s.dispatchCqeTasks = s := by
  cases s
  simp_all [Context.dispatchCqeTasks_spec, Options.keepsLocal, Options.budgetAfter]

theorem covers_dispatch (hp : w.pc = .collect site 0) :
    Covers others t ⟨w.ctx.dispatchCqeTasks, .timers site⟩ ↔ w.Covers others t := by
  have hempty : ∀ (b : Bool) (l l' : List OpId),
      (!(if b then l.reverse ++ l' else l').isEmpty) = (!l'.isEmpty || decide (0 < l.length) && b) := by
    intro b l l'
    cases b <;> cases l <;> cases l' <;> simp
  have hempty' : ∀ (b : Bool) (l l' : List OpId), (!(if b then l' else l.reverse ++ l').isEmpty) =
      (!l'.isEmpty || decide (0 < l.length) && !b) := by
    intro b l l'
    cases b <;> cases l <;> cases l' <;> simp
  have hm : marks w.ctx.dispatchCqeTasks t = marks w.ctx t := by
    rw [Context.dispatchCqeTasks_spec]
    rfl
  simp only [Covers, ahead, hp, hm]
  rw [Options.covered_dispatch (n := w.ctx.cqeTasks.length), Context.dispatchCqeTasks_spec]
  simp only [hempty, hempty', List.length_nil]

theorem covers_fetch (hp : w.pc = .cpu site) (htasks : w.ctx.cqeTasks = [])
    (hd : (marks w.ctx t).any id) : w.Covers others t ↔
      (w.ctx.localCpu ≠ [] ∨ others = false ∧ w.ctx.sharedCpu ≠ []) ∧
        Covers others t ⟨w.ctx.fetchCpuTask, .exec site⟩ := by
  have hlocal : w.ctx.fetchCpuTask.localCpu = [] := by
    unfold Context.fetchCpuTask
    split
    case isTrue    => rfl
    case isFalse h => exact not_not.mp h
  have hshared : (!w.ctx.fetchCpuTask.sharedCpu.isEmpty) =
      (!w.ctx.localCpu.isEmpty && !w.ctx.sharedCpu.isEmpty) := by
    unfold Context.fetchCpuTask
    split
    case isTrue h  => simp [h]
    case isFalse h => simp [not_not.mp h]
  have hrest : marks w.ctx.fetchCpuTask t = marks w.ctx t ∧
      w.ctx.fetchCpuTask.options = w.ctx.options ∧
      w.ctx.fetchCpuTask.cqeTasks = w.ctx.cqeTasks ∧
      w.ctx.fetchCpuTask.localTaskBudget = w.ctx.localTaskBudget := by
    obtain ⟨_, _, _, hs⟩ := w.ctx.fetchCpuTask_eq
    rw [hs]
    exact ⟨rfl, rfl, rfl, rfl⟩
  simp only [Covers, ahead, hp, htasks, hlocal, hshared, hrest, window, List.length_nil]
  rw [Options.covered_next hd]
  simp

theorem collectStep_drain (left : Nat) (answer : Int) (ho : w.ctx.ring.isOpen) :
    (∃ n c cq, left = n + 1 ∧ w.ctx.ring.cq = c :: cq ∧ w.collectStep (.drain true) left answer =
        ⟨(w.ctx.setRing w.ctx.ring.advance).collectCqe c answer, .collect (.drain true) n⟩) ∨
      (left = 0 ∨ w.ctx.ring.cq = []) ∧ w.collectStep (.drain true) left answer =
        ⟨w.ctx.dispatchCqeTasks, .timers (.drain true)⟩ := by
  have hend : (if w.ctx.cqeTasks = [] then w.afterCollect false (.drain true)
      else { w with ctx := w.ctx.dispatchCqeTasks }.afterCollect true (.drain true)) =
        ⟨w.ctx.dispatchCqeTasks, .timers (.drain true)⟩ := by
    split
    case isTrue h  => rw [dispatchCqeTasks_nil h]; rfl
    case isFalse   => rfl
  simp only [collectStep, ho]
  cases left
  case zero => exact .inr ⟨.inl rfl, hend⟩
  case succ left =>
    cases hcq : w.ctx.ring.cq
    case nil       => exact .inr ⟨.inr rfl, hend⟩
    case cons c cq => exact .inl ⟨left, c, cq, rfl, rfl, rfl⟩

end Coverage

theorem draining_not_torn {pc : Pc} (h : pc.draining) : ¬pc.torn := by
  unfold Pc.draining at h
  split at h
  case h_5 => cases h
  all_goals exact Bool.false_ne_true

theorem draining_tearing {pc : Pc} (h : pc.draining) : pc.tearing ∧ pc ≠ .finished := by
  unfold Pc.draining at h
  split at h
  case h_5 => cases h
  all_goals exact ⟨rfl, Pc.noConfusion⟩

-- The first part of `finish`, with the completions `t` of its start still in the CQ.
structure Draining (others : Bool) (due : List (OpId × Cqe)) (t : List Cqe) (w : Worker) : Prop where
  conserving : w.Conserving
  draining : w.pc.draining
  isOpen : w.ctx.ring.isOpen
  cq : ∃ l, w.ctx.ring.cq = t ++ l
  fate : ∀ p ∈ due, w.ctx.Fate t p.1 p.2
  covers : w.Covers others t

-- The rest of `finish`: what was due is delivered, here or by a worker that has taken it.
structure Drained (due : List (OpId × Cqe)) (w : Worker) : Prop where
  conserving : w.Conserving
  torn : w.pc.torn
  fate : ∀ p ∈ due, p.2.delivery p.1 ∈ w.ctx.executed ∨ p.1 ∈ w.ctx.taken ∧ w.ctx.Stored p.1 p.2

section Draining

theorem Draining.agree (h : Draining others due t w) : w.ctx.Agree :=
  h.conserving.agree (draining_not_torn h.draining)

theorem Draining.mem_inflight (h : Draining others due t w) (hc : cqe ∈ t)
    (hop : cqe.userData = .operation op) : op ∈ w.ctx.inflight := by
  have ⟨l, hl⟩ := h.cq
  exact h.agree.mem_inflight_of_cq (by rw [hl]; exact List.mem_append_left _ hc) hop

theorem Draining.marks_eq (h : Draining others due t w)
    (hops : ∀ op ∈ w.ctx.inflight, s.ops op = w.ctx.ops op) : marks s t = marks w.ctx t :=
  marks_congr fun _ hc op hop => hops op (h.mem_inflight hc hop)

theorem Draining.mem_held {p : OpId × Cqe} (h : Draining others due t w) (hp : p ∈ due) :
    p.1 ∈ w.ctx.held := by
  cases h.fate p hp
  case waiting hin hd _ =>
    exact Context.mem_held_of_inflight (h.mem_inflight hin (Context.due_eq_some.mp hd).1)
  case stored hr _ => exact Context.mem_held_of_ready hr
  case done hd     =>
    have hm : p.1 ∈ w.ctx.executed.map Delivery.op := List.mem_map_of_mem (f := Delivery.op) hd
    simp only [Context.held, List.mem_append]
    exact .inl (.inr hm)

theorem Draining.collectStep (h : Draining others due t w) (hp : w.pc = .collect (.drain true) left)
    (hc : (w.collectStep (.drain true) left answer).Conserving) :
    ∃ t', Draining others due t' (w.collectStep (.drain true) left answer) := by
  obtain ⟨l, hl⟩ := h.cq
  obtain ⟨n, c, cq, rfl, hcq, he⟩ | ⟨hend, he⟩ := collectStep_drain left answer h.isOpen
  · rw [he] at hc ⊢
    have hcol := Context.collectCqe_collects (w.ctx.setRing w.ctx.ring.advance) c answer
    have hadv : (w.ctx.setRing w.ctx.ring.advance).ring.cq = cq := by
      simp [Context.setRing, Ring.advance, hcq]
    rw [hcq] at hl
    cases t
    case nil =>
      refine ⟨[], hc, rfl, hcol.isOpen.trans h.isOpen, ⟨cq, hcol.cq.trans hadv⟩, fun p hp => ?_,
        covers_of_none (by simp [marks])⟩
      exact ((h.fate p hp).mono (List.nil_subset [c])).collect h.agree hcq (List.nil_subset _)
    case cons x t =>
      obtain ⟨rfl, htail⟩ := List.cons.inj hl
      have ht : t ⊆ cq := htail ▸ List.subset_append_left ..
      exact ⟨t, hc, rfl, hcol.isOpen.trans h.isOpen, ⟨l, (hcol.cq.trans hadv).trans htail⟩,
        fun p hp => (h.fate p hp).collect h.agree hcq ht, (covers_collect h.agree hcq ht hp).mpr h.covers⟩
  · have hcov : Covers others t ⟨w.ctx.dispatchCqeTasks, .timers (.drain true)⟩ := by
      -- With a due completion left the window is over.
      by_cases hd : (marks w.ctx.dispatchCqeTasks t).any id
      case neg => exact covers_of_none hd
      case pos =>
        have hleft : left = 0 := hend.resolve_right fun hcq => by
          obtain rfl : t = [] := (List.append_eq_nil_iff.mp (hl.symm.trans hcq)).1
          simp [marks] at hd
        exact (covers_dispatch (hleft ▸ hp)).mpr h.covers
    have hkeeps := Context.dispatchCqeTasks_keeps (s := w.ctx)
    obtain ⟨lc, sc, b, hs⟩ := Context.dispatchCqeTasks_eq w.ctx
    rw [he] at hc ⊢
    rw [hs] at hc hkeeps hcov ⊢
    exact ⟨t, hc, rfl, h.isOpen, h.cq, fun p hp => (h.fate p hp).keep rfl
      (Context.mem_ready_of_keeps hkeeps rfl rfl rfl) (List.Subset.refl _), hcov⟩

theorem Draining.pushTimers (h : Draining others due t w) (ops : List OpId)
    (hp : w.pc = .timers (.drain true))
    (hc : Conserving ⟨w.ctx.pushCpuList ops, .cpu (.drain true)⟩) :
    Draining others due t ⟨w.ctx.pushCpuList ops, .cpu (.drain true)⟩ := by
  rw [Context.pushCpuList_eq] at hc ⊢
  refine ⟨hc, rfl, h.isOpen, h.cq, fun p hp => ?_, ?_⟩
  · refine (h.fate p hp).keep rfl (fun hm => ?_) (List.Subset.refl _)
    simp only [Context.ready, List.mem_append] at hm ⊢
    tauto
  · exact h.covers.mono rfl rfl (by simp [ahead, hp]) rfl rfl (List.subset_append_right ..)
      fun _ => List.Subset.refl _

theorem Draining.fetchCpu (h : Draining others due t w) (hp : w.pc = .cpu (.drain true))
    (hc : Conserving ⟨w.ctx.fetchCpuTask, .exec (.drain true)⟩) :
    Draining others due t ⟨w.ctx.fetchCpuTask, .exec (.drain true)⟩ := by
  obtain ⟨lc, sc, b, hs⟩ := w.ctx.fetchCpuTask_eq
  have hcov : Covers others t ⟨w.ctx.fetchCpuTask, .exec (.drain true)⟩ := by
    by_cases hd : (marks w.ctx t).any id
    case pos => exact ((covers_fetch hp (h.conserving.collected (by simp [hp])) hd).mp h.covers).2
    case neg => exact covers_of_none (by rw [hs]; exact hd)
  have hkeeps := Context.fetchCpuTask_keeps (h.conserving.settled (by simp [hp]))
  rw [hs] at hc hkeeps hcov ⊢
  exact ⟨hc, rfl, h.isOpen, h.cq, fun p hp => (h.fate p hp).keep rfl
    (Context.mem_ready_of_keeps hkeeps rfl rfl rfl) (List.Subset.refl _), hcov⟩

theorem Draining.execute (h : Draining others due t w) (hp : w.pc = .exec (.drain true))
    (hb : w.ctx.batch ≠ []) (hf : w.ctx.Fresh (i.publishedCpu ++ i.publishedIo.map Prod.fst))
    (hc : Conserving { w with ctx := w.ctx.executeNext i }) :
    Draining others due t { w with ctx := w.ctx.executeNext i } := by
  have hfresh : ∀ op ∈ w.ctx.held, op ∉ i.publishedIo.map Prod.fst :=
    fun op hop hm => hf.2 op (List.mem_append_right _ hm) hop
  have ⟨o, l, hl⟩ := List.exists_cons_of_ne_nil hb
  have ⟨f, q, he, hops⟩ := Context.executeNext_cons (i := i) hl
  have hm : marks (w.ctx.executeNext i) t = marks w.ctx t := h.marks_eq fun op hop => by
    rw [he]
    exact hops op (hfresh op (Context.mem_held_of_inflight hop))
  refine ⟨hc, h.draining, by rw [he]; exact h.isOpen, by rw [he]; exact h.cq, fun p hp =>
    (h.fate p hp).execute hl (hfresh _ (h.mem_held hp)), ?_⟩
  refine h.covers.mono hm ?_ ?_ ?_ ?_ ?_ fun _ => ?_
  all_goals simp only [he, ahead, hp, window]
  · exact List.subset_append_right ..
  · exact List.Subset.refl _

-- There is no CPU work: nothing that was due is left in the CQ or in a queue of the worker.
theorem Draining.drained (h : Draining others due t w) (hp : w.pc = .cpu (.drain true))
    (hcpu : w.ctx.localCpu = [] ∧ w.ctx.sharedCpu = []) (hc : Conserving (w.goto .abort)) :
    Drained due (w.goto .abort) := by
  have htasks := h.conserving.collected (by simp [hp])
  have hb := h.conserving.settled (by simp [hp])
  have hnone : ¬(marks w.ctx t).any id := fun hd => by
    simpa [hcpu] using (covers_fetch hp htasks hd).mp h.covers
  refine ⟨hc, rfl, fun p hp => ?_⟩
  cases h.fate p hp
  case waiting hin hd _ => exact absurd (any_marks.mpr ⟨p.2, hin, p.1, hd⟩) hnone
  case done hd          => exact .inl hd
  case stored hr hs     =>
    simp only [Context.ready, htasks, hb, hcpu, List.append_nil, List.nil_append] at hr
    exact .inr ⟨hr, hs⟩

theorem Draining.work (h : Draining others due t w) (hf : w.ctx.Fresh (w.started i))
    (hc : (w.workStep i).Conserving) :
    (∃ t', Draining others due t' (w.workStep i)) ∨ Drained due (w.workStep i) := by
  have hpc := h.draining
  unfold Pc.draining at hpc
  split at hpc
  case h_1 left hp =>
    rw [workStep, hp] at hc ⊢
    exact .inl (h.collectStep hp hc)
  case h_2 hp =>
    rw [workStep, hp] at hc ⊢
    simp only at hc ⊢
    split at hc
    case isTrue hg  => rw [if_pos hg]; exact .inl ⟨t, h.pushTimers _ hp hc⟩
    case isFalse hg => rw [if_neg hg]; exact .inl ⟨t, h.pushTimers [] hp hc⟩
  case h_3 hp =>
    rw [workStep, hp] at hc ⊢
    simp only at hc ⊢
    split at hc
    case isTrue hcpu  => rw [if_pos hcpu]; exact .inr (h.drained hp hcpu hc)
    case isFalse hcpu => rw [if_neg hcpu]; exact .inl ⟨t, h.fetchCpu hp hc⟩
  case h_4 hp =>
    refine .inl ⟨t, ?_⟩
    rw [workStep, hp] at hc ⊢
    rw [started, hp] at hf
    simp only at hc ⊢
    split at hc
    case isFalse hb => rw [if_neg hb]; exact hp ▸ h.execute hp hb hf (hp ▸ hc)
    case isTrue hb  =>
      rw [if_pos hb]
      exact ⟨hc, rfl, h.isOpen, h.cq, h.fate,
        h.covers.congr rfl rfl (by rw [ahead, ahead, hp]; rfl) rfl rfl rfl rfl⟩
  case h_5 => cases hpc

theorem outside_sharedCpu (hs : step w a = some w') (hw : ∀ i, a ≠ .work i) (ha : a.alone)
    (hwork : Working w.pc) : w.ctx.sharedCpu ⊆ w'.ctx.sharedCpu := by
  cases a
  case work i  => exact absurd rfl (hw i)
  case takeIo  => cases ha
  case takeCpu => cases ha
  case publishCpu op =>
    obtain ⟨_, he⟩ := Option.ite_none_right_eq_some.mp hs
    exact Option.some.inj he ▸ List.subset_cons_self ..
  case drainIo | drainCpu =>
    simp only [step, hwork] at hs
    split at hs <;> simp at hs
  case run =>
    obtain ⟨hg, _⟩ := Option.ite_none_right_eq_some.mp hs
    rw [hg.1] at hwork
    cases hwork
  all_goals
    simp only [step] at hs
    repeat' split at hs
    all_goals cases hs
    all_goals exact List.Subset.refl _

theorem Draining.outside (h : Draining others due t w) (good : others || a.alone)
    (hs : step w a = some w') (hw : ∀ i, a ≠ .work i) (hc : w'.Conserving) :
    Draining others due t w' := by
  have ⟨htear, hn⟩ := draining_tearing h.draining
  have hwork := tearing_working htear hn
  have apart := outside_apart hs hw
  have working := outside_apart_working hs hw hwork
  have ⟨l, hl⟩ := h.cq
  have ⟨l', hl'⟩ := working.cq
  have hops : ∀ op ∈ w.ctx.inflight, w'.ctx.ops op = w.ctx.ops op := fun op hop =>
    apart.ops op (Context.mem_held_of_inflight hop)
      (Context.Once.not_mem_of_inflight h.agree.once hop).2
  refine ⟨hc, working.pc ▸ h.draining, working.isOpen.trans h.isOpen,
    ⟨l ++ l', by rw [hl', hl, List.append_assoc]⟩, fun p hp => ?_, ?_⟩
  · cases h.fate p hp
    case done hd      => exact .done (apart.executed hd)
    case stored hr hs =>
      refine .stored (working.ready hr) (hs.of_ops_eq ?_)
      exact apart.ops _ (Context.mem_held_of_ready hr)
        (Context.Once.not_mem_of_ready h.agree.once hr).2
    case waiting hin hd hv =>
      have hi := h.mem_inflight hin (Context.due_eq_some.mp hd).1
      exact .waiting hin (Context.due_of_ops_eq (hops _ hi) hd) (by rw [hops _ hi]; exact hv)
  · refine h.covers.mono (h.marks_eq hops) apart.options ?_ apart.cqeTasks apart.localTaskBudget
      (apart.localCpu ▸ List.Subset.refl _) fun ho => ?_
    · rw [ahead, ahead, working.pc, window, window, apart.options]
    · exact outside_sharedCpu hs hw (by simpa [ho] using good) hwork

end Draining

section Drained

theorem mem_ready_of_taken (h : op ∈ s.taken) : op ∈ s.ready :=
  List.mem_append_right _ h

theorem Drained.not_mem (h : Drained due w) (ht : op ∈ w.ctx.taken) :
    op ∉ w.ctx.inflight ∧ op ∉ w.ctx.ioSources :=
  h.conserving.once.not_mem_of_ready (mem_ready_of_taken ht)

-- Something delivered stays delivered, and nobody touches an operation another worker has taken.
theorem Drained.fate_keep (h : Drained due w) (hops : ∀ op ∈ w.ctx.taken, s.ops op = w.ctx.ops op)
    (ht : w.ctx.taken ⊆ s.taken) (he : w.ctx.executed ⊆ s.executed) (p : OpId × Cqe) (hp : p ∈ due) :
    p.2.delivery p.1 ∈ s.executed ∨ p.1 ∈ s.taken ∧ s.Stored p.1 p.2 :=
  (h.fate p hp).imp (he ·) fun hs => ⟨ht hs.1, hs.2.of_ops_eq (hops _ hs.1)⟩

-- From the abort on the worker touches nothing but what it holds.
theorem Leaf.untouched {new : List OpId} (h : Leaf w.ctx i w.pc new s) (ht : w.pc.torn)
    (fresh : ∀ op ∈ new, op ∉ w.ctx.held) :
    w.ctx.executed ⊆ s.executed ∧ ∀ op ∈ w.ctx.held, op ∉ w.ctx.inflight → op ∉ w.ctx.ioSources →
      s.ops op = w.ctx.ops op := by
  generalize w.pc = pc at *
  cases h
  case skip       => exact ⟨List.Subset.refl _, fun _ _ _ _ => rfl⟩
  case enter      => cases ht
  case rearm      => cases ht
  case rearmLocal => cases ht
  case collect    => cases ht
  case dispatch   => cases ht
  case fetch      => cases ht
  case fetchCpu   =>
    obtain ⟨_, _, _, he⟩ := w.ctx.fetchCpuTask_eq
    rw [he]
    exact ⟨List.Subset.refl _, fun _ _ _ _ => rfl⟩
  case timers =>
    rw [Context.pushCpuList_eq]
    exact ⟨List.Subset.refl _, fun _ _ _ _ => rfl⟩
  case exec hb =>
    obtain ⟨o, l, hl⟩ := List.exists_cons_of_ne_nil hb
    obtain ⟨f, q, he, hops⟩ := Context.executeNext_cons (i := i) hl
    rw [he]
    exact ⟨List.subset_cons_self .., fun op hop _ _ => hops op fun hm =>
      fresh op (List.mem_append_right _ hm) hop⟩
  case io =>
    exact ⟨(Context.consumeIoTasks_frame w.ctx i.answer).executed ▸ List.Subset.refl _,
      fun _ _ _ hs => Context.consumeIoTasks_ops hs⟩
  case abort =>
    obtain ⟨_, _, he⟩ := Context.abortInflightIo_eq w.ctx
    refine ⟨by rw [he]; exact List.Subset.refl _, fun _ _ hi hs => Context.abortInflightIo_ops hi hs⟩

theorem Drained.work (h : Drained due w) (hs : step w (.work i) = some w') (hc : w'.Conserving) :
    Drained due w' := by
  obtain ⟨_, he⟩ := Option.ite_none_right_eq_some.mp hs
  obtain ⟨⟨rfl, leaf, published, ends⟩, fresh⟩ := work_steps hs h.conserving.settled
  obtain ⟨_, _, hctx⟩ := ends.ctx
  have ⟨hexec, hops⟩ := leaf.untouched h.torn (published ▸ (publishes_fresh fresh).2)
  refine ⟨hc, Option.some.inj he ▸ workStep_torn h.torn, ?_⟩
  rw [hctx]
  exact h.fate_keep (fun op ht => hops op (Context.mem_held_of_ready (mem_ready_of_taken ht))
    (h.not_mem ht).1 (h.not_mem ht).2) (leaf.taken ▸ List.Subset.refl _) hexec

theorem Drained.outside (h : Drained due w) (hs : step w a = some w') (hw : ∀ i, a ≠ .work i)
    (hc : w'.Conserving) : Drained due w' := by
  have apart := outside_apart hs hw
  have hidle : w.pc ≠ .idle := fun hp => by have := h.torn; rw [hp] at this; cases this
  refine ⟨hc, ?_, h.fate_keep (fun op ht => ?_) apart.taken apart.executed⟩
  · rcases outside_pc hs hw hidle with hp | hp
    · rw [hp]; exact h.torn
    · rw [hp]; rfl
  · exact apart.ops op (Context.mem_held_of_ready (mem_ready_of_taken ht)) (h.not_mem ht).2

end Drained

section Missing

def dues (s : Context) : List (OpId × Cqe) :=
  s.ring.cq.filterMap fun c => (s.due c).map (·, c)

theorem mem_dues {p : OpId × Cqe} : p ∈ dues s ↔ p.2 ∈ s.ring.cq ∧ s.due p.2 = some p.1 := by
  simp only [dues, List.mem_filterMap, Option.map_eq_some_iff]
  constructor
  · rintro ⟨c, hc, op, hd, rfl⟩
    exact ⟨hc, hd⟩
  · rintro ⟨hc, hd⟩
    exact ⟨p.2, hc, p.1, hd, rfl⟩

theorem dues_subset (hcq : s'.ring.cq ⊆ s.ring.cq) (hd : ∀ c ∈ s'.ring.cq, s'.due c = s.due c) :
    dues s' ⊆ dues s := fun p hp => by
  have ⟨hin, hdue⟩ := mem_dues.mp hp
  exact mem_dues.mpr ⟨hcq hin, (hd _ hin).symm.trans hdue⟩

-- The drain will leave something in the CQ that is due, unless somebody brings work.
structure Missing (others : Bool) (due : List (OpId × Cqe)) (w : Worker) : Prop where
  tears : w.Tears
  draining : w.pc.draining
  isOpen : w.ctx.ring.isOpen
  dues : dues w.ctx ⊆ due
  misses : ¬w.Covers others w.ctx.ring.cq

-- It has left it there.
structure Abandons (due : List (OpId × Cqe)) (w : Worker) : Prop where
  tears : w.Tears
  pc : w.pc = .abort
  left : ∃ p ∈ due, p.1 ∈ w.ctx.inflight

theorem Missing.agree (h : Missing others due w) : w.ctx.Agree :=
  h.tears.conserving.agree (draining_not_torn h.draining)

theorem Missing.any (h : Missing others due w) : (marks w.ctx w.ctx.ring.cq).any id :=
  not_not.mp fun hn => h.misses (covers_of_none hn)

theorem Missing.collectStep (h : Missing others due w) (hp : w.pc = .collect (.drain true) left)
    (ht : (w.collectStep (.drain true) left answer).Tears) :
    Missing others due (w.collectStep (.drain true) left answer) := by
  obtain ⟨n, c, cq, rfl, hcq, he⟩ | ⟨hend, he⟩ := collectStep_drain left answer h.isOpen
  · rw [he] at ht ⊢
    have hcol := Context.collectCqe_collects (w.ctx.setRing w.ctx.ring.advance) c answer
    have hadv : (w.ctx.setRing w.ctx.ring.advance).ring.cq = cq := by
      simp [Context.setRing, Ring.advance, hcq]
    have hcq' := hcol.cq.trans hadv
    refine ⟨ht, rfl, hcol.isOpen.trans h.isOpen, ?_, fun hcov => h.misses ?_⟩
    · refine List.Subset.trans (dues_subset ?_ fun x hx => ?_) h.dues
      · rw [hcq', hcq]
        exact List.subset_cons_self ..
      · rw [hcq'] at hx
        exact due_congr fun op hop => hcol.ops op (h.agree.ne_of_cq hcq hx hop)
    · simp only [hcq'] at hcov
      rw [hcq]
      exact (covers_collect h.agree hcq (List.Subset.refl _) hp).mp hcov
  · have hleft : left = 0 := hend.resolve_right fun hcq => by
      have := h.any
      rw [hcq] at this
      cases this
    have hmiss : ¬Covers others w.ctx.ring.cq ⟨w.ctx.dispatchCqeTasks, .timers (.drain true)⟩ :=
      fun hcov => h.misses ((covers_dispatch (hleft ▸ hp)).mp hcov)
    obtain ⟨_, _, _, hs⟩ := Context.dispatchCqeTasks_eq w.ctx
    rw [he] at ht ⊢
    rw [hs] at ht hmiss ⊢
    exact ⟨ht, rfl, h.isOpen, h.dues, hmiss⟩

theorem Missing.fetchCpu (h : Missing others due w) (hp : w.pc = .cpu (.drain true))
    (hq : others → w.ctx.sharedCpu = []) (hcpu : ¬(w.ctx.localCpu = [] ∧ w.ctx.sharedCpu = []))
    (ht : Tears ⟨w.ctx.fetchCpuTask, .exec (.drain true)⟩) :
    Missing others due ⟨w.ctx.fetchCpuTask, .exec (.drain true)⟩ := by
  have hmiss : ¬Covers others w.ctx.ring.cq ⟨w.ctx.fetchCpuTask, .exec (.drain true)⟩ := fun hcov => by
    refine h.misses <| (covers_fetch hp (h.tears.conserving.collected (by simp [hp])) h.any).mpr
      ⟨?_, hcov⟩
    by_cases hl : w.ctx.localCpu = []
    case neg => exact .inl hl
    case pos =>
      have hs : w.ctx.sharedCpu ≠ [] := fun hs => hcpu ⟨hl, hs⟩
      exact .inr ⟨Bool.eq_false_iff.mpr fun ho => hs (hq ho), hs⟩
  obtain ⟨_, _, _, hs⟩ := w.ctx.fetchCpuTask_eq
  rw [hs] at ht hmiss ⊢
  exact ⟨ht, rfl, h.isOpen, h.dues, hmiss⟩

theorem executeNext_quiet {o : OpId} {l : List OpId} (hb : s.batch = o :: l) :
    s.executeNext {} = { s with batch := l }.execute o := by
  simp only [Context.executeNext, hb]
  rfl

-- Nobody brings work.
theorem Missing.quiet (h : Missing others due w) (hq : others → w.ctx.sharedCpu = []) :
    Missing others due (w.workStep {}) ∨ Abandons due (w.workStep {}) := by
  obtain ⟨htear, hn⟩ := draining_tearing h.draining
  have ht := (h.tears.step ⟨rfl, hn⟩ (step_quiet (tearing_working htear hn))).1
  have hpc := h.draining
  unfold Pc.draining at hpc
  split at hpc
  case h_1 left hp =>
    rw [workStep, hp] at ht ⊢
    exact .inl (h.collectStep hp ht)
  case h_2 hp =>
    rw [workStep, hp] at ht ⊢
    refine .inl ⟨ht, rfl, h.isOpen, h.dues, fun hcov => h.misses ?_⟩
    exact hcov.congr rfl rfl (by simp [ahead, hp, afterTimers, goto]) rfl rfl rfl rfl
  case h_3 hp =>
    rw [workStep, hp] at ht ⊢
    simp only at ht ⊢
    split at ht
    case isFalse hcpu => rw [if_neg hcpu]; exact .inl (h.fetchCpu hp hq hcpu ht)
    case isTrue hcpu  =>
      rw [if_pos hcpu]
      obtain ⟨c, hc, op, hd⟩ := any_marks.mp h.any
      exact .inr ⟨ht, rfl, (op, c), h.dues (mem_dues.mpr ⟨hc, hd⟩),
        h.agree.mem_inflight_of_cq hc (Context.due_eq_some.mp hd).1⟩
  case h_4 hp =>
    rw [workStep, hp] at ht ⊢
    simp only at ht ⊢
    split at ht
    case isTrue hb  =>
      rw [if_pos hb]
      refine .inl ⟨ht, rfl, h.isOpen, h.dues, fun hcov => h.misses ?_⟩
      exact hcov.congr rfl rfl (by rw [ahead, ahead, hp]; rfl) rfl rfl rfl rfl
    case isFalse hb =>
      rw [if_neg hb]
      obtain ⟨o, l, hl⟩ := List.exists_cons_of_ne_nil hb
      rw [executeNext_quiet hl] at ht ⊢
      refine .inl ⟨ht, rfl, h.isOpen, h.dues, fun hcov => h.misses ?_⟩
      exact hcov.congr rfl rfl (by rw [ahead, ahead, hp]; rfl) rfl rfl rfl rfl
  case h_5 => cases hpc

-- The other workers, if there are any, take what is in the shared queue.
theorem Missing.clear (h : Missing others due w) :
    ∃ as w', System.Along step (fun _ a => others || a.alone) w as ∧
      System.run step w as = some w' ∧ Missing others due w' ∧ (others → w'.ctx.sharedCpu = []) ∧
      w'.potential ≤ w.potential := by
  cases others
  case false => exact ⟨[], w, trivial, rfl, h, (absurd · Bool.false_ne_true), Nat.le_refl _⟩
  case true  =>
    obtain ⟨htear, hn⟩ := draining_tearing h.draining
    obtain ⟨ht, _, hle⟩ := h.tears.step (a := .takeCpu) ⟨rfl, hn⟩ rfl
    refine ⟨[.takeCpu], _, ⟨rfl, fun _ _ => trivial⟩, rfl, ?_, fun _ => rfl, ?_⟩
    · refine ⟨ht, h.draining, h.isOpen, h.dues, fun hcov => h.misses ?_⟩
      exact hcov.mono rfl rfl rfl rfl rfl (List.Subset.refl _) fun ho => by cases ho
    · simpa [publishes, publishesCpu, publishesIo, Action.isWork] using hle

theorem Missing.abandons (h : Missing others due w) :
    ∃ as w', System.Along step (fun _ a => others || a.alone) w as ∧
      System.run step w as = some w' ∧ Abandons due w' := by
  -- By induction on the potential.
  generalize hm : w.potential = m
  induction m using Nat.strongRecOn generalizing w
  case ind m hi =>
    obtain ⟨as, v, halong, hr, hv, hq, hle⟩ := h.clear
    obtain ⟨htear, hn⟩ := draining_tearing hv.draining
    have hs := step_quiet (tearing_working htear hn)
    have hlt : (v.workStep {}).potential < m := by
      have := (hv.tears.step ⟨rfl, hn⟩ hs).2.2
      simp only [publishes_quiet, Action.isWork, if_true, List.length_nil, Nat.zero_mul] at this
      omega
    have hrun : System.run step w (as ++ [.work {}]) = some (v.workStep {}) := by
      rw [System.run_append, hr]
      simp [System.run_cons, hs]
    have hwork : System.Along step (fun _ a => others || a.alone) w (as ++ [.work {}]) :=
      (System.along_append hr).mpr ⟨halong, by simp [Action.alone], fun _ _ => trivial⟩
    rcases hv.quiet hq with hnext | hnext
    · obtain ⟨bs, v', hb, hr', hv'⟩ := hi _ hlt hnext rfl
      refine ⟨as ++ [.work {}] ++ bs, v', (System.along_append hrun).mpr ⟨hwork, hb⟩, ?_, hv'⟩
      rw [System.run_append, hrun]
      exact hr'
    · exact ⟨_, _, hwork, hrun, hnext⟩

end Missing

section Finish

-- The operation has been aborted: whatever its receiver is called with, it is not a value.
structure Lost (op : OpId) (w : Worker) : Prop where
  pc : match w.pc with
    | .timers (.drain false) | .cpu (.drain false) | .exec (.drain false) => True
    | .io (.drain false) | .finished => True
    | _ => False
  ioSources : w.ctx.ioSources = []
  stopped : (w.ctx.ops op).completion = .stopped
  taken : op ∉ w.ctx.taken
  executed : ∀ d ∈ w.ctx.executed, d.op = op → d.completion = .stopped

theorem Lost.quiet (h : Lost op w) : Lost op (w.workStep {}) := by
  have hpc := h.pc
  split at hpc
  case h_1 hp =>
    rw [workStep, hp]
    exact ⟨trivial, h.ioSources, h.stopped, h.taken, h.executed⟩
  case h_2 hp =>
    rw [workStep, hp]
    simp only
    split
    case isTrue  => exact ⟨trivial, h.ioSources, h.stopped, h.taken, h.executed⟩
    case isFalse =>
      obtain ⟨_, _, _, he⟩ := w.ctx.fetchCpuTask_eq
      rw [he]
      exact ⟨trivial, h.ioSources, h.stopped, h.taken, h.executed⟩
  case h_3 hp =>
    rw [workStep, hp]
    simp only
    split
    case isTrue     => exact ⟨trivial, h.ioSources, h.stopped, h.taken, h.executed⟩
    case isFalse hb =>
      obtain ⟨o, l, hl⟩ := List.exists_cons_of_ne_nil hb
      rw [executeNext_quiet hl]
      refine ⟨trivial, h.ioSources, h.stopped, h.taken, ?_⟩
      simp only [Context.execute, List.forall_mem_cons]
      exact ⟨fun ho => ho ▸ h.stopped, h.executed⟩
  case h_4 hp =>
    have hidle : (w.ctx.consumeIoTasks 0).2 = false := consumeIoTasks_idle h.ioSources
    rw [workStep, hp]
    simp only [hidle, (Context.consumeIoTasks_not_found hidle).2]
    exact ⟨trivial, h.ioSources, h.stopped, h.taken, h.executed⟩
  case h_5 hp =>
    rw [workStep, hp]
    exact h
  case h_6 => exact hpc.elim

theorem Abandons.lost (h : Abandons due w) : ∃ p ∈ due, Lost p.1 (w.workStep {}) := by
  have ⟨p, hp, hi⟩ := h.left
  have ⟨htaken, hexec⟩ : p.1 ∉ w.ctx.taken ∧ p.1 ∉ w.ctx.executed.map Delivery.op := by
    have hone := h.tears.conserving.once p.1
    have hin := List.count_pos_iff.mpr hi
    simp only [Context.held, List.count_append] at hone
    rw [← List.count_eq_zero, ← List.count_eq_zero]
    omega
  have hstop := Context.abortInflightIo_stopped hi
  refine ⟨p, hp, ?_⟩
  rw [workStep, h.pc]
  simp only
  obtain ⟨_, _, he⟩ := Context.abortInflightIo_eq w.ctx
  rw [he] at hstop ⊢
  exact ⟨trivial, rfl, hstop, htaken, fun d hd hop =>
    absurd (hop ▸ List.mem_map_of_mem hd : p.1 ∈ w.ctx.executed.map Delivery.op) hexec⟩

-- The worker enters `finish`: it agrees with the kernel, and the inflight operations have not been
-- completed in any way.
structure EntersFinish (w : Worker) : Prop where
  pc : w.pc = .collect (.drain true) w.window
  agree : w.ctx.Agree
  isOpen : w.ctx.ring.isOpen
  batch : w.ctx.batch = []
  cqeTasks : w.ctx.cqeTasks = []
  value : ∀ op ∈ w.ctx.inflight, (w.ctx.ops op).completion = .value

-- Every window before the last one with a due completion gives the worker something to run.
def Covered (others : Bool) (w : Worker) : Prop :=
  w.ctx.options.covered others (marks w.ctx w.ctx.ring.cq) w.window 0 w.ctx.localTaskBudget
    (!w.ctx.localCpu.isEmpty) (!w.ctx.sharedCpu.isEmpty)

instance : Decidable (w.Covered others) :=
  inferInstanceAs (Decidable (_ = true))

theorem EntersFinish.covers_iff (h : w.EntersFinish) :
    w.Covers others w.ctx.ring.cq ↔ w.Covered others := by
  simp only [Covers, Covered, ahead, h.pc, h.cqeTasks, List.length_nil]

theorem EntersFinish.tears (h : w.EntersFinish) : w.Tears := by
  refine Conserving.tears ⟨fun _ => h.batch, h.agree.once, fun _ => h.agree, fun hp => ?_, fun hn => ?_⟩
    (.inl h.pc)
  · rw [h.pc] at hp
    cases hp
  · exact absurd h.pc (hn _ _)

theorem EntersFinish.draining (h : w.EntersFinish) (hc : w.Covered others) :
    Draining others (dues w.ctx) w.ctx.ring.cq w := by
  refine ⟨h.tears.conserving, by rw [h.pc]; rfl, h.isOpen, ⟨[], (List.append_nil _).symm⟩,
    fun p hp => ?_, h.covers_iff.mpr hc⟩
  have ⟨hin, hd⟩ := mem_dues.mp hp
  exact .waiting hin hd (h.value p.1 (h.agree.mem_inflight_of_cq hin (Context.due_eq_some.mp hd).1))

theorem EntersFinish.missing (h : w.EntersFinish) (hc : ¬w.Covered others) :
    Missing others (dues w.ctx) w :=
  ⟨h.tears, by rw [h.pc]; rfl, h.isOpen, List.Subset.refl _, fun hcov => hc (h.covers_iff.mp hcov)⟩

def FinishInv (others : Bool) (due : List (OpId × Cqe)) (w : Worker) : Prop :=
  (∃ t, Draining others due t w) ∨ Drained due w

theorem FinishInv.step (h : FinishInv others due w) (good : others || a.alone)
    (hs : step w a = some w') : FinishInv others due w' := by
  have hsub : w.Conserving ∧ w.SubmitsLooping a := by
    rcases h with ⟨t, h⟩ | h
    · exact ⟨h.conserving, tearing_submits (draining_tearing h.draining).1⟩
    · exact ⟨h.conserving, torn_submits h.torn⟩
  have hc := (hsub.1.step hsub.2 hs).1
  by_cases hw : ∃ i, a = .work i
  case pos =>
    obtain ⟨i, rfl⟩ := hw
    rcases h with ⟨t, h⟩ | h
    · obtain ⟨hg, he⟩ := Option.ite_none_right_eq_some.mp hs
      cases Option.some.inj he
      exact h.work hg.2 hc
    · exact .inr (h.work hs hc)
  case neg =>
    have hw : ∀ i, a ≠ .work i := fun i ha => hw ⟨i, ha⟩
    exact h.imp (fun ⟨t, h⟩ => ⟨t, h.outside good hs hw hc⟩) (·.outside hs hw hc)

theorem FinishInv.unique (h : FinishInv others due w) (hp : (op, cqe) ∈ due) {d : Delivery}
    (hd : d ∈ w.ctx.executed) (hop : d.op = op) : d = cqe.delivery op := by
  rcases h with ⟨t, h⟩ | h
  · exact (h.fate _ hp).unique h.agree.once (fun c hc o ho => h.mem_inflight hc ho) hd hop
  · have hfate : w.ctx.Fate [] op cqe := (h.fate _ hp).elim .done fun ht =>
      .stored (mem_ready_of_taken ht.1) ht.2
    exact hfate.unique h.conserving.once (by simp) hd hop

theorem FinishInv.delivered (h : FinishInv others due w) (hp : (op, cqe) ∈ due)
    (hw : w.pc = .finished) :
    cqe.delivery op ∈ w.ctx.executed ∨ op ∈ w.ctx.taken ∧ w.ctx.Stored op cqe := by
  rcases h with ⟨t, h⟩ | h
  · exact absurd hw (draining_tearing h.draining).2
  · exact h.fate _ hp

-- Whatever the others do, a completion that is in the CQ when `finish` starts reaches its receiver
-- unchanged: no other call is made for the operation, this one is made when `finish` is over unless
-- another worker has taken the operation with its result, and `finish` gets there once nobody
-- publishes any more. `others` tells whether there are other workers to take from the shared queues.
def Delivers (others : Bool) (w : Worker) : Prop :=
  ∀ cqe ∈ w.ctx.ring.cq, ∀ op, w.ctx.due cqe = some op →
    (∀ as w', System.Along step (fun _ a => others || a.alone) w as → System.run step w as = some w' →
      (∀ d ∈ w'.ctx.executed, d.op = op → d = cqe.delivery op) ∧
        (w'.pc = .finished →
          cqe.delivery op ∈ w'.ctx.executed ∨ op ∈ w'.ctx.taken ∧ w'.ctx.Stored op cqe)) ∧
      ∃ n w', System.run step w (List.replicate n (.work {})) = some w' ∧ w'.pc = .finished

theorem EntersFinish.delivers (hw : w.EntersFinish) (hc : w.Covered others) : w.Delivers others := by
  intro cqe hin op hd
  have hdue : (op, cqe) ∈ dues w.ctx := mem_dues.mpr ⟨hin, hd⟩
  refine ⟨fun as w' along hr => ?_, ?_⟩
  · have hinv : FinishInv others (dues w.ctx) w' :=
      along.invariant FinishInv.step (.inl ⟨_, hw.draining hc⟩) hr
    exact ⟨fun d hm hop => hinv.unique hdue hm hop, hinv.delivered hdue⟩
  · have ⟨n, w', hr, hp, _⟩ := hw.tears.ends (P := fun _ => True) trivial fun _ _ _ => trivial
    exact ⟨n, w', hr, hp⟩

-- The others take what is in the shared queue and nobody brings work: something that is due is aborted.
theorem EntersFinish.not_delivers (hw : w.EntersFinish) (hc : ¬w.Covered others) :
    ¬w.Delivers others := by
  intro hdel
  obtain ⟨as, v, halong, hr, hv⟩ := (hw.missing hc).abandons
  obtain ⟨p, hp, hlost⟩ := hv.lost
  obtain ⟨hin, hd⟩ := mem_dues.mp hp
  have hn : v.pc ≠ .finished := by simp [hv.pc]
  have hs := step_quiet (tearing_working hv.tears.tearing hn)
  obtain ⟨n, w', hr', hfin, hlost'⟩ := (hv.tears.step ⟨rfl, hn⟩ hs).1.ends hlost
    fun _ h _ => h.quiet
  have hrun : System.run step w (as ++ List.replicate (n + 1) (.work {})) = some w' := by
    rw [System.run_append, hr]
    exact (System.run_cons_eq_some _).mpr ⟨_, hs, hr'⟩
  have hwork : System.Along step (fun _ a => others || a.alone) w
      (as ++ List.replicate (n + 1) (.work {})) := by
    refine (System.along_append hr).mpr ⟨halong, .of_forall fun a ha => ?_⟩
    simp [List.eq_of_mem_replicate ha, Action.alone]
  rcases ((hdel p.2 hin p.1 hd).1 _ w' hwork hrun).2 hfin with hm | hm
  · exact absurd (hlost'.executed _ hm rfl) Completion.noConfusion
  · exact hlost'.taken hm.1

-- Completed results survive exactly in these states.
theorem delivers_iff_covered (others : Bool) (hw : w.EntersFinish) :
    w.Delivers others ↔ w.Covered others :=
  ⟨fun hd => not_not.mp fun hc => hw.not_delivers hc hd, hw.delivers⟩

-- The context is stopped; the poll of a wake channel and a read of seven bytes have completed.
def stoppedWith (cq : List Cqe) (sharedCpu : List OpId) : Worker where
  ctx := { ring := { entries := 4, kernel := [.wake .worker], cq }, inflight := [1], sharedCpu
           pollPending := fun _ => true, lifeState := true }
  pc := .collect (.drain true) 1

def readCqe : Cqe where
  userData := .operation 1
  result := 7

def wakeCqe : Cqe where
  userData := .wake .shared
  result := 1

theorem stoppedWith_entersFinish (cq : List Cqe) (h : names (cq.map Cqe.userData) = [1])
    (l : List OpId) (hl : ([1] ++ l).Nodup) : (stoppedWith cq l).EntersFinish := by
  refine ⟨rfl, ⟨fun op => ?_, fun op => ?_⟩, rfl, rfl, rfl, fun _ _ => rfl⟩
  · simpa [stoppedWith, Context.held] using List.nodup_iff_count_le_one.mp hl op
  · simp [stoppedWith, Ring.named, h]

-- With a window of one entry a completed poll ends the drain, unless there is a task in the shared
-- queue and nobody else to take it.
theorem delivers_read_after_wake_alone :
    (stoppedWith [wakeCqe, readCqe] [9]).EntersFinish ∧
      (stoppedWith [wakeCqe, readCqe] [9]).Delivers false ∧
      ¬(stoppedWith [wakeCqe, readCqe] [9]).Delivers true :=
  have h := stoppedWith_entersFinish [wakeCqe, readCqe] rfl [9] (by decide)
  ⟨h, (delivers_iff_covered false h).mpr (by decide),
    fun hd => absurd ((delivers_iff_covered true h).mp hd) (by decide)⟩

-- Without such a task the read is reported as cancelled.
theorem not_delivers_read_after_wake : (stoppedWith [wakeCqe, readCqe] []).EntersFinish ∧
    ∀ others, ¬(stoppedWith [wakeCqe, readCqe] []).Delivers others := by
  refine ⟨stoppedWith_entersFinish _ rfl [] (by decide), fun others h => ?_⟩
  have ⟨hall, _⟩ := h readCqe (by decide) 1 (by decide)
  have ⟨w', hr, hw'⟩ := Option.map_eq_some_iff.mp (by decide :
    (System.run step (stoppedWith [wakeCqe, readCqe] []) (List.replicate 12 (.work {}))).map
      (·.ctx.executed) = some [⟨1, .stopped, -ecanceled, 0⟩])
  have along : System.Along step (fun _ a => others || a.alone) (stoppedWith [wakeCqe, readCqe] [])
      (List.replicate 12 (.work {})) := by
    cases others <;> decide
  have hd := (hall _ w' along hr).1 ⟨1, .stopped, -ecanceled, 0⟩ (by simp [hw']) rfl
  exact absurd hd (by decide)

end Finish

end Worker
end Bnio.Uring
