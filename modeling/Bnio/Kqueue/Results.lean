import Bnio.Kqueue.Conservation

-- What the I/O steps of an operation have returned, and what its receiver is told.
namespace Bnio.Kqueue

-- The operation is for an I/O step: `poll` only asks for readiness.
def Request.moves : Request → Bool
  | read _ | write _       => true
  | unset | nop | poll _ _ => false

-- The event leads to `perform_io_step`.
def Event.performs (e : Event) : Task → Bool
  | .poll                => false
  | .write               => ¬(e.hasError ∧ e.data ≠ 0) ∧ ¬e.hasEof
  | .read | .none | .nop => ¬(e.hasError ∧ e.data ≠ 0)

-- The errors of the kernel are positive numbers, and an `int` can hold them.
def Event.Sound (e : Event) : Prop :=
  (e.hasError = true → 0 ≤ e.data ∧ e.data < 2 ^ 31) ∧ (e.hasEof = true → e.fflags < 2 ^ 31)

instance (e : Event) : Decidable e.Sound :=
  inferInstanceAs (Decidable (_ ∧ _))

namespace Operation

variable {o o' o'' : Operation}

-- What `execute` reads.
def outcome (o : Operation) : Request × Completion × Int :=
  (o.request, o.completion, o.result)

def Stays (o o' : Operation) : Prop :=
  o'.request = o.request ∧ o'.completion = o.completion

-- The operation is given up without an I/O step that has done something.
def Drops (o o' : Operation) : Prop :=
  o'.request = o.request ∧
    ((∃ r < 0, o'.completion = .error r) ∨ o'.completion = .stopped ∨
      o'.completion = o.completion ∧ o.request.moves = false)

theorem Stays.of_outcome (h : o'.outcome = o.outcome) : o.Stays o' := by
  simp only [outcome, Prod.mk.injEq] at h
  exact ⟨h.1, h.2.1⟩

theorem result_eq (h : o'.outcome = o.outcome) : o'.result = o.result :=
  congrArg (·.2.2) h

theorem Stays.trans (h : o.Stays o') (h' : o'.Stays o'') : o.Stays o'' :=
  ⟨h'.1.trans h.1, h'.2.trans h.2⟩

theorem Drops.stays (h : o.Drops o') (h' : o'.Stays o'') : o.Drops o'' := by
  refine ⟨h'.1.trans h.1, ?_⟩
  rw [h'.2]
  exact h.2

theorem Stays.drops (h : o.Stays o') (h' : o'.Drops o'') : o.Drops o'' := by
  refine ⟨h'.1.trans h.1, ?_⟩
  rw [← h.1, ← h.2]
  exact h'.2

theorem Drops.trans (h : o.Drops o') (h' : o'.Drops o'') : o.Drops o'' := by
  refine ⟨h'.1.trans h.1, ?_⟩
  obtain he | he | ⟨he, -⟩ := h'.2
  · exact .inl he
  · exact .inr (.inl he)
  · rw [he]
    exact h.2

end Operation

namespace Context

variable {env : Env} {s s' s'' : Context} {op : OpId} {n : Node} {X F G : List OpId}

-- `s'` is `s` after the operations of `F` have been given up and gone to the CPU queue; only they and
-- those of `X` have new records.
structure Records (s s' : Context) (X F : List OpId) : Prop where
  localCpu : s'.localCpu.Perm (F ++ s.localCpu)
  same     : ∀ {op}, op ∉ X → op ∉ F → (s'.ops op).outcome = (s.ops op).outcome
  stays    : ∀ {op}, op ∉ F → (s.ops op).Stays (s'.ops op)
  drops    : ∀ {op}, op ∈ F → (s.ops op).Drops (s'.ops op)

-- Moreover no node is filled.
structure Writes (s s' : Context) (X F : List OpId) : Prop extends Records s s' X F where
  tasks : ∀ {n}, (s'.regs n).operation.isSome →
    (s.regs n).operation.isSome ∧ (s'.regs n).task = (s.regs n).task

theorem Records.of_ops (ho : s'.ops = s.ops) (hl : s'.localCpu = s.localCpu) : s.Records s' X [] where
  localCpu := .of_eq hl
  same _ _ := by rw [ho]
  stays _  := by rw [ho]; exact ⟨rfl, rfl⟩
  drops    := by simp

theorem Records.refl : s.Records s X [] :=
  .of_ops rfl rfl

theorem Records.trans (h : s.Records s' X F) (h' : s'.Records s'' X G) : s.Records s'' X (G ++ F) where
  localCpu := by
    rw [List.append_assoc]
    exact h'.localCpu.trans (h.localCpu.append_left G)
  same hx hf := by
    obtain ⟨hg, hf⟩ := not_or.mp (mt List.mem_append.mpr hf)
    exact (h'.same hx hg).trans (h.same hx hf)
  stays hf := by
    obtain ⟨hg, hf⟩ := not_or.mp (mt List.mem_append.mpr hf)
    exact (h.stays hf).trans (h'.stays hg)
  drops {op} hf := by
    by_cases hg : op ∈ G <;> by_cases hf' : op ∈ F
    · exact (h.drops hf').trans (h'.drops hg)
    · exact (h.stays hf').drops (h'.drops hg)
    · exact (h.drops hf').stays (h'.stays hg)
    · exact absurd (List.mem_append.mp hf) (by simp [hg, hf'])

theorem Records.widen {Z : List OpId} (h : s.Records s' X F) (hz : X ⊆ Z) : s.Records s' Z F :=
  ⟨h.localCpu, fun hx hf => h.same (fun hm => hx (hz hm)) hf, h.stays, h.drops⟩

-- A record of `X` is written, its request and its completion are not.
theorem records_setOp {o : Operation} (hop : op ∈ X) (ho : (s.ops op).Stays o) :
    s.Records (s.setOp op o) X [] where
  localCpu := .refl _
  same {o'} hx _ := by
    have hne : o' ≠ op := fun he => hx (he ▸ hop)
    rw [setOp_ops, if_neg hne]
  stays {o'} _ := by
    rw [setOp_ops]
    split
    case isTrue he => exact he ▸ ho
    case isFalse   => exact ⟨rfl, rfl⟩
  drops    := by simp

-- The operation is given up.
theorem Records.give (hl : s'.localCpu = op :: s.localCpu) (hs : ∀ o ≠ op, s'.ops o = s.ops o)
    (ho : (s.ops op).Drops (s'.ops op)) : s.Records s' X [op] where
  localCpu := .of_eq hl
  same _ hf := by rw [hs _ (by simpa using hf)]
  stays hf := by
    rw [hs _ (by simpa using hf)]
    exact ⟨rfl, rfl⟩
  drops hf := List.mem_singleton.mp hf ▸ ho

namespace Writes

theorem refl : s.Writes s X [] :=
  ⟨.refl, fun h => ⟨h, rfl⟩⟩

theorem trans (h : s.Writes s' X F) (h' : s'.Writes s'' X G) : s.Writes s'' X (G ++ F) where
  toRecords := h.toRecords.trans h'.toRecords
  tasks hn := by
    obtain ⟨hn, ht⟩ := h'.tasks hn
    obtain ⟨hn, ht'⟩ := h.tasks hn
    exact ⟨hn, ht.trans ht'⟩

-- The registrations change, the records do not.
theorem of_regs (ho : s'.ops = s.ops) (hl : s'.localCpu = s.localCpu)
    (ht : ∀ n, (s'.regs n).operation.isSome →
      (s.regs n).operation.isSome ∧ (s'.regs n).task = (s.regs n).task) : s.Writes s' X [] :=
  ⟨.of_ops ho hl, ht _⟩

theorem of_body (ho : s'.ops = s.ops) (hl : s'.localCpu = s.localCpu)
    (hb : ∀ m, (s'.regs m).operation = (s.regs m).operation ∧ (s'.regs m).task = (s.regs m).task) :
    s.Writes s' X [] :=
  .of_regs ho hl fun n hn => ⟨(hb n).1 ▸ hn, (hb n).2⟩

end Writes

-- What `execute` does not read.
theorem writes_setOp {o : Operation} (ho : o.outcome = (s.ops op).outcome) :
    s.Writes (s.setOp op o) X [] where
  localCpu := .refl _
  same {o'} _ _ := by
    rw [setOp_ops]
    split
    case isTrue he => exact he ▸ ho
    case isFalse   => rfl
  stays {o'} _ := by
    rw [setOp_ops]
    split
    case isTrue he => exact he ▸ .of_outcome ho
    case isFalse   => exact ⟨rfl, rfl⟩
  drops    := by simp
  tasks hn := ⟨hn, rfl⟩

theorem writes_releaseNode : s.Writes (s.releaseNode n).1 X [] := by
  refine .of_regs releaseNode_ops releaseNode_localCpu fun m hm => ?_
  by_cases he : m = n
  case pos => simp [he, releaseNode_operation] at hm
  case neg =>
    have hb := (releaseNode_unlinks (s := s)).body he
    exact ⟨Registration.operation_eq hb ▸ hm, Registration.task_eq hb⟩

theorem writes_detachNode (s : Context) (op : OpId) (i : Nat) : s.Writes (s.detachNode op i) X [] := by
  simp only [detachNode]
  split
  case isTrue  => exact writes_releaseNode
  case isFalse => exact .refl

theorem writes_failOperation {r : Int} (hr : r < 0) : s.Writes (s.failOperation op r) X [op] where
  localCpu := .of_eq failOperation_localCpu
  same _ hf := by rw [failOperation_ops (by simpa using hf)]
  stays hf := by
    rw [failOperation_ops (by simpa using hf)]
    exact ⟨rfl, rfl⟩
  drops {o} ho := by
    obtain rfl := List.mem_singleton.mp ho
    refine ⟨?_, .inl ⟨r, hr, ?_⟩⟩ <;>
      simp [failOperation, removeInflight, completeSubmitError]
  tasks {n} hn :=
    have h₁ := (s.writes_detachNode op 0 (X := [])).trans (writes_detachNode _ op 1)
    h₁.tasks (by simpa [failOperation, removeInflight, completeSubmitError] using hn)

theorem writes_setWaitNext {v : Option Node} : s.Writes (s.setWaitNext n v) X [] :=
  .of_body rfl rfl fun _ =>
    ⟨Registration.operation_eq setWaitNext_body, Registration.task_eq setWaitNext_body⟩

theorem writes_setWaitPrev {v : Option Node} : s.Writes (s.setWaitPrev n v) X [] :=
  .of_body rfl rfl fun _ =>
    ⟨Registration.operation_eq setWaitPrev_body, Registration.task_eq setWaitPrev_body⟩

theorem writes_setArmed {b : Bool} : s.Writes (s.setArmed n b) X [] :=
  .of_body rfl rfl fun m => by by_cases hm : m = n <;> simp [setArmed, hm]

theorem writes_armRegistration (env : Env) (n : Node) : s.Writes (s.armRegistration env n).1 X [] := by
  unfold armRegistration
  dsimp only
  split
  · exact .refl
  · have hf : s.Writes (s.setFilter (s.regs n).key (s.regs n).operation) X [] :=
      .of_regs rfl rfl fun _ hm => ⟨hm, rfl⟩
    exact hf.trans writes_setArmed

-- Arming goes on until it succeeds; whoever fails is given up.
theorem writes_armQueueHead (env : Env) (fuel : Nat) (s : Context) (c : Option Node) :
    ∃ F, s.Writes (armQueueHead env fuel s c) X F := by
  induction fuel generalizing s c
  case zero         => exact ⟨[], .refl⟩
  case succ fuel hi =>
    cases c
    case none   => exact ⟨[], .refl⟩
    case some c =>
      have harm := writes_armRegistration (s := s) (X := X) env c
      simp only [armQueueHead]
      split
      case isTrue   => exact ⟨[], harm⟩
      case isFalse hs =>
        obtain ⟨F, hF⟩ := hi ((s.armRegistration env c).1.failOperation c.op (s.armRegistration env c).2)
          ((s.armRegistration env c).1.regs c).waitNext
        exact ⟨_, (harm.trans (writes_failOperation (by simpa using hs))).trans hF⟩

theorem writes_unregisterNode (env : Env) (op : OpId) (i : Nat) (s : Context) :
    ∃ F, s.Writes (s.unregisterNode env op i) X F := by
  simp only [unregisterNode]
  split
  case isFalse => exact ⟨[], .refl⟩
  case isTrue  =>
    split
    case isFalse => exact ⟨[], writes_releaseNode⟩
    case isTrue  =>
      obtain ⟨F, hF⟩ := writes_armQueueHead (X := X) env (s.releaseNode ⟨op, i⟩).1.inflight.length
        (s.releaseNode ⟨op, i⟩).1 (s.releaseNode ⟨op, i⟩).2
      exact ⟨_, writes_releaseNode.trans hF⟩

theorem writes_unregisterOperation (env : Env) (op : OpId) (s : Context) :
    ∃ F, s.Writes (s.unregisterOperation env op) X F := by
  obtain ⟨F, hF⟩ := writes_unregisterNode (X := X) env op 0 s
  obtain ⟨G, hG⟩ := writes_unregisterNode (X := X) env op 1 (s.unregisterNode env op 0)
  exact ⟨_, (hF.trans hG).trans (writes_setOp rfl)⟩

theorem writes_appendNode (env : Env) (n : Node) : s.Writes (s.appendNode env n).1 X [] := by
  unfold appendNode
  split
  · exact (writes_setWaitPrev.trans writes_setWaitNext).trans (writes_armRegistration env n)
  · exact ((writes_setWaitNext.trans writes_setWaitPrev).trans writes_setWaitNext).trans writes_setArmed

theorem writes_registerFrom (env : Env) (op : OpId) (l : List Nat) (s : Context) :
    ∃ F, s.Writes (registerFrom env op l s).1 X F := by
  induction l generalizing s
  case nil         => exact ⟨[], .refl⟩
  case cons i l hi =>
    simp only [registerFrom]
    split
    case isFalse => exact ⟨[], .refl⟩
    case isTrue  =>
      split
      case isTrue  =>
        obtain ⟨F, hF⟩ := writes_unregisterOperation (X := X) env op (s.appendNode env ⟨op, i⟩).1
        exact ⟨_, (writes_appendNode env ⟨op, i⟩).trans hF⟩
      case isFalse =>
        obtain ⟨F, hF⟩ := hi (s.appendNode env ⟨op, i⟩).1
        exact ⟨_, (writes_appendNode env ⟨op, i⟩).trans hF⟩

-- A node asks for what the request of its operation asks for.
def Tasked (s : Context) : Prop :=
  ∀ n, (s.regs n).operation.isSome → (s.regs n).task = (s.ops n.op).request.prepare.task

theorem Writes.tasked (h : s.Writes s' X F) (ht : s.Tasked) : s'.Tasked := fun n hn => by
  obtain ⟨hn, he⟩ := h.tasks hn
  have hr : (s'.ops n.op).request = (s.ops n.op).request := by
    by_cases hf : n.op ∈ F
    case pos => exact (h.drops hf).1
    case neg => exact (h.stays hf).1
  rw [he, hr]
  exact ht n hn

theorem Tasked.congr (h : s.Tasked) (hr : s'.regs = s.regs)
    (ho : ∀ op, (s'.ops op).request = (s.ops op).request) : s'.Tasked := fun n hn => by
  rw [hr, ho]
  exact h n (hr ▸ hn)

section Consume

theorem prepare_of_moves {r : Request} (h : r.moves) :
    r.prepare.filters ≠ [] ∧ r.prepare.task ≠ .nop ∧ r.prepare.task ≠ .poll := by
  cases r <;> simp_all [Request.moves, Request.prepare, Helper.prepRead, Helper.prepWrite,
    Helper.reset, Helper.appendFilter]

theorem prepareIo_prepares (s : Context) (op : OpId) :
    (∃ r < 0, s.prepareIo op = (s, r)) ∨
    (s.ops op).request.moves = false ∧
      s.prepareIo op = (s.setOp op { s.ops op with registrationCount := 0 }, 0) ∨
    s.prepareIo op = (s.withRegistrations op (s.ops op).request.prepare, 0) := by
  by_cases hn : (s.ops op).request.prepare.task = .nop
  case pos =>
    have hm : (s.ops op).request.moves = false :=
      Bool.eq_false_iff.mpr fun hm => (prepare_of_moves hm).2.1 hn
    exact (s.prepareIo_cases op).imp_right (.imp_left fun h => ⟨hm, h⟩)
  case neg =>
    simp only [prepareIo, hn, if_false]
    split
    case isTrue  => exact .inl ⟨_, by decide, rfl⟩
    case isFalse =>
      split
      case isTrue he => exact .inl ⟨_, he, rfl⟩
      case isFalse   =>
        split
        case isTrue  => exact .inl ⟨_, by decide, rfl⟩
        case isFalse => exact .inr (.inr rfl)

theorem Tasked.prepared (ht : s.Tasked) (op : OpId) :
    (s.withRegistrations op (s.ops op).request.prepare).Tasked := by
  have hreq : ∀ o, ((s.withRegistrations op (s.ops op).request.prepare).ops o).request =
      (s.ops o).request := fun o => by by_cases ho : o = op <;> simp [withRegistrations, ho]
  rintro ⟨o, i⟩ hn
  rw [hreq]
  by_cases hf : o = op ∧ i < (s.ops op).request.prepare.filters.length
  case pos =>
    obtain ⟨rfl, hi⟩ := hf
    exact withRegistrations_task hi
  case neg =>
    have hm : o ≠ op ∨ (s.ops op).request.prepare.filters.length ≤ i := by
      by_cases ho : o = op
      case pos => exact .inr (Nat.le_of_not_lt fun hi => hf ⟨ho, hi⟩)
      case neg => exact .inl ho
    rw [withRegistrations_regs hm] at hn ⊢
    exact ht _ hn

theorem records_prepared {q : Helper} : s.Records (s.withRegistrations op q) X [] where
  localCpu := .of_eq (by simp [withRegistrations, Context.setOp])
  same {o} _ _ := by by_cases ho : o = op <;> simp [withRegistrations, Operation.outcome, ho]
  stays {o} _ := by by_cases ho : o = op <;> simp [withRegistrations, Operation.Stays, ho]
  drops := by simp

theorem completeSubmitError_drops {r : Int} (hr : r < 0) :
    (s.ops op).Drops ((s.completeSubmitError op r).ops op) :=
  ⟨by simp [completeSubmitError], .inl ⟨r, hr, by simp [completeSubmitError]⟩⟩

theorem completeSubmitError_ops {r : Int} {o : OpId} (ho : o ≠ op) :
    (s.completeSubmitError op r).ops o = s.ops o := by
  simp [completeSubmitError, ho]

-- `consume_io_tasks` has taken the operation: it is registered or given up.
theorem Tasked.consume (env : Env) (op : OpId) (ht : s.Tasked) :
    ∃ F, s.Records (s.consumeOperation env op) [op] F ∧ (s.consumeOperation env op).Tasked := by
  have hr₀ : s.Records (s.setOp op { s.ops op with result := 0, flags := 0 }) [op] [] :=
    records_setOp (by simp) ⟨rfl, rfl⟩
  have ht₀ : (s.setOp op { s.ops op with result := 0, flags := 0 }).Tasked :=
    ht.congr rfl fun o => by by_cases ho : o = op <;> simp [ho]
  unfold consumeOperation prepareAndRegisterOperation
  generalize s.setOp op { s.ops op with result := 0, flags := 0 } = s₀ at *
  have hfail : ∀ {s₁ : Context} {r : Int} {F}, r < 0 → s₀.Records s₁ [op] F → s₁.Tasked →
      ∃ F, s.Records ((s₁.completeSubmitError op r).pushCpu op) [op] F ∧
        ((s₁.completeSubmitError op r).pushCpu op).Tasked := fun hr h₁ ht₁ =>
    ⟨_, (hr₀.trans h₁).trans (.give rfl (fun o ho => completeSubmitError_ops ho)
        (completeSubmitError_drops hr)),
      ht₁.congr rfl fun o => by by_cases ho : o = op <;> simp [completeSubmitError, ho]⟩
  have hpush : ∀ {s₁ : Context}, s₀.Records s₁ [op] [] → s₁.Tasked → (s₁.ops op).request.moves = false →
      ∃ F, s.Records (s₁.pushCpu op) [op] F ∧ (s₁.pushCpu op).Tasked := fun h₁ ht₁ hm =>
    ⟨_, (hr₀.trans h₁).trans (.give rfl (fun _ _ => rfl) ⟨rfl, .inr (.inr ⟨rfl, hm⟩)⟩),
      ht₁.congr rfl fun _ => rfl⟩
  obtain ⟨r, hr, hp⟩ | ⟨hm, hp⟩ | hp := s₀.prepareIo_prepares op <;> simp only [hp]
  · simp only [hr, if_true]
    exact hfail hr .refl ht₀
  · simp only [Int.lt_irrefl, if_false, setOp_ops, if_true]
    refine hpush (records_setOp (by simp) ⟨rfl, rfl⟩) (ht₀.congr rfl fun o => ?_) (by simpa using hm)
    by_cases ho : o = op <;> simp [ho]
  · have ht₁ := ht₀.prepared op
    have hr₁ : s₀.Records (s₀.withRegistrations op (s₀.ops op).request.prepare) [op] [] :=
      records_prepared
    have hcount : ((s₀.withRegistrations op (s₀.ops op).request.prepare).ops op).registrationCount =
        (s₀.ops op).request.prepare.filters.length := by simp [withRegistrations]
    have hreq : ((s₀.withRegistrations op (s₀.ops op).request.prepare).ops op).request =
        (s₀.ops op).request := by simp [withRegistrations]
    simp only [Int.lt_irrefl, if_false]
    split
    case isTrue hc =>
      refine hpush hr₁ ht₁ ?_
      rw [hreq]
      refine Bool.eq_false_iff.mpr fun hm => (prepare_of_moves hm).1 ?_
      exact List.length_eq_zero_iff.mp (hcount ▸ hc)
    case isFalse =>
      generalize s₀.withRegistrations op (s₀.ops op).request.prepare = p at hr₁ ht₁ ⊢
      obtain ⟨F, hF⟩ := writes_registerFrom (X := [op]) env op [0, 1] p
      have ht₂ := hF.tasked ht₁
      have hr₂ := hr₁.trans hF.toRecords
      simp only [registerOperation]
      by_cases hr : (registerFrom env op [0, 1] p).2 < 0
      case pos =>
        simp only [hr, if_true]
        exact hfail hr hr₂ ht₂
      case neg =>
        have hadd : ∀ {s₂ : Context}, s₂.Tasked → s₂.Records (s₂.addInflight op) [op] [] ∧
            (s₂.addInflight op).Tasked := fun ht => by
          unfold addInflight
          split
          case isTrue  => exact ⟨.refl, ht⟩
          case isFalse => exact ⟨.of_ops rfl rfl, ht.congr rfl fun _ => rfl⟩
        simp only [hr, if_false, if_true]
        exact ⟨_, (hr₀.trans hr₂).trans (hadd ht₂).1, (hadd ht₂).2⟩

theorem Tasked.consumeList (env : OpId → Env) (l : List OpId) (h : s.Tasked) :
    let s' := l.foldl (fun s op => s.consumeOperation (env op) op) s
    ∃ F, s.Records s' l F ∧ s'.Tasked := by
  induction l generalizing s
  case nil          => exact ⟨[], .refl, h⟩
  case cons op l hi =>
    obtain ⟨F, hr, ht⟩ := h.consume (env op) op
    obtain ⟨G, hr', ht'⟩ := hi ht
    exact ⟨_, (hr.widen (by simp)).trans (hr'.widen (by simp)), ht'⟩

end Consume

section Stop

theorem records_stopOperation : s.Records (s.stopOperation op) X [op] := by
  refine .give rfl (fun o ho => ?_) ⟨?_, .inr (.inl ?_)⟩ <;>
    simp_all [stopOperation, completeSubmitStopped]

theorem records_stopList (s : Context) (l : List OpId) :
    s.Records (s.drainIoListCompleteStopped l) X l.reverse := by
  induction l generalizing s
  case nil          => exact .refl
  case cons op l hi =>
    rw [List.reverse_cons]
    exact records_stopOperation.trans (hi (s.stopOperation op))

theorem Tasked.stopList (l : List OpId) (h : s.Tasked) : (s.drainIoListCompleteStopped l).Tasked := by
  induction l generalizing s
  case nil          => exact h
  case cons op l hi =>
    refine hi (s := s.stopOperation op) (h.congr rfl fun o => ?_)
    by_cases ho : o = op <;> simp [stopOperation, completeSubmitStopped, ho]

theorem abortOperation_ops {o : OpId} :
    (s.abortOperation op).ops o = if o = op then
      { s.ops op with registrationCount := 0, result := -ecanceled, completion := .stopped }
    else s.ops o := by
  by_cases ho : o = op <;> simp [abortOperation, completeSubmitStopped, ho]

theorem records_abortOperation : s.Records (s.abortOperation op) X [op] := by
  refine .give (abort_fold_localCpu (l := [op])) (fun o ho => ?_) ⟨?_, .inr (.inl ?_)⟩ <;>
    simp_all [abortOperation_ops]

theorem Tasked.abortOperation (h : s.Tasked) : (s.abortOperation op).Tasked := fun n hn => by
  obtain hr | hr := abortOperation_regs_cases (m := n) s op
  · rw [hr] at hn ⊢
    rw [h n hn, abortOperation_ops]
    by_cases ho : n.op = op <;> simp [ho]
  · simp [hr] at hn

theorem records_abortList (s : Context) (l : List OpId) :
    s.Records (l.foldl Context.abortOperation s) X l.reverse := by
  induction l generalizing s
  case nil          => exact .refl
  case cons op l hi =>
    rw [List.reverse_cons]
    exact records_abortOperation.trans (hi (s.abortOperation op))

theorem Tasked.abortList (l : List OpId) (h : s.Tasked) : (l.foldl Context.abortOperation s).Tasked := by
  induction l generalizing s
  case nil          => exact h
  case cons op l hi => exact hi h.abortOperation

theorem records_abortInflightIo : s.Records s.abortInflightIo X s.inflight.reverse :=
  have h₀ : s.Records { s with inflight := [] } X [] := .of_ops rfl rfl
  List.append_nil s.inflight.reverse ▸ h₀.trans (records_abortList { s with inflight := [] } s.inflight)

theorem Tasked.abortInflightIo (h : s.Tasked) : s.abortInflightIo.Tasked :=
  .abortList s.inflight (h.congr rfl fun _ => rfl)

end Stop

section Process

variable {e : Event}

-- What the I/O step of an event returns, if the event leads to one.
def steps (env : Env) (e : Event) (op : OpId) (task : Task) : List Int :=
  if e.performs task ∧ env.ownsIoStep op then [env.performIo op] else []

-- The operation is completed by its I/O step, or by an event that is no success of one.
def Answers (task : Task) (calls : List Int) (result : Int) : Prop :=
  (result ≠ -eagain ∧ calls = [result]) ∨ (∀ r ∈ calls, r = -eagain) ∧ (task ≠ .poll → result < 0)

theorem answers_failed {task : Task} {r : Int} (hr : r < 0) : Answers task [] r :=
  .inr ⟨by simp, fun _ => hr⟩

theorem performIoStep_steps {task : Task} (hp : e.performs task) :
    (steps env e op task = [-eagain] ∧ s.performIoStep env op n =
      let r := (s.setResult op (-eagain)).tryRearmOperation env op n
      (r.1, !r.2)) ∨
    ∃ r, s.performIoStep env op n = (s.setResult op r, true) ∧ Answers task (steps env e op task) r := by
  by_cases hb : env.blocks op
  case pos =>
    obtain ⟨ho, hr⟩ : env.ownsIoStep op = true ∧ env.performIo op = -eagain := by
      simpa [Env.blocks] using hb
    exact .inl ⟨by simp [steps, hp, ho, hr], performIoStep_of_blocks hb⟩
  case neg =>
    cases ho : env.ownsIoStep op
    case false =>
      refine .inr ⟨-eopnotsupp, by simp [performIoStep, ho, eopnotsupp, eagain], ?_⟩
      simp only [steps, ho, Bool.false_eq_true, and_false, if_false]
      exact answers_failed (by decide)
    case true  =>
      have hr : env.performIo op ≠ -eagain := by simpa [Env.blocks, ho] using hb
      refine .inr ⟨env.performIo op, by simp [performIoStep, ho, hr], .inl ⟨hr, ?_⟩⟩
      simp [steps, hp, ho]

-- An event makes its operation wait again, or completes it.
theorem dispatch_steps (s : Context) (env : Env) (op : OpId) (n : Node) (he : e.Sound) :
    (steps env e op (s.regs n).task = [-eagain] ∧ s.dispatchEventResult env op n e =
      let r := (s.setResult op (-eagain)).tryRearmOperation env op n
      (r.1, !r.2)) ∨
    ∃ r, s.dispatchEventResult env op n e = (s.setResult op r, true) ∧
      Answers (s.regs n).task (steps env e op (s.regs n).task) r := by
  have herror : ∀ {task : Task}, e.performs task = false → steps env e op task = [] := fun h => by
    simp [steps, h]
  have hdata : e.hasError = true ∧ e.data ≠ 0 → -toInt e.data < 0 := fun ⟨h, hd⟩ => by
    have ⟨h₀, hlt⟩ := he.1 h
    rw [toInt_of_lt h₀ hlt]
    omega
  unfold dispatchEventResult
  cases ht : (s.regs n).task
  case poll =>
    rw [herror (by rfl)]
    exact .inr ⟨_, rfl, .inr ⟨by simp, fun h => absurd rfl h⟩⟩
  case write =>
    simp only [dispatchWriteResult]
    split
    case isTrue hd =>
      rw [herror (by simp [Event.performs, hd])]
      exact .inr ⟨_, rfl, answers_failed (hdata hd)⟩
    case isFalse hd =>
      split
      case isTrue hf =>
        rw [herror (by simp [Event.performs, hf])]
        refine .inr ⟨_, rfl, answers_failed ?_⟩
        have hlt := he.2 hf
        split
        · decide
        · rw [toInt_of_lt (by omega) (by omega)]
          omega
      case isFalse hf =>
        exact performIoStep_steps (decide_eq_true ⟨hd, by simpa using hf⟩)
  all_goals
    simp only [dispatchReadResult]
    split
    case isTrue hd =>
      rw [herror (by simp [Event.performs, hd])]
      exact .inr ⟨_, rfl, answers_failed (hdata hd)⟩
    case isFalse hd => exact performIoStep_steps (decide_eq_true hd)

theorem Records.setResult (r : Int) (h : s.Records s' [op] F) : s.Records (s'.setResult op r) [op] F :=
  h.trans (records_setOp (o := { s'.ops op with result := r }) (List.mem_singleton_self op) ⟨rfl, rfl⟩)

theorem Tasked.setResult (op : OpId) (r : Int) (h : s.Tasked) : (s.setResult op r).Tasked :=
  h.congr rfl fun o => by by_cases ho : o = op <;> simp [Context.setResult, ho]

theorem writes_fire (s : Context) (n : Node) :
    s.Writes (((s.evDelete (s.regs n).key).setArmed n false).unlinkNode n).1 X [] := by
  have hdelete : s.Writes (s.evDelete (s.regs n).key) X [] := .of_regs rfl rfl fun _ hm => ⟨hm, rfl⟩
  have hunlink : ∀ {s : Context}, s.Writes (s.unlinkNode n).1 X [] := .of_body unlinkNode_ops
    unlinkNode_localCpu fun _ => ⟨Registration.operation_eq unlinkNode_body,
      Registration.task_eq unlinkNode_body⟩
  exact (hdelete.trans writes_setArmed).trans hunlink

-- What `process_event` makes of the I/O step of an event: it is the answer to a completed operation,
-- and an operation that waits again has been told to.
def Settles (s : Context) (n : Node) (calls : List Int) (r : Context × Bool) : Prop :=
  if r.2 then Answers (s.regs n).task calls (r.1.ops n.op).result else ∀ c ∈ calls, c = -eagain

theorem settles_complete {s₁ : Context} {calls : List Int} {r : Int} (h : s.Records s₁ [n.op] F)
    (ht : s₁.Tasked) (hr : (s₁.ops n.op).result = r) (ha : Answers (s.regs n).task calls r) :
    let s' := (s₁.unregisterOperation env n.op).removeInflight n.op
    ∃ F, s.Records s' [n.op] F ∧ s'.Tasked ∧ (n.op ∉ F → s.Settles n calls (s', true)) := by
  obtain ⟨G, hG⟩ := writes_unregisterOperation (X := []) env n.op s₁
  have hremove : ∀ {s : Context}, s.Records (s.removeInflight n.op) [] [] := .of_ops rfl rfl
  have hend := hG.toRecords.trans hremove
  refine ⟨_, h.trans (hend.widen (by simp)), (hG.tasked ht).congr rfl fun _ => rfl, fun hf => ?_⟩
  have ho : (((s₁.unregisterOperation env n.op).removeInflight n.op).ops n.op).outcome =
      (s₁.ops n.op).outcome := hend.same (by simp) fun hm => hf (List.mem_append_left _ hm)
  simp only [Settles, if_true]
  rwa [Operation.result_eq ho, hr]

theorem Threaded.settles (env : Env) (h : s.Threaded []) (ha : (s.regs n).armed) (he : e.Sound)
    (ht : s.Tasked) :
    let r := s.processFired env e n.op n
    ∃ F, s.Records r.1 [n.op] F ∧ r.1.Tasked ∧
      (n.op ∉ F → s.Settles n (steps env e n.op (s.regs n).task) r) := by
  have hnext : (((s.evDelete (s.regs n).key).setArmed n false).unlinkNode n).2 =
      (s.regs n).waitNext := by simp [unlinkNode_snd, setArmed]
  obtain ⟨L, hl⟩ := h.leave env ha
  have hw := s.writes_fire n (X := [n.op])
  simp only [Context.processFired, hnext]
  generalize (((s.evDelete (s.regs n).key).setArmed n false).unlinkNode n).1 = s₁ at hl hw ⊢
  obtain ⟨F, hF⟩ := writes_armQueueHead (X := [n.op]) env s₁.inflight.length s₁ (s.regs n).waitNext
  replace hw := hw.trans hF
  generalize Context.armQueueHead env s₁.inflight.length s₁ (s.regs n).waitNext = s₂ at hl hw ⊢
  have htask : ((s₂.setOp n.op { s₂.ops n.op with flags := e.flags }).regs n).task = (s.regs n).task :=
    hl.task
  replace hw := hw.trans (writes_setOp (o := { s₂.ops n.op with flags := e.flags }) rfl)
  generalize s₂.setOp n.op { s₂.ops n.op with flags := e.flags } = s₃ at hw htask ⊢
  have hresult : ∀ {s : Context} {r : Int}, ((s.setResult n.op r).ops n.op).result = r := by
    simp [setResult]
  obtain ⟨hs, hd⟩ | ⟨r, hd, hans⟩ := s₃.dispatch_steps env n.op n he <;>
    rw [htask] at * <;> simp only [hd]
  · have hr₄ := hw.toRecords.setResult (-eagain)
    have ht₄ := (hw.tasked ht).setResult n.op (-eagain)
    generalize s₃.setResult n.op (-eagain) = s₄ at hr₄ ht₄ ⊢
    have happ := writes_appendNode (s := s₄) (X := [n.op]) env n
    have hr₅ := hr₄.trans happ.toRecords
    have ht₅ := happ.tasked ht₄
    simp only [tryRearmOperation]
    by_cases hst : (s₄.appendNode env n).2 ≥ 0
    case pos =>
      simp only [hst, if_true, Bool.not_true, Bool.false_eq_true, if_false]
      refine ⟨_, hr₅, ht₅, fun _ => ?_⟩
      simp [Settles, hs]
    case neg =>
      simp only [hst, if_false, Bool.not_false, if_true]
      refine settles_complete (hr₅.setResult _) (ht₅.setResult _ _) hresult
        (.inr ⟨by simp [hs], fun _ => ?_⟩)
      omega
  · simp only [if_true]
    exact settles_complete (hw.toRecords.setResult r) ((hw.tasked ht).setResult _ r) hresult hans

end Process

end Context
end Bnio.Kqueue
