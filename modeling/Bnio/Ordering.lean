import Bnio.Kqueue.Conservation
import Bnio.Uring.Drain

namespace Bnio

section Lists

variable {α : Type*} {l : List α} {k : Nat}

-- Only a list of at most one element starts like its reverse.
theorem take_prefix_reverse_iff (hd : l.Nodup) :
    l.take k <+: l.reverse ↔ (0 < k → l.length ≤ 1) := by
  constructor
  · rintro ⟨t, ht⟩ hk
    obtain _ | ⟨a, l⟩ := l
    case nil  => simp
    case cons =>
      obtain _ | k := k
      case zero => omega
      case succ =>
        -- the first element is the last one as well
        rw [List.take_succ_cons, List.cons_append, List.reverse_cons] at ht
        have ha : (l.reverse ++ [a]).head? = some a := ht ▸ rfl
        cases hl : l.reverse
        case nil      => simp [List.reverse_eq_nil_iff.mp hl]
        case cons b m =>
          rw [hl, List.cons_append, List.head?_cons] at ha
          have hb : a ∈ l := by
            rw [← List.mem_reverse, hl, Option.some.inj ha]
            exact List.mem_cons_self
          exact absurd hb (List.nodup_cons.mp hd).1
  · intro h
    by_cases hk : 0 < k
    case neg => simp [Nat.eq_zero_of_not_pos hk]
    case pos =>
      have hr : l.reverse = l := by
        match l, h hk with
        | [],  _ => rfl
        | [_], _ => rfl
      rw [hr]
      exact List.take_prefix k l

theorem reverse_eq_self_iff (hd : l.Nodup) : l.reverse = l ↔ l.length ≤ 1 := by
  have h := take_prefix_reverse_iff (k := l.length + 1) hd
  rw [List.take_of_length_le (Nat.le_succ _)] at h
  have hp : l.reverse = l → l <+: l.reverse := fun he => by simp only [he, List.prefix_rfl]
  refine ⟨fun he => h.mp (hp he) (Nat.succ_pos _), fun hl => ?_⟩
  exact ((h.mpr fun _ => hl).eq_of_length List.length_reverse.symm).symm

theorem filter_mem_take_append [DecidableEq α] {a b c : List α} (h : (a ++ b ++ c).Nodup) :
    ((a ++ b ++ c).take k).filter (· ∈ b) = b.take (k - a.length) ∧
      ((a ++ b ++ c).take k).filter (· ∈ c) = c.take (k - (a ++ b).length) := by
  have ⟨hab, _, habc⟩ := List.nodup_append.mp h
  have ⟨_, _, hd⟩ := List.nodup_append.mp hab
  have hnone : ∀ {l m : List α} {n}, (∀ x ∈ l, ∀ y ∈ m, x ≠ y) → (l.take n).filter (· ∈ m) = [] := by
    intro l m n hlm
    refine List.filter_eq_nil_iff.mpr fun x hx hm => ?_
    exact hlm x (List.mem_of_mem_take hx) x (by simpa using hm) rfl
  have hall : ∀ {m : List α} {n}, (m.take n).filter (· ∈ m) = m.take n := fun {m n} =>
    List.filter_eq_self.mpr fun x hx => by simpa using List.mem_of_mem_take hx
  constructor
  · rw [List.take_append, List.take_append, List.filter_append, List.filter_append, hnone hd, hall,
      hnone fun x hx y hy => (habc y (by simp [hy]) x hx).symm]
    simp
  · rw [List.take_append, List.filter_append, hnone habc, hall, List.nil_append]

end Lists

namespace Kqueue.Context

variable {env : Env} {s : Context} {op : OpId}

theorem registerFrom_inflight_sublist {l : List Nat} :
    (registerFrom env op l s).1.inflight.Sublist s.inflight := by
  induction l generalizing s
  case nil         => exact .refl _
  case cons i l hi =>
    have ha : ∀ n, (s.appendNode env n).1.inflight = s.inflight := fun n => by
      simp only [appendNode, armRegistration]
      split
      · split <;> rfl
      · rfl
    simp only [registerFrom]
    split
    case isFalse => exact .refl _
    case isTrue  =>
      rw [← ha ⟨op, i⟩]
      split
      case isTrue  => exact unregisterOperation_inflight_sublist
      case isFalse => exact hi

-- The inflight list is read from the operation registered last.
theorem consumeOperation_inflight_sublist :
    (s.consumeOperation env op).inflight.Sublist (op :: s.inflight) := by
  have hp : ∀ s : Context, (s.prepareIo op).1.inflight = s.inflight := fun s => by
    obtain ⟨r, _, h⟩ | h | h := prepareIo_cases s op <;> rw [h]
    · rfl
    · simp [withRegistrations]
  have hr : (∀ s : Context, (s.prepareAndRegisterOperation env op).1.inflight.Sublist
      (op :: s.inflight)) := fun s => by
    unfold prepareAndRegisterOperation
    have hq := hp s
    generalize s.prepareIo op = r at hq
    obtain ⟨s₁, prepared⟩ := r
    dsimp only at hq ⊢
    have hreg : (s₁.registerOperation env op).1.inflight.Sublist s₁.inflight :=
      registerFrom_inflight_sublist
    rw [← hq]
    split
    · exact List.sublist_cons_self _ _
    · split
      · exact List.sublist_cons_self _ _
      · split
        · exact hreg.trans (List.sublist_cons_self _ _)
        · simp only [addInflight]
          split
          · exact hreg.trans (List.sublist_cons_self _ _)
          · exact hreg.cons_cons op
  simp only [consumeOperation]
  split
  · exact hr (s.setOp op { s.ops op with result := 0, flags := 0 })
  · exact hr (s.setOp op { s.ops op with result := 0, flags := 0 })

theorem consume_fold_inflight_sublist {l : List OpId} (env : OpId → Env) :
    (l.foldl (fun s op => s.consumeOperation (env op) op) s).inflight.Sublist
      (l.reverse ++ s.inflight) := by
  induction l generalizing s
  case nil          => exact .refl _
  case cons op l hi =>
    rw [List.foldl_cons, List.reverse_cons, List.append_assoc, List.singleton_append]
    exact hi.trans (consumeOperation_inflight_sublist.append_left l.reverse)

end Kqueue.Context

namespace Kqueue.Worker

variable {w : Worker} {env : OpId → Env} {events : List (Event × Env)}

-- The queue a pass of `consume_io_tasks` takes. It is read from its head, the last publication.
def taken (w : Worker) : List OpId :=
  if w.localIo ≠ [] then w.localIo else w.sharedIo

-- The operations a pass registers come in the order of their publication.
def RegistersInOrder (w : Worker) (env : OpId → Env) : Prop :=
  ((w.consumeIoTasks env).1.ctx.inflight.filter (· ∈ w.taken)).reverse.Sublist w.taken.reverse

theorem registersInOrder (hk : w.Kept) : w.RegistersInOrder env := by
  have hd : w.ctx.inflight.filter (· ∈ w.taken) = [] := by
    refine List.filter_eq_nil_iff.mpr fun op hop ht => ?_
    have hn := (List.nodup_append.mp (held_eq ▸ hk.nodup)).1
    rw [waiting, List.append_assoc] at hn
    refine (List.nodup_append.mp hn).2.2 op hop op ?_ rfl
    have ht : op ∈ w.taken := by simpa using ht
    unfold taken at ht
    split at ht <;> simp [ht]
  unfold RegistersInOrder consumeIoTasks
  split
  case isTrue =>
    -- nothing is registered any more
    obtain ⟨h₁, h₂, _⟩ := hk.threaded.stopList (l := w.localIo)
    obtain ⟨_, h₃, _⟩ := h₁.stopList (l := w.sharedIo)
    have hi : w.stopQueuedIo.ctx.inflight = w.ctx.inflight := h₃.trans h₂
    simp [hi, hd]
  case isFalse =>
    obtain ⟨v, hpop, hc⟩ : ∃ v, w.popIo = (v, w.taken) ∧ v.ctx = w.ctx := by
      unfold popIo taken
      split <;> exact ⟨_, rfl, rfl⟩
    have hs := Context.consume_fold_inflight_sublist (l := w.taken.reverse) (s := w.ctx) env
    have hf := hs.filter (· ∈ w.taken)
    have hself : w.taken.filter (· ∈ w.taken) = w.taken :=
      List.filter_eq_self.mpr fun _ h => by simpa using h
    rw [List.reverse_reverse, List.filter_append, hself, hd, List.append_nil] at hf
    simp only [hpop, hc]
    exact List.reverse_sublist.mpr hf

-- The events of one `kevent` call go to `process_event` one by one.
def processEvents (w : Worker) (events : List (Event × Env)) : Worker :=
  events.foldl (fun w e => w.processEvent e.2 e.1) w

-- The operations these events complete, in the order the kernel has reported them.
def completions : Worker → List (Event × Env) → List OpId
  | _, []      => []
  | w, e :: es => Context.completedTask e.1 (w.ctx.processEvent e.2 e.1).2 ++
    completions (w.processEvent e.2 e.1) es

-- One of the CPU queues hands out the completed operations, behind what it has handed out before, in
-- the order of `completions`.
def ExecutesInOrder (w : Worker) (events : List (Event × Env)) : Prop :=
  let before := w.processEvents events
  let dispatched := before.dispatchEventTasks
  dispatched.sharedCpu = before.sharedCpu ∧
      { dispatched with sharedCpu := [] }.fetchCpuTask.batch =
        before.ctx.localCpu.reverse ++ w.completions events ∨
    dispatched.ctx.localCpu = before.ctx.localCpu ∧
      { dispatched with ctx := { dispatched.ctx with localCpu := [] } }.fetchCpuTask.batch =
        before.sharedCpu.reverse ++ w.completions events

theorem processEvent_tasks (e : Event) (env : Env) : (w.processEvent env e).tasks =
    Context.completedTask e (w.ctx.processEvent env e).2 ++ w.tasks := by
  simp only [processEvent, Context.completedTask]
  cases (w.ctx.processEvent env e).2 <;> cases e.udata <;> rfl

theorem processEvents_tasks :
    (w.processEvents events).tasks = (w.completions events).reverse ++ w.tasks := by
  have hone : ∀ (e : Event) b, (Context.completedTask e b).reverse = Context.completedTask e b := by
    intro e b
    cases b <;> cases h : e.udata.op? <;> simp [Context.completedTask, h]
  induction events generalizing w
  case nil          => rfl
  case cons e es hi =>
    rw [processEvents, List.foldl_cons, ← processEvents, hi, processEvent_tasks, completions,
      List.reverse_append, hone, List.append_assoc]

theorem fetchCpuTask_local : { w with sharedCpu := [] }.fetchCpuTask.batch = w.ctx.localCpu.reverse := by
  unfold fetchCpuTask
  split
  case isTrue    => rfl
  case isFalse h => simpa using not_not.mp h

theorem fetchCpuTask_shared : { w with ctx := { w.ctx with localCpu := [] } }.fetchCpuTask.batch =
    w.sharedCpu.reverse := by
  simp [fetchCpuTask]

theorem executesInOrder (ht : w.tasks = []) : w.ExecutesInOrder events := by
  have hk : (w.processEvents events).tasks = (w.completions events).reverse := by
    rw [processEvents_tasks, ht, List.append_nil]
  simp only [ExecutesInOrder, fetchCpuTask_local, fetchCpuTask_shared]
  generalize w.processEvents events = c at hk
  simp only [dispatchEventTasks, pushCpuTasks, hk, Context.pushCpuList_eq, List.reverse_reverse]
  split
  · exact .inl ⟨rfl, by simp⟩
  · split
    · split <;> exact .inl ⟨rfl, by simp⟩
    · split
      · exact .inl ⟨rfl, by simp⟩
      · exact .inr ⟨rfl, by simp⟩

end Kqueue.Worker

namespace Uring.Context

variable {s : Context} {cqes : List (Cqe × Int)}

-- The operations a pass of `consume_io_tasks` puts in the SQ, from the first one on.
def prepareOrder (s : Context) : List OpId :=
  (s.preparePass.ctx.ring.sq.drop s.ring.sq.length).filterMap UserData.op?

-- The operations of a queue are prepared in the order of their publication: the SQ gets the first
-- ones. The queues are read from their heads, the last publications.
def PreparesInOrder (s : Context) : Prop :=
  ∀ q ∈ [s.localIo, s.sharedIo], s.prepareOrder.filter (· ∈ q) <+: q.reverse

-- A queue of which the pass prepares something holds no more than one operation.
def Lone (s : Context) : Prop :=
  s.ring.isOpen →
    (s.pendingIoRetry.length < s.room → s.localIo.length ≤ 1) ∧
    (s.pendingIoRetry.length + s.localIo.length < s.room → s.sharedIo.length ≤ 1)

theorem prepareOrder_eq : s.prepareOrder = s.preparePass.prepared.reverse := by
  have hop : UserData.op? ∘ UserData.operation = some := rfl
  rw [prepareOrder, (preparePass_of s).sq, List.drop_left, List.filterMap_map, hop,
    List.filterMap_some]

theorem preparesInOrder_iff (hd : s.ioSources.Nodup) : s.PreparesInOrder ↔ s.Lone := by
  simp only [PreparesInOrder, Lone, List.forall_mem_cons, List.not_mem_nil, false_imp_iff,
    implies_true, and_true]
  cases ho : s.ring.isOpen
  case false =>
    have hp : s.preparePass.prepared = [] := preparePass_prepared_eq_nil.mpr (.inl ho)
    simp [prepareOrder_eq, hp]
  case true =>
    have ⟨hl, hs⟩ := filter_mem_take_append (k := s.room) hd
    have ⟨hd', hds, _⟩ := List.nodup_append.mp hd
    have hdl := (List.nodup_append.mp hd').2.1
    rw [prepareOrder_eq, (preparePass_filled ho).prepared, List.reverse_reverse, ioSources, hl, hs,
      take_prefix_reverse_iff hdl, take_prefix_reverse_iff hds, Nat.sub_pos_iff_lt, Nat.sub_pos_iff_lt,
      List.length_append]
    simp

-- The CQEs of one collecting pass, each with the answer to a submit its re-arming may need.
def collectCqes (s : Context) (cqes : List (Cqe × Int)) : Context :=
  cqes.foldl (fun s c => s.collectCqe c.1 c.2) s

-- The operations these CQEs complete, in the order the kernel has posted them.
def completions (s : Context) (cqes : List (Cqe × Int)) : List OpId :=
  cqes.filterMap fun c => s.due c.1

-- One of the CPU queues hands out the completed operations, behind what it has handed out before, in
-- the order of `completions`.
def ExecutesInOrder (s : Context) (cqes : List (Cqe × Int)) : Prop :=
  let before := s.collectCqes cqes
  let dispatched := before.dispatchCqeTasks
  dispatched.sharedCpu = before.sharedCpu ∧
      { dispatched with sharedCpu := [] }.fetchCpuTask.batch =
        before.localCpu.reverse ++ s.completions cqes ∨
    dispatched.localCpu = before.localCpu ∧
      { dispatched with localCpu := [] }.fetchCpuTask.batch =
        before.sharedCpu.reverse ++ s.completions cqes

theorem collectCqe_rearm (cqe : Cqe) (answer : Int) (op : OpId) :
    ((s.collectCqe cqe answer).ops op).rearmOnEagain = (s.ops op).rearmOnEagain := by
  unfold collectCqe
  cases cqe.userData
  case wake c =>
    dsimp only
    have h : Arms { s with pollPending := Function.update s.pollPending c false } c answer
      (armWakePoll { s with pollPending := Function.update s.pollPending c false } c answer) :=
      armWakePoll_arms
    generalize armWakePoll _ c answer = p at h ⊢
    cases h <;> rfl
  case operation o =>
    have hu : ∀ v : Operation, v.rearmOnEagain = (s.ops o).rearmOnEagain →
        (Function.update s.ops o v op).rearmOnEagain = (s.ops op).rearmOnEagain := by
      intro v hv
      by_cases ho : op = o
      case pos => simpa [ho] using hv
      case neg => simp [ho]
    simp only [enqueueCqeTask]
    split <;> exact hu _ rfl

theorem collectCqes_cqeTasks :
    (s.collectCqes cqes).cqeTasks = (s.completions cqes).reverse ++ s.cqeTasks := by
  induction cqes generalizing s
  case nil          => rfl
  case cons c cs hi =>
    have hc : (s.collectCqe c.1 c.2).completions cs = s.completions cs := by
      simp only [completions, due, collectCqe_rearm]
    have hs : s.completions (c :: cs) = (s.due c.1).toList ++ s.completions cs := by
      rw [completions, List.filterMap_cons]
      split
      case h_1 hd => rw [hd]; rfl
      case h_2 hd => rw [hd]; rfl
    have hone : (s.due c.1).toList.reverse = (s.due c.1).toList := by
      cases s.due c.1 <;> rfl
    rw [collectCqes, List.foldl_cons, ← collectCqes, hi, hc, (collectCqe_collects s c.1 c.2).cqeTasks,
      hs, List.reverse_append, hone, List.append_assoc]

theorem fetchCpuTask_local : { s with sharedCpu := [] }.fetchCpuTask.batch = s.localCpu.reverse := by
  unfold fetchCpuTask
  split
  case isTrue    => rfl
  case isFalse h => simpa using not_not.mp h

theorem fetchCpuTask_shared : { s with localCpu := [] }.fetchCpuTask.batch = s.sharedCpu.reverse := by
  simp [fetchCpuTask]

theorem executesInOrder_iff (ht : s.cqeTasks = []) (hd : (s.completions cqes).Nodup) :
    s.ExecutesInOrder cqes ↔ (s.completions cqes).length ≤ 1 := by
  have hk : (s.collectCqes cqes).cqeTasks = (s.completions cqes).reverse := by
    rw [collectCqes_cqeTasks, ht, List.append_nil]
  rw [← reverse_eq_self_iff hd]
  simp only [ExecutesInOrder, fetchCpuTask_local, fetchCpuTask_shared]
  generalize s.completions cqes = l at hk
  generalize s.collectCqes cqes = c at hk
  have hnil : l = [] → l.reverse = l := by rintro rfl; rfl
  simp only [dispatchCqeTasks, hk, pushCpuList_eq, List.reverse_reverse,
    List.foldl_flip_cons_eq_append']
  split
  · simpa using hnil
  · split
    · split <;> simpa using hnil
    · simpa using hnil

end Uring.Context

instance {s : Uring.Context} : Decidable s.PreparesInOrder :=
  inferInstanceAs (Decidable (∀ q ∈ _, _))

instance {s : Uring.Context} {cqes : List (Uring.Cqe × Int)} : Decidable (s.ExecutesInOrder cqes) :=
  inferInstanceAs (Decidable (_ ∨ _))

-- A kqueue worker registers what it takes and executes what has completed in order, in every state it
-- reaches. An io_uring worker does so when every queue it prepares from holds one operation and a
-- batch of CQEs completes one operation, at most.
theorem same_order_iff (options : Kqueue.Options) (hasShared : Bool) (as : List Kqueue.WorkerAction)
    {k : Kqueue.Worker} (hk : System.run Kqueue.Worker.step (.init options hasShared) as = some k)
    (ht : k.tasks = []) (env : Kqueue.OpId → Kqueue.Env) (events : List (Kqueue.Event × Kqueue.Env))
    {s : Uring.Context} (hs : s.ioSources.Nodup) (hc : s.cqeTasks = [])
    (cqes : List (Uring.Cqe × Int)) (hd : (s.completions cqes).Nodup) :
    (k.RegistersInOrder env ∧ k.ExecutesInOrder events) ∧
      (s.PreparesInOrder ∧ s.ExecutesInOrder cqes ↔
        s.Lone ∧ (s.completions cqes).length ≤ 1) := by
  have hkept : k.Kept :=
    System.invariant (fun h hs => (h.next hs).1) (Kqueue.Worker.init_kept options hasShared) hk
  refine ⟨⟨Kqueue.Worker.registersInOrder hkept, Kqueue.Worker.executesInOrder ht⟩, ?_⟩
  exact and_congr (Uring.Context.preparesInOrder_iff hs) (Uring.Context.executesInOrder_iff hc hd)

-- One operation is queued and one CQE comes in.
theorem same_order_of_one :
    let s : Uring.Context := { ring := { entries := 4 }, sharedIo := [1] }
    let cqes : List (Uring.Cqe × Int) := [({ userData := .operation 2 }, 0)]
    s.PreparesInOrder ∧ s.ExecutesInOrder cqes := by
  refine (same_order_iff {} true [] rfl rfl (fun _ => {}) [] (by decide) rfl _ (by decide)).2.mpr
    ⟨fun _ => ?_, by decide⟩
  exact ⟨fun _ => by decide, fun _ => by decide⟩

-- Two operations are published to the shared queue and the second gets the first SQE. The two
-- complete in the order of their publication and the second is executed first.
def twoReads : List Uring.Action :=
  [.publishIo 1 .native, .publishIo 2 .native]

def twoCompletions : List Uring.Action :=
  [.run 0, .work { answer := 1 }, .work { answer := 1 }, .work {}, .work {}, .work {},
    .work { answer := 2 }, .complete (.operation 1) 5 0, .complete (.operation 2) 5 0]

theorem not_same_order_of_two :
    let w := Uring.Worker.init 4 { cqeBatchWindow := 2 } fun _ => true
    (System.run Uring.Worker.step w twoReads).map (fun w =>
        (w.ctx.prepareOrder, decide w.ctx.PreparesInOrder)) = some ([2, 1], false) ∧
      (System.run Uring.Worker.step w (twoReads ++ twoCompletions)).map (fun w =>
        (w.ctx.ring.cq.map (·.userData.op?), decide (w.ctx.ExecutesInOrder (w.ctx.ring.cq.map (·, 0))))) =
          some ([some 1, some 2], false) := by
  decide +kernel

end Bnio
