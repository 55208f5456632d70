import Bnio.Kqueue.Events

namespace Bnio.Kqueue

-- The wait queues, one for every (ident, filter).
abbrev Queues := Key → List Node

namespace Queues

variable (Q : Queues)

def without (n : Node) : Queues :=
  fun k => (Q k).filter (· ≠ n)

def withoutOps (ops : List OpId) : Queues :=
  fun k => (Q k).filter (·.op ∉ ops)

variable {Q} {n m : Node} {k : Key}

@[simp]
theorem mem_without : n ∈ Q.without m k ↔ n ∈ Q k ∧ n ≠ m := by
  simp [without]

@[simp]
theorem mem_withoutOps {ops : List OpId} : n ∈ Q.withoutOps ops k ↔ n ∈ Q k ∧ n.op ∉ ops := by
  simp [withoutOps]

@[simp]
theorem withoutOps_nil : Q.withoutOps [] = Q := by
  funext k
  simp [withoutOps]

theorem without_eq_self (h : ∀ k, n ∉ Q k) : Q.without n = Q := by
  funext k
  exact List.filter_eq_self.mpr fun m hm => by simpa using ne_of_mem_of_not_mem hm (h k)

theorem head?_without (h : (Q k).head? ≠ some n) : (Q.without n k).head? = (Q k).head? := by
  cases hq : Q k
  case nil      => simp [without, hq]
  case cons a l =>
    have ha : a ≠ n := by simpa [hq] using h
    simp [without, hq, ha]

theorem without_sublist : (Q.without n k).Sublist (Q k) :=
  List.filter_sublist

theorem withoutOps_sublist {ops : List OpId} : (Q.withoutOps ops k).Sublist (Q k) :=
  List.filter_sublist

theorem withoutOps_withoutOps {ops ops' : List OpId} :
    (Q.withoutOps ops).withoutOps ops' = Q.withoutOps (ops ++ ops') := by
  funext k
  simp only [withoutOps, List.filter_filter, List.mem_append, not_or, Bool.decide_and]
  exact congrArg (List.filter · _) <| by funext; rw [Bool.and_comm]

end Queues

-- Everything in a registration but its links.
def Registration.body (r : Registration) : Registration :=
  { r with waitNext := none, waitPrev := none }

section Body

variable {r r' : Registration} (h : r.body = r'.body)
include h

theorem Registration.armed_eq : r.armed = r'.armed :=
  show r.body.armed = r'.body.armed from h ▸ rfl

theorem Registration.operation_eq : r.operation = r'.operation :=
  show r.body.operation = r'.body.operation from h ▸ rfl

theorem Registration.key_eq : r.key = r'.key :=
  show r.body.key = r'.body.key from h ▸ rfl

theorem Registration.task_eq : r.task = r'.task :=
  show r.body.task = r'.body.task from h ▸ rfl

end Body

namespace Context

variable {env : Env} {s s' : Context} {n m t : Node} {op : OpId} {k : Key} {Q : Queues}

def links (s : Context) : Links Node where
  next n := (s.regs n).waitNext
  prev n := (s.regs n).waitPrev

section Projections

variable {r : Registration} {o : Operation} {v : Option OpId} {op' : OpId} {result : Int}

@[simp] theorem setReg_ops : (s.setReg n r).ops = s.ops := rfl
@[simp] theorem setReg_inflight : (s.setReg n r).inflight = s.inflight := rfl
@[simp] theorem setReg_filters : (s.setReg n r).filters = s.filters := rfl
@[simp] theorem setOp_regs : (s.setOp op o).regs = s.regs := rfl
@[simp] theorem setOp_inflight : (s.setOp op o).inflight = s.inflight := rfl
@[simp] theorem setOp_filters : (s.setOp op o).filters = s.filters := rfl
@[simp] theorem setFilter_ops : (s.setFilter k v).ops = s.ops := rfl
@[simp] theorem setFilter_regs : (s.setFilter k v).regs = s.regs := rfl
@[simp] theorem setFilter_inflight : (s.setFilter k v).inflight = s.inflight := rfl
@[simp] theorem evDelete_ops : (s.evDelete k).ops = s.ops := rfl
@[simp] theorem evDelete_regs : (s.evDelete k).regs = s.regs := rfl
@[simp] theorem evDelete_inflight : (s.evDelete k).inflight = s.inflight := rfl
@[simp] theorem evDelete_filters : (s.evDelete k).filters = Function.update s.filters k none := rfl
@[simp] theorem pushCpu_ops : (s.pushCpu op).ops = s.ops := rfl
@[simp] theorem pushCpu_regs : (s.pushCpu op).regs = s.regs := rfl
@[simp] theorem pushCpu_inflight : (s.pushCpu op).inflight = s.inflight := rfl
@[simp] theorem pushCpu_filters : (s.pushCpu op).filters = s.filters := rfl

@[simp]
theorem setReg_regs : (s.setReg n r).regs m = if m = n then r else s.regs m := by
  simp [setReg, Function.update_apply]

@[simp]
theorem setOp_ops : (s.setOp op o).ops op' = if op' = op then o else s.ops op' := by
  simp [setOp, Function.update_apply]

@[simp]
theorem setFilter_filters {k' : Key} :
    (s.setFilter k v).filters k' = if k' = k then v else s.filters k' := by
  simp [setFilter, Function.update_apply]

end Projections

theorem mem_nodesOf :
    n ∈ s.nodesOf op ↔ n.op = op ∧ n.index < 2 ∧ n.index < (s.ops op).registrationCount := by
  have h2 : ∀ i : Nat, i < 2 ↔ i = 0 ∨ i = 1 := by omega
  obtain ⟨o, i⟩ := n
  simp only [nodesOf, List.mem_map, List.mem_filter, List.mem_cons, List.not_mem_nil, or_false,
    decide_eq_true_eq, Node.mk.injEq, h2]
  constructor
  · rintro ⟨_, ⟨h₁, h₂⟩, rfl, rfl⟩
    exact ⟨rfl, h₁, h₂⟩
  · rintro ⟨rfl, h₁, h₂⟩
    exact ⟨i, ⟨h₁, h₂⟩, rfl, rfl⟩

section Fields

variable {v : Option Node} {b : Bool}

@[simp] theorem setWaitNext_ops : (s.setWaitNext n v).ops = s.ops := rfl
@[simp] theorem setWaitNext_inflight : (s.setWaitNext n v).inflight = s.inflight := rfl
@[simp] theorem setWaitNext_filters : (s.setWaitNext n v).filters = s.filters := rfl
@[simp] theorem setWaitPrev_ops : (s.setWaitPrev n v).ops = s.ops := rfl
@[simp] theorem setWaitPrev_inflight : (s.setWaitPrev n v).inflight = s.inflight := rfl
@[simp] theorem setWaitPrev_filters : (s.setWaitPrev n v).filters = s.filters := rfl
@[simp] theorem setArmed_ops : (s.setArmed n b).ops = s.ops := rfl
@[simp] theorem setArmed_inflight : (s.setArmed n b).inflight = s.inflight := rfl
@[simp] theorem setArmed_filters : (s.setArmed n b).filters = s.filters := rfl

theorem setWaitNext_links : (s.setWaitNext n v).links = s.links.setNext n v := by
  refine Links.mk.injEq .. |>.mpr ⟨funext fun m => ?_, funext fun m => ?_⟩
  all_goals by_cases h : m = n <;> simp [links, setWaitNext, Function.update_apply, h]

theorem setWaitPrev_links : (s.setWaitPrev n v).links = s.links.setPrev n v := by
  refine Links.mk.injEq .. |>.mpr ⟨funext fun m => ?_, funext fun m => ?_⟩
  all_goals by_cases h : m = n <;> simp [links, setWaitPrev, Function.update_apply, h]

theorem setArmed_links : (s.setArmed n b).links = s.links := by
  refine Links.mk.injEq .. |>.mpr ⟨funext fun m => ?_, funext fun m => ?_⟩
  all_goals by_cases h : m = n <;> simp [setArmed, h]

@[simp]
theorem setWaitNext_body : ((s.setWaitNext n v).regs m).body = (s.regs m).body := by
  by_cases h : m = n <;> simp [setWaitNext, Registration.body, h]

@[simp]
theorem setWaitPrev_body : ((s.setWaitPrev n v).regs m).body = (s.regs m).body := by
  by_cases h : m = n <;> simp [setWaitPrev, Registration.body, h]

theorem setArmed_body (h : m ≠ n) : ((s.setArmed n b).regs m).body = (s.regs m).body := by
  simp [setArmed, h]

theorem setWaitNext_eq_self (h : (s.regs n).waitNext = v) : s.setWaitNext n v = s := by
  simp [setWaitNext, setReg, ← h]

theorem setWaitPrev_eq_self (h : (s.regs n).waitPrev = v) : s.setWaitPrev n v = s := by
  simp [setWaitPrev, setReg, ← h]

theorem setArmed_eq_self (h : (s.regs n).armed = b) : s.setArmed n b = s := by
  simp [setArmed, setReg, ← h]

end Fields

section Unlink

theorem unlinkNode_links : (s.unlinkNode n).1.links = s.links.unlink n := by
  have hp : s.links.prev n = (s.regs n).waitPrev := rfl
  have hn : s.links.next n = (s.regs n).waitNext := rfl
  simp only [unlinkNode, Links.unlink, hp, hn, setWaitNext_links, setWaitPrev_links]
  cases (s.regs n).waitPrev <;> cases (s.regs n).waitNext
  all_goals simp only [setWaitNext_links, setWaitPrev_links]

@[simp]
theorem unlinkNode_ops : (s.unlinkNode n).1.ops = s.ops := by
  unfold unlinkNode
  cases (s.regs n).waitPrev <;> cases (s.regs n).waitNext <;> rfl

@[simp]
theorem unlinkNode_inflight : (s.unlinkNode n).1.inflight = s.inflight := by
  unfold unlinkNode
  cases (s.regs n).waitPrev <;> cases (s.regs n).waitNext <;> rfl

@[simp]
theorem unlinkNode_filters : (s.unlinkNode n).1.filters = s.filters := by
  unfold unlinkNode
  cases (s.regs n).waitPrev <;> cases (s.regs n).waitNext <;> rfl

@[simp]
theorem unlinkNode_body : ((s.unlinkNode n).1.regs m).body = (s.regs m).body := by
  unfold unlinkNode
  cases (s.regs n).waitPrev <;> cases (s.regs n).waitNext <;> simp

end Unlink

section Release

theorem setReg_reset_links (hn : s.links.next n = none) (hp : s.links.prev n = none) :
    (s.setReg n {}).links = s.links := by
  refine Links.mk.injEq .. |>.mpr ⟨funext fun m => ?_, funext fun m => ?_⟩
  all_goals by_cases h : m = n
  all_goals simp_all [links]

theorem releaseNode_links : (s.releaseNode n).1.links = s.links.unlink n := by
  have he : (if (s.regs n).armed then s.evDelete (s.regs n).key else s).links = s.links := by
    split <;> rfl
  simp only [releaseNode]
  rw [setReg_reset_links, unlinkNode_links, he]
  all_goals simp [unlinkNode_links, Links.unlink_next, Links.unlink_prev]

theorem releaseNode_snd : (s.releaseNode n).2 = (s.regs n).waitNext := by
  simp only [releaseNode, unlinkNode]
  split <;> rfl

@[simp]
theorem releaseNode_ops : (s.releaseNode n).1.ops = s.ops := by
  simp only [releaseNode, setReg_ops, unlinkNode_ops]
  split <;> rfl

@[simp]
theorem releaseNode_inflight : (s.releaseNode n).1.inflight = s.inflight := by
  simp only [releaseNode, setReg_inflight, unlinkNode_inflight]
  split <;> rfl

-- `s'` is `s` with node `n` out of its queue and out of the kernel.
structure Unlinks (s : Context) (n : Node) (s' : Context) : Prop where
  links : s'.links = s.links.unlink n
  body : ∀ {m}, m ≠ n → (s'.regs m).body = (s.regs m).body
  unarmed : (s'.regs n).armed = false
  filters : s'.filters =
    if (s.regs n).armed then Function.update s.filters (s.regs n).key none else s.filters
  ops : s'.ops = s.ops
  inflight : s'.inflight = s.inflight

theorem releaseNode_unlinks : s.Unlinks n (s.releaseNode n).1 where
  links := releaseNode_links
  body h := by
    simp only [releaseNode, setReg_regs, if_neg h, unlinkNode_body]
    split <;> rfl
  unarmed := by simp [releaseNode]
  filters := by
    simp only [releaseNode, setReg_filters, unlinkNode_filters]
    split <;> rfl
  ops := releaseNode_ops
  inflight := releaseNode_inflight

end Release

-- The nodes of `Q` are linked in this order and are owned by operations that registered them.
structure Linked (s : Context) (Q : Queues) : Prop where
  queue : ∀ k, s.links.IsQueue (Q k)
  owned : ∀ {k n}, n ∈ Q k → n ∈ s.nodesOf n.op
  operation : ∀ {k n}, n ∈ Q k → (s.regs n).operation = some n.op
  key : ∀ {k n}, n ∈ Q k → (s.regs n).key = k

-- A node outside of every queue that is not armed.
structure Isolated (s : Context) (Q : Queues) (n : Node) : Prop where
  not_mem : ∀ k, n ∉ Q k
  next : (s.regs n).waitNext = none
  prev : (s.regs n).waitPrev = none
  unarmed : (s.regs n).armed = false

-- The head of the queue, and nothing else in it, is armed.
structure HeadArmed (s : Context) (Q : Queues) (k : Key) : Prop where
  filter : s.filters k = (Q k).head?.map Node.op
  armed : ∀ {n}, n ∈ Q k → ((s.regs n).armed = true ↔ (Q k).head? = some n)

structure Unarmed (s : Context) (Q : Queues) (k : Key) : Prop where
  filter : s.filters k = none
  armed : ∀ {n}, n ∈ Q k → (s.regs n).armed = false

def Loose (s : Context) (Q : Queues) (n : Node) : Prop :=
  n ∈ Q (s.regs n).key ∨ s.Isolated Q n

namespace Linked

theorem key_eq {k' : Key} (h : s.Linked Q) (hn : n ∈ Q k) (hn' : n ∈ Q k') : k = k' :=
  (h.key hn).symm.trans (h.key hn')

theorem congr (h : s.Linked Q) (hr : ∀ {k n}, n ∈ Q k → s'.regs n = s.regs n)
    (ho : ∀ {k n}, n ∈ Q k → n ∈ s'.nodesOf n.op) : s'.Linked Q where
  queue k       := h.queue k |>.congr fun m hm => by simp [links, hr hm]
  owned         := ho
  operation hn  := by rw [hr hn, h.operation hn]
  key hn        := by rw [hr hn, h.key hn]

theorem unlink (h : s.Linked Q) (hn : s.Loose Q n) (hu : s.Unlinks n s') :
    s'.Linked (Q.without n) where
  queue k := by
    rw [hu.links]
    cases hn
    case inl hn =>
      by_cases hk : n ∈ Q k
      case pos => exact (h.queue k).unlink hk
      case neg =>
        have hw : Q.without n k = Q k :=
          List.filter_eq_self.mpr fun m hm => by simpa using ne_of_mem_of_not_mem hm hk
        rw [hw]
        refine (h.queue k).congr fun m hm => ?_
        refine (h.queue _).unlink_frame hn fun hm' => ?_
        exact hk <| h.key_eq hm hm' ▸ hn
    case inr hi =>
      rw [Links.unlink_eq_of_isolated hi.next hi.prev, Queues.without_eq_self hi.not_mem]
      exact h.queue k
  owned hm := by
    have hm := (Queues.mem_without.mp hm).1
    simpa [mem_nodesOf, hu.ops] using h.owned hm
  operation hm := by
    have ⟨hm, hne⟩ := Queues.mem_without.mp hm
    exact (Registration.operation_eq <| hu.body hne).trans (h.operation hm)
  key hm := by
    have ⟨hm, hne⟩ := Queues.mem_without.mp hm
    exact (Registration.key_eq <| hu.body hne).trans (h.key hm)

end Linked

namespace HeadArmed

theorem armed_iff (ha : s.HeadArmed Q k) (hk : (s.regs n).key = k)
    (hn : s.Loose Q n) : (s.regs n).armed = true ↔ (Q k).head? = some n := by
  cases hn
  case inl hn => exact ha.armed (hk ▸ hn)
  case inr hi =>
    refine iff_of_false (by simp [hi.unarmed]) fun hh => ?_
    exact hi.not_mem k <| List.mem_of_mem_head? hh

theorem unlink (ha : s.HeadArmed Q k) (hn : s.Loose Q n) (hu : s.Unlinks n s')
    (hne : (Q k).head? ≠ some n) : s'.HeadArmed (Q.without n) k where
  filter := by
    rw [hu.filters, Queues.head?_without hne, ← ha.filter]
    split
    case isTrue hr =>
      refine Function.update_of_ne (fun hk => hne ?_) ..
      exact ha.armed_iff hk.symm hn |>.mp hr
    case isFalse => rfl
  armed hm := by
    have ⟨hm, hmn⟩ := Queues.mem_without.mp hm
    rw [Registration.armed_eq (hu.body hmn), Queues.head?_without hne, ha.armed hm]

theorem unlink_head (ha : s.HeadArmed Q k) (hl : s.Linked Q) (hu : s.Unlinks n s')
    (hh : (Q k).head? = some n) : s'.Unarmed (Q.without n) k where
  filter := by
    have hn := List.mem_of_mem_head? hh
    simp [hu.filters, hl.key hn, ha.armed hn |>.mpr hh]
  armed hm := by
    have ⟨hm, hmn⟩ := Queues.mem_without.mp hm
    rw [Registration.armed_eq (hu.body hmn)]
    exact Bool.eq_false_iff.mpr fun h =>
      hmn <| Option.some.inj <| (ha.armed hm |>.mp h).symm.trans hh

end HeadArmed

theorem Unarmed.unlink (ha : s.Unarmed Q k) (hu : s.Unlinks n s') :
    s'.Unarmed (Q.without n) k where
  filter := by
    rw [hu.filters]
    split
    case isTrue  => simp [Function.update_apply, ha.filter]
    case isFalse => exact ha.filter
  armed hm := by
    have ⟨hm, hmn⟩ := Queues.mem_without.mp hm
    rw [Registration.armed_eq (hu.body hmn), ha.armed hm]

theorem Unlinks.isolated (hu : s.Unlinks n s') : s'.Isolated (Q.without n) n where
  not_mem := by simp
  next    := show s'.links.next n = none by simp [hu.links, Links.unlink_next]
  prev    := show s'.links.prev n = none by simp [hu.links, Links.unlink_prev]
  unarmed := hu.unarmed

theorem Loose.unlink (hm : s.Loose Q m) (hl : s.Linked Q) (hn : s.Loose Q n)
    (hu : s.Unlinks n s') : s'.Loose (Q.without n) m := by
  by_cases hmn : m = n
  case pos =>
    subst hmn
    exact .inr hu.isolated
  case neg =>
    have hb := hu.body hmn
    cases hm
    case inl hm => exact .inl <| Registration.key_eq hb ▸ Queues.mem_without.mpr ⟨hm, hmn⟩
    case inr hi =>
      -- `m` is outside of the queue of `n`, so the links of `m` are not rewritten.
      have hf : (s.links.unlink n).next m = s.links.next m ∧
          (s.links.unlink n).prev m = s.links.prev m := by
        cases hn
        case inl hn => exact (hl.queue _).unlink_frame hn (hi.not_mem _)
        case inr hn => rw [Links.unlink_eq_of_isolated (L := s.links) hn.next hn.prev]; trivial
      rw [← hu.links] at hf
      refine .inr ⟨fun k h => hi.not_mem k (Queues.mem_without.mp h).1, ?_, ?_, ?_⟩
      · exact hf.1.trans hi.next
      · exact hf.2.trans hi.prev
      · exact (Registration.armed_eq hb).trans hi.unarmed

end Context
end Bnio.Kqueue
