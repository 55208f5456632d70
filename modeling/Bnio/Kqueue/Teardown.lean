import Bnio.Kqueue.WaitQueue

namespace Bnio.Kqueue

-- Whether the kernel refuses the EV_ADD of a node.
def Env.fails (env : Env) (n : Node) : Bool :=
  (env.evAdd n).status < 0

-- The operations that `arm_queue_head` fails before it finds a waiter it can arm.
def Env.failing (env : Env) (l : List Node) : List OpId :=
  (l.takeWhile env.fails).map Node.op

-- Failing the operations of `R` takes the armed head off a queue other than `k` that still has
-- waiters.
def Queues.Strands (Q : Queues) (k : Key) (R : List OpId) : Prop :=
  ∃ k' ≠ k, ∃ m m', (Q k').head? = some m ∧ m.op ∈ R ∧ m' ∈ Q k' ∧ m'.op ∉ R

theorem Queues.not_strands_nil {Q : Queues} {k : Key} : ¬Q.Strands k [] := by
  simp [Strands]

namespace Context

-- The inflight operations outside of `Y` wait with all of their nodes. An operation in `Y` is being
-- registered, delivered or torn down: each of its nodes is either queued or detached.
structure Tidy (s : Context) (Q : Queues) (Y : List OpId) : Prop where
  linked : s.Linked Q
  distinct : ∀ {k k' n m}, n ∈ Q k → m ∈ Q k' → n.op = m.op → k.2 = k'.2 → n = m
  nodup : s.inflight.Nodup
  active : ∀ {k n}, n ∈ Q k → n.op ∈ s.inflight ∨ n.op ∈ Y
  idle : ∀ {op}, op ∉ s.inflight → op ∉ Y → (s.ops op).registrationCount = 0
  waiting : ∀ {op}, op ∈ s.inflight → op ∉ Y → 0 < (s.ops op).registrationCount
  queued : ∀ {n}, n.op ∈ s.inflight → n.op ∉ Y → n ∈ s.nodesOf n.op → n ∈ Q (s.regs n).key
  loose : ∀ {n}, n.op ∈ Y → n ∈ s.nodesOf n.op → s.Loose Q n

variable {env : Env} {s s' : Context} {n m : Node} {op : OpId} {k : Key} {Q : Queues}
variable {Y : List OpId}

theorem HeadArmed.congr (ha : s.HeadArmed Q k) (hf : s'.filters k = s.filters k)
    (hr : ∀ n ∈ Q k, (s'.regs n).armed = (s.regs n).armed) : s'.HeadArmed Q k where
  filter   := hf ▸ ha.filter
  armed hn := by rw [hr _ hn, ha.armed hn]

theorem Unarmed.congr (ha : s.Unarmed Q k) (hf : s'.filters k = s.filters k)
    (hr : ∀ n ∈ Q k, (s'.regs n).armed = (s.regs n).armed) : s'.Unarmed Q k where
  filter   := hf ▸ ha.filter
  armed hn := by rw [hr _ hn, ha.armed hn]

theorem Unarmed.headArmed_of_nil (ha : s.Unarmed Q k) (hq : Q k = []) : s.HeadArmed Q k where
  filter   := by simp [ha.filter, hq]
  armed hn := by simp [hq] at hn

theorem mem_nodesOf_congr
    (h : (s'.ops op).registrationCount = (s.ops op).registrationCount) :
    n ∈ s'.nodesOf op ↔ n ∈ s.nodesOf op := by
  simp only [mem_nodesOf, h]

namespace Tidy

theorem mem_key (h : s.Tidy Q Y) (hn : n ∈ Q k) : n ∈ Q (s.regs n).key :=
  (h.linked.key hn).symm ▸ hn

theorem cons (h : s.Tidy Q Y) (hop : op ∈ s.inflight) : s.Tidy Q (op :: Y) where
  linked   := h.linked
  distinct := h.distinct
  nodup    := h.nodup
  active hn := (h.active hn).imp_right (List.mem_cons_of_mem _)
  idle h₁ h₂ := h.idle h₁ (List.not_mem_of_not_mem_cons h₂)
  waiting h₁ h₂ := h.waiting h₁ (List.not_mem_of_not_mem_cons h₂)
  queued h₁ h₂ := h.queued h₁ (List.not_mem_of_not_mem_cons h₂)
  loose {n} h₁ hn := by
    by_cases hy : n.op ∈ Y
    case pos => exact h.loose hy hn
    case neg =>
      have he : n.op = op := (List.mem_cons.mp h₁).resolve_right hy
      exact .inl <| h.queued (he ▸ hop) hy hn

theorem congr (h : s.Tidy Q Y) (hl : s'.links = s.links)
    (hr : ∀ n, (s'.regs n).operation = (s.regs n).operation ∧ (s'.regs n).key = (s.regs n).key)
    (ha : ∀ n, (∀ k, n ∉ Q k) → (s'.regs n).armed = (s.regs n).armed)
    (ho : ∀ op, (s'.ops op).registrationCount = (s.ops op).registrationCount)
    (hi : s'.inflight = s.inflight) : s'.Tidy Q Y where
  linked := {
    queue k      := hl ▸ h.linked.queue k
    owned hn     := (mem_nodesOf_congr (ho _)).mpr (h.linked.owned hn)
    operation hn := (hr _).1.trans (h.linked.operation hn)
    key hn       := (hr _).2.trans (h.linked.key hn)
  }
  distinct := h.distinct
  nodup := hi ▸ h.nodup
  active := hi ▸ h.active
  idle h₁ h₂ := (ho _).trans <| h.idle (hi ▸ h₁) h₂
  waiting h₁ h₂ := (ho _).symm ▸ h.waiting (hi ▸ h₁) h₂
  queued h₁ h₂ hn := (hr _).2.symm ▸ h.queued (hi ▸ h₁) h₂ ((mem_nodesOf_congr (ho _)).mp hn)
  loose {n} h₁ hn := by
    refine (h.loose h₁ <| (mem_nodesOf_congr (ho _)).mp hn).imp (fun h => (hr n).2.symm ▸ h) ?_
    intro hm
    have hx : s'.links.next n = none := hl ▸ hm.next
    have hp : s'.links.prev n = none := hl ▸ hm.prev
    exact ⟨hm.not_mem, hx, hp, (ha n hm.not_mem).trans hm.unarmed⟩

-- The two outcomes of the test that guards the loop bodies over an operation's nodes.
theorem loose_or_not_mem (h : s.Tidy Q Y) (hn : n.op ∈ Y) (hi : n.index < 2) :
    if n.index < (s.ops n.op).registrationCount ∧ (s.regs n).operation.isSome then s.Loose Q n
    else ∀ k, n ∉ Q k := by
  split
  case isTrue hc => exact h.loose hn <| mem_nodesOf.mpr ⟨rfl, hi, hc.1⟩
  case isFalse hc =>
    intro k hk
    refine hc ⟨(mem_nodesOf.mp <| h.linked.owned hk).2.2, ?_⟩
    simp [h.linked.operation hk]

theorem unlink (h : s.Tidy Q Y) (hy : n.op ∈ Y) (hn : s.Loose Q n) (hu : s.Unlinks n s') :
    s'.Tidy (Q.without n) Y where
  linked := h.linked.unlink hn hu
  distinct h₁ h₂ := h.distinct (Queues.mem_without.mp h₁).1 (Queues.mem_without.mp h₂).1
  nodup := hu.inflight ▸ h.nodup
  active hm := hu.inflight ▸ h.active (Queues.mem_without.mp hm).1
  idle h₁ h₂ := hu.ops ▸ h.idle (hu.inflight ▸ h₁) h₂
  waiting h₁ h₂ := hu.ops ▸ h.waiting (hu.inflight ▸ h₁) h₂
  queued {m} h₁ h₂ hm := by
    have hmn : m ≠ n := fun he => h₂ (he ▸ hy)
    rw [Registration.key_eq <| hu.body hmn]
    refine Queues.mem_without.mpr ⟨h.queued (hu.inflight ▸ h₁) h₂ ?_, hmn⟩
    simpa [mem_nodesOf, hu.ops] using hm
  loose h₁ hm := (h.loose h₁ <| by simpa [mem_nodesOf, hu.ops] using hm).unlink h.linked hn hu

-- An operation without queued nodes leaves.
theorem retire (h : s.Tidy Q (op :: Y)) (hq : ∀ k, ∀ n ∈ Q k, n.op ≠ op)
    (hr : s'.regs = s.regs) (hi : s'.inflight = s.inflight.erase op)
    (ho : ∀ o, (s'.ops o).registrationCount =
      if o = op then 0 else (s.ops o).registrationCount) : s'.Tidy Q Y := by
  have hmem : ∀ {o}, o ≠ op → (o ∈ s'.inflight ↔ o ∈ s.inflight) := fun hne => by
    rw [hi, List.mem_erase_of_ne hne]
  have hout : op ∉ s'.inflight := hi ▸ h.nodup.not_mem_erase
  have hnodes : ∀ {n : Node}, n.op ≠ op → (n ∈ s'.nodesOf n.op ↔ n ∈ s.nodesOf n.op) :=
    fun hne => mem_nodesOf_congr <| by rw [ho, if_neg hne]
  have hl : s'.links = s.links := by simp only [links, hr]
  have hgone : ∀ {n : Node}, n ∈ s'.nodesOf n.op → n.op ≠ op := fun hn he => by
    simp [mem_nodesOf, ho, he] at hn
  refine ⟨⟨fun k => hl ▸ h.linked.queue k, ?_, ?_, ?_⟩, h.distinct, hi ▸ h.nodup.erase op,
    ?_, ?_, ?_, ?_, ?_⟩
  · exact fun {k n} hn => hnodes (hq k n hn) |>.mpr (h.linked.owned hn)
  · exact fun hn => hr ▸ h.linked.operation hn
  · exact fun hn => hr ▸ h.linked.key hn
  · intro k n hn
    have hne := hq k n hn
    simpa [hmem hne, hne] using h.active hn
  · intro o h₁ h₂
    by_cases hne : o = op
    case pos => simp [ho, hne]
    case neg => simpa [ho, hne] using h.idle (hmem hne |>.not.mp h₁) (by simp [hne, h₂])
  · intro o h₁ h₂
    have hne : o ≠ op := fun he => hout (he ▸ h₁)
    simpa [ho, hne] using h.waiting (hmem hne |>.mp h₁) (by simp [hne, h₂])
  · intro n h₁ h₂ hn
    have hne := hgone hn
    exact hr ▸ h.queued (hmem hne |>.mp h₁) (by simp [hne, h₂]) (hnodes hne |>.mp hn)
  · intro n h₁ hn
    refine (h.loose (List.mem_cons_of_mem _ h₁) (hnodes (hgone hn) |>.mp hn)).imp (hr ▸ id) ?_
    exact fun hi => ⟨hi.not_mem, hr ▸ hi.next, hr ▸ hi.prev, hr ▸ hi.unarmed⟩

end Tidy

-- How the armed head of a queue fares when nodes are taken out and nothing is armed.
structure Shrinks (s s' : Context) (Q Q' : Queues) (k : Key) : Prop where
  sub : (Q' k).Sublist (Q k)
  keep : ∀ {m}, s.HeadArmed Q k → (Q k).head? = some m → m ∈ Q' k → s'.HeadArmed Q' k
  lose : ∀ {m}, s.HeadArmed Q k → (Q k).head? = some m → m ∉ Q' k → s'.Unarmed Q' k
  unarmed : s.Unarmed Q k → s'.Unarmed Q' k

namespace Shrinks

variable {Q' Q'' : Queues} {s'' : Context}

theorem congr (hf : s'.filters k = s.filters k)
    (hr : ∀ n ∈ Q k, (s'.regs n).armed = (s.regs n).armed) : Shrinks s s' Q Q k where
  sub := .refl _
  keep ha _ _ := ha.congr hf hr
  lose _ hh hm := absurd (List.mem_of_mem_head? hh) hm
  unarmed ha := ha.congr hf hr

theorem trans (h : Shrinks s s' Q Q' k) (h' : Shrinks s' s'' Q' Q'' k) (hd : (Q k).Nodup) :
    Shrinks s s'' Q Q'' k where
  sub := h'.sub.trans h.sub
  keep ha hh hm := by
    have hm' := h'.sub.subset hm
    exact h'.keep (h.keep ha hh hm') (h.sub.head?_eq_of_mem hd hh hm') hm
  lose {m} ha hh hm := by
    by_cases hm' : m ∈ Q' k
    case pos => exact h'.lose (h.keep ha hh hm') (h.sub.head?_eq_of_mem hd hh hm') hm
    case neg => exact h'.unarmed <| h.lose ha hh hm'
  unarmed ha := h'.unarmed <| h.unarmed ha

theorem headArmed (h : Shrinks s s' Q Q' k) (ha : s.HeadArmed Q k)
    (hs : ∀ m, (Q k).head? = some m → m ∉ Q' k → Q' k = []) : s'.HeadArmed Q' k := by
  cases hh : (Q k).head?
  case none =>
    have hq : Q k = [] := List.head?_eq_none_iff.mp hh
    have hu : s.Unarmed Q k := ⟨by simp [ha.filter, hq], fun hn => by simp [hq] at hn⟩
    exact (h.unarmed hu).headArmed_of_nil <| List.sublist_nil.mp (hq ▸ h.sub)
  case some m =>
    by_cases hm : m ∈ Q' k
    case pos => exact h.keep ha hh hm
    case neg => exact (h.lose ha hh hm).headArmed_of_nil (hs m hh hm)

theorem unlink (hl : s.Linked Q) (hn : s.Loose Q n) (hu : s.Unlinks n s') :
    Shrinks s s' Q (Q.without n) k where
  sub := Queues.without_sublist
  keep ha hh hm := by
    have ⟨_, hmn⟩ := Queues.mem_without.mp hm
    exact ha.unlink hn hu <| by simpa [hh] using hmn
  lose {m} ha hh hm := by
    have he : m = n := by simpa [List.mem_of_mem_head? hh] using hm
    exact ha.unlink_head hl hu (he ▸ hh)
  unarmed ha := ha.unlink hu

end Shrinks

section Fail

variable {i : Nat} {result : Int}

@[simp]
theorem detachNode_ops : (s.detachNode op i).ops = s.ops := by
  simp only [detachNode]
  split <;> simp

@[simp]
theorem detachNode_inflight : (s.detachNode op i).inflight = s.inflight := by
  simp only [detachNode]
  split <;> simp

theorem detachNode_body (h : m.op ≠ op) :
    ((s.detachNode op i).regs m).body = (s.regs m).body := by
  have hne : m ≠ ⟨op, i⟩ := fun he => h (he ▸ rfl)
  simp only [detachNode]
  split
  case isTrue  => exact releaseNode_unlinks.body hne
  case isFalse => rfl

theorem Tidy.detach (h : s.Tidy Q Y) (hy : op ∈ Y) (hi : i < 2) :
    (s.detachNode op i).Tidy (Q.without ⟨op, i⟩) Y ∧
      ∀ k, Shrinks s (s.detachNode op i) Q (Q.without ⟨op, i⟩) k := by
  have hc := h.loose_or_not_mem (n := ⟨op, i⟩) hy hi
  simp only [detachNode]
  split
  case isTrue hr =>
    rw [if_pos hr] at hc
    exact ⟨h.unlink hy hc releaseNode_unlinks, fun _ => .unlink h.linked hc releaseNode_unlinks⟩
  case isFalse hr =>
    rw [if_neg hr] at hc
    rw [Queues.without_eq_self hc]
    exact ⟨h, fun _ => .congr rfl fun _ _ => rfl⟩

-- An operation has at most two nodes.
theorem Linked.without_without (h : s.Linked Q) :
    (Q.without ⟨op, 0⟩).without ⟨op, 1⟩ = Q.withoutOps [op] := by
  funext k
  simp only [Queues.without, Queues.withoutOps, List.filter_filter]
  refine List.filter_congr fun n hn => ?_
  have hi := (mem_nodesOf.mp <| h.owned hn).2.1
  obtain ⟨o, i⟩ := n
  have h2 : i = 0 ∨ i = 1 := by simp only at hi; omega
  by_cases ho : o = op <;> rcases h2 with rfl | rfl <;> simp [ho]

theorem failOperation_inflight :
    (s.failOperation op result).inflight = s.inflight.erase op := by
  simp [failOperation, removeInflight, completeSubmitError]

theorem failOperation_ops {o : OpId} (h : o ≠ op) :
    (s.failOperation op result).ops o = s.ops o := by
  simp [failOperation, removeInflight, completeSubmitError, setOp, h]

theorem failOperation_body (h : m.op ≠ op) :
    ((s.failOperation op result).regs m).body = (s.regs m).body := by
  simp [failOperation, removeInflight, completeSubmitError, setOp, detachNode_body h]

theorem Tidy.fail (h : s.Tidy Q Y) (result : Int) (hi : op ∈ s.inflight) :
    (s.failOperation op result).Tidy (Q.withoutOps [op]) Y ∧
      ∀ k, Shrinks s (s.failOperation op result) Q (Q.withoutOps [op]) k := by
  have ⟨h₁, hs₁⟩ := (h.cons hi).detach (i := 0) List.mem_cons_self (by simp)
  have ⟨h₂, hs₂⟩ := h₁.detach (i := 1) List.mem_cons_self (by simp)
  rw [h.linked.without_without] at h₂ hs₂
  constructor
  · refine h₂.retire (by simp) rfl ?_ fun o => ?_
    · simp [failOperation, removeInflight, completeSubmitError]
    · by_cases ho : o = op
      all_goals simp [failOperation, removeInflight, completeSubmitError, setOp, ho]
  · intro k
    exact (hs₁ k).trans ((hs₂ k).trans (.congr rfl fun _ _ => rfl) (h₁.linked.queue k).nodup)
      (h.linked.queue k).nodup

end Fail

section Arm

theorem armRegistration_of_fails (hf : env.fails n) :
    s.armRegistration env n = (s, (env.evAdd n).status) := by
  simp only [Env.fails, decide_eq_true_eq] at hf
  simp [armRegistration, hf]

theorem armRegistration_of_not_fails (hf : env.fails n = false) :
    s.armRegistration env n =
      ((s.setFilter (s.regs n).key (s.regs n).operation).setArmed n true, 0) := by
  simp only [Env.fails, decide_eq_false_iff_not] at hf
  simp [armRegistration, hf]

-- `s'` is `s` after the queue `k` has got a new armed head and the operations of `R` have failed.
structure Rearmed (s s' : Context) (Q : Queues) (Y : List OpId) (k : Key) (R : List OpId) :
    Prop where
  tidy : s'.Tidy (Q.withoutOps R) Y
  head : s'.HeadArmed (Q.withoutOps R) k
  others : ∀ {k'}, k' ≠ k → Shrinks s s' Q (Q.withoutOps R) k'
  ops : ∀ {op}, op ∉ R → s'.ops op = s.ops op
  body : ∀ {m}, m.op ∉ R → m ∉ Q k → (s'.regs m).body = (s.regs m).body
  inflight : s'.inflight = s.inflight.filter (· ∉ R)

namespace Rearmed

theorem refl (h : s.Tidy Q Y) (ha : s.HeadArmed Q k) : Rearmed s s Q Y k [] := by
  refine ⟨?_, ?_, fun _ => ?_, fun _ => rfl, fun _ _ => rfl, by simp⟩
  all_goals rw [Queues.withoutOps_nil]
  · exact h
  · exact ha
  · exact .congr rfl fun _ _ => rfl

theorem arm (h : s.Tidy Q Y) (hu : s.Unarmed Q k) (hn : (Q k).head? = some n) :
    Rearmed s ((s.setFilter (s.regs n).key (s.regs n).operation).setArmed n true) Q Y k [] := by
  have hq := List.mem_of_mem_head? hn
  have hk := h.linked.key hq
  rw [hk, h.linked.operation hq]
  have hr : ∀ m, m ≠ n →
      (((s.setFilter k (some n.op)).setArmed n true).regs m) = s.regs m := fun m hm => by
    simp [setArmed, hm]
  refine ⟨?_, ?_, fun {k'} hk' => ?_, fun _ => rfl, fun {m} _ hm => ?_, by simp⟩
  all_goals try rw [Queues.withoutOps_nil]
  · refine h.congr setArmed_links (fun m => ?_) (fun m hm => ?_) (fun _ => rfl) rfl
    · by_cases hm : m = n <;> simp [setArmed, hm, Registration.key]
    · rw [hr m fun he => hm k (he ▸ hq)]
  · refine ⟨by simp [hn], fun {m} hm => ?_⟩
    by_cases he : m = n
    case pos => simp [setArmed, he, hn]
    case neg => simp [hr m he, hu.armed hm, hn, Ne.symm he]
  · refine .congr (by simp [hk']) fun m hm => ?_
    rw [hr m fun he => hk' <| h.linked.key_eq hm (he ▸ hq)]
  · rw [hr m fun he => hm (he ▸ hq)]

theorem cons {c : OpId} {R : List OpId} {result : Int} (h : s.Tidy Q Y) (hc : c ∈ s.inflight)
    (hr : Rearmed (s.failOperation c result) s' (Q.withoutOps [c]) Y k R) :
    Rearmed s s' Q Y k (c :: R) := by
  have hw : Q.withoutOps (c :: R) = (Q.withoutOps [c]).withoutOps R := by
    rw [Queues.withoutOps_withoutOps]
    rfl
  refine ⟨hw ▸ hr.tidy, hw ▸ hr.head, fun hk => hw ▸ ?_, fun ho => ?_, fun ho hm => ?_, ?_⟩
  · exact (h.fail result hc).2 _ |>.trans (hr.others hk) (h.linked.queue _).nodup
  · have ⟨h₁, h₂⟩ := not_or.mp <| mt List.mem_cons.mpr ho
    rw [hr.ops h₂, failOperation_ops h₁]
  · have ⟨h₁, h₂⟩ := not_or.mp <| mt List.mem_cons.mpr ho
    rw [hr.body h₂ fun h => hm (Queues.mem_withoutOps.mp h).1, failOperation_body h₁]
  · rw [hr.inflight, failOperation_inflight, h.nodup.erase_eq_filter, List.filter_filter]
    refine List.filter_congr fun o _ => ?_
    by_cases ho : o = c <;> simp [ho]

end Rearmed

-- By induction on the queue: each round arms its first node or fails the operation of that node.
theorem Tidy.armQueueHead (env : Env) {fuel : Nat} (h : s.Tidy Q Y) (hu : s.Unarmed Q k)
    (hy : ∀ n ∈ Q k, n.op ∉ Y) (hf : s.inflight.length ≤ fuel) :
    Rearmed s (armQueueHead env fuel s (Q k).head?) Q Y k (env.failing (Q k)) := by
  generalize hl : Q k = l
  induction l generalizing s Q fuel
  case nil =>
    have hs : Context.armQueueHead env fuel s none = s := by cases fuel <;> rfl
    rw [List.head?_nil, hs]
    exact .refl h (hu.headArmed_of_nil hl)
  case cons c l hi =>
    have hc : c ∈ Q k := by simp [hl]
    have hin : c.op ∈ s.inflight := (h.active hc).resolve_right (hy c hc)
    have hpos := List.length_pos_of_mem hin
    obtain _ | fuel := fuel
    case zero => omega
    case succ =>
    by_cases hfc : env.fails c
    case pos =>
      have hneg : (env.evAdd c).status < 0 := by simpa [Env.fails] using hfc
      have hch := hl ▸ (h.linked.queue k)
      have hq : Q.withoutOps [c.op] k = l := by
        -- No other node of the operation waits in this queue.
        have hne : ∀ m ∈ l, m.op ≠ c.op := fun m hm he => by
          have hmc := h.distinct (hl ▸ List.mem_cons_of_mem c hm) hc he rfl
          exact (List.nodup_cons.mp hch.nodup).1 (hmc ▸ hm)
        simpa [Queues.withoutOps, hl] using hne
      have hnext : (s.regs c).waitNext = l.head? := hch.chain.2.1
      have hstep : Context.armQueueHead env (fuel + 1) s (some c) =
          Context.armQueueHead env fuel (s.failOperation c.op (env.evAdd c).status) l.head? := by
        simp [Context.armQueueHead, armRegistration_of_fails hfc, Int.not_le.mpr hneg, hnext]
      obtain ⟨h₁, hs₁⟩ := h.fail (env.evAdd c).status hin
      have hlen : (s.inflight.erase c.op).length ≤ fuel := by
        rw [List.length_erase_of_mem hin]
        omega
      have ih := hi h₁ ((hs₁ k).unarmed hu)
        (fun n hn => hy n (Queues.mem_withoutOps.mp hn).1) (failOperation_inflight ▸ hlen) hq
      have hfl : env.failing (c :: l) = c.op :: env.failing l := by simp [Env.failing, hfc]
      rw [List.head?_cons, hstep, hfl]
      exact .cons h hin ih
    case neg =>
      have hfc : env.fails c = false := by simpa using hfc
      have hfl : env.failing (c :: l) = [] := by simp [Env.failing, hfc]
      have hstep : Context.armQueueHead env (fuel + 1) s (some c) =
          (s.setFilter (s.regs c).key (s.regs c).operation).setArmed c true := by
        simp [Context.armQueueHead, armRegistration_of_not_fails hfc]
      rw [List.head?_cons, hstep, hfl]
      exact .arm h hu (by simp [hl])

end Arm

section Unregister

variable {i : Nat}

theorem armQueueHead_inflight_sublist {fuel : Nat} {o : Option Node} :
    (armQueueHead env fuel s o).inflight.Sublist s.inflight := by
  induction fuel generalizing s o
  case zero      => exact .refl _
  case succ f hi =>
    cases o
    case none   => exact .refl _
    case some c =>
      simp only [armQueueHead]
      split
      case isTrue  => by_cases hf : env.fails c <;> simp_all [armRegistration_of_fails,
        armRegistration_of_not_fails]
      case isFalse hn =>
        have hf : env.fails c := by
          by_contra hf
          simp [armRegistration_of_not_fails (Bool.eq_false_iff.mpr hf)] at hn
        rw [armRegistration_of_fails hf]
        refine hi.trans ?_
        rw [failOperation_inflight]
        exact List.erase_sublist

theorem unregisterNode_inflight_sublist :
    (s.unregisterNode env op i).inflight.Sublist s.inflight := by
  simp only [unregisterNode]
  split
  case isFalse => exact .refl _
  case isTrue  =>
    split
    case isTrue  => exact armQueueHead_inflight_sublist.trans (by simp)
    case isFalse => simp

theorem unregisterOperation_inflight_sublist :
    (s.unregisterOperation env op).inflight.Sublist s.inflight :=
  unregisterNode_inflight_sublist.trans unregisterNode_inflight_sublist

theorem Rearmed.headArmed {R : List OpId} (hr : Rearmed s s' Q Y k R) (hs : ¬Q.Strands k R)
    {k' : Key} (hk : k' ≠ k) (ha : s.HeadArmed Q k') : s'.HeadArmed (Q.withoutOps R) k' := by
  refine (hr.others hk).headArmed ha fun m hh hm => ?_
  have hmR : m.op ∈ R := by simpa [List.mem_of_mem_head? hh] using hm
  refine List.filter_eq_nil_iff.mpr fun m' hm' => ?_
  by_contra hmR'
  exact hs ⟨k', hk, m, m', hh, hmR, hm', by simpa using hmR'⟩

-- Unlinking the armed head of a queue and arming the rest of it.
theorem Tidy.unlinkHead (env : Env) {s₁ : Context} (h : s.Tidy Q [n.op])
    (ha : ∀ k, s.HeadArmed Q k) (hh : (Q k).head? = some n) (hu : s.Unlinks n s₁)
    (hs : ¬Q.Strands k (env.failing (Q k).tail)) :
    let s' := Context.armQueueHead env s₁.inflight.length s₁ (s.regs n).waitNext
    Rearmed s₁ s' (Q.without n) [n.op] k (env.failing (Q k).tail) ∧
      ∀ k', s'.HeadArmed ((Q.without n).withoutOps (env.failing (Q k).tail)) k' := by
  intro s'
  have hn := List.mem_of_mem_head? hh
  have hcons : Q k = n :: (Q k).tail := (List.cons_head?_tail hh).symm
  have hq := h.linked.queue k
  have hd := List.nodup_cons.mp (hcons ▸ hq.nodup)
  have hw : Q.without n k = (Q k).tail := by
    rw [Queues.without, hcons]
    exact Links.filter_ne_cons_self hd.1
  have hother : ∀ {k'}, k' ≠ k → Q.without n k' = Q k' := fun hk =>
    List.filter_eq_self.mpr fun m hm => by
      have hne : m ≠ n := fun he => hk <| h.linked.key_eq hm (he ▸ hn)
      simpa using hne
  have hnext : (s.regs n).waitNext = (Q.without n k).head? := by
    rw [hw]
    exact (hcons ▸ hq).chain.2.1
  have hloose : s.Loose Q n := .inl <| h.linked.key hn ▸ hn
  have hops : ∀ m ∈ Q.without n k, m.op ∉ [n.op] := fun m hm => by
    obtain ⟨hm, hne⟩ := Queues.mem_without.mp hm
    simpa using fun he => hne <| h.distinct hm hn he rfl
  have hr := (h.unlink (by simp) hloose hu).armQueueHead env
    ((ha k).unlink_head h.linked hu hh) hops (Nat.le_refl _)
  rw [← hnext, hw] at hr
  refine ⟨hr, fun k' => ?_⟩
  by_cases hk : k' = k
  case pos => exact hk ▸ hr.head
  case neg =>
    refine hr.headArmed ?_ hk <| (ha k').unlink hloose hu fun he => ?_
    · rintro ⟨k₁, hk₁, m, m', h₁, h₂, h₃, h₄⟩
      rw [hother hk₁] at h₁ h₃
      exact hs ⟨k₁, hk₁, m, m', h₁, h₂, h₃, h₄⟩
    · exact hk <| h.linked.key_eq (List.mem_of_mem_head? he) hn

theorem Tidy.unregisterNode (h : s.Tidy Q [op]) (ha : ∀ k, s.HeadArmed Q k) (hi : i < 2)
    (hs : ∀ k, (Q k).head? = some ⟨op, i⟩ → ¬Q.Strands k (env.failing (Q k).tail)) :
    ∃ Q', (∀ k, (Q' k).Sublist (Q k)) ∧ (∀ k, ⟨op, i⟩ ∉ Q' k) ∧ ((∀ k, ⟨op, i⟩ ∉ Q k) → Q' = Q) ∧
      (s.unregisterNode env op i).Tidy Q' [op] ∧
      ∀ k, (s.unregisterNode env op i).HeadArmed Q' k := by
  have hc := h.loose_or_not_mem (n := ⟨op, i⟩) (by simp) hi
  simp only [Context.unregisterNode]
  split
  case isFalse hr =>
    rw [if_neg hr] at hc
    exact ⟨Q, fun _ => .refl _, hc, fun _ => rfl, h, ha⟩
  case isTrue hr =>
    rw [if_pos hr] at hc
    split
    case isTrue hw =>
      have hn := hc.resolve_right fun hi => by simp [hi.unarmed] at hw
      have hh := (ha _).armed hn |>.mp hw
      have ⟨hr, ha'⟩ := Tidy.unlinkHead env h ha hh releaseNode_unlinks (hs _ hh)
      rw [← releaseNode_snd] at hr ha'
      refine ⟨_, fun k => ?_, fun k => by simp, fun hq => absurd hn (hq _), hr.tidy, ha'⟩
      exact Queues.withoutOps_sublist.trans Queues.without_sublist
    case isFalse hw =>
      refine ⟨_, fun k => Queues.without_sublist, fun k => by simp, Queues.without_eq_self,
        h.unlink (by simp) hc releaseNode_unlinks,
        fun k => (ha k).unlink hc releaseNode_unlinks fun hh => hw ?_⟩
      exact (ha k).armed_iff (h.linked.key <| List.mem_of_mem_head? hh) hc |>.mpr hh

-- `hone` is what the two callers have in common: a fired operation has lost the node that fired, and
-- a rolled back one has not linked the node that failed.
theorem Tidy.unregister (h : s.Tidy Q [op]) (ha : ∀ k, s.HeadArmed Q k)
    (hone : ∀ {k k' n m}, n ∈ Q k → m ∈ Q k' → n.op = op → m.op = op → n = m)
    (hs : ∀ k n, n.op = op → (Q k).head? = some n → ¬Q.Strands k (env.failing (Q k).tail)) :
    ∃ Q', (∀ k, (Q' k).Sublist (Q k)) ∧
      ((s.unregisterOperation env op).removeInflight op).Tidy Q' [] ∧
      ∀ k, ((s.unregisterOperation env op).removeInflight op).HeadArmed Q' k := by
  have ⟨Q₀, hsub₀, hout₀, heq₀, h₀, ha₀⟩ :=
    h.unregisterNode ha (by decide : 0 < 2) fun k hh => hs k _ rfl hh
  have hs₁ : ∀ k, (Q₀ k).head? = some ⟨op, 1⟩ → ¬Q₀.Strands k (env.failing (Q₀ k).tail) := by
    intro k hh
    have hm := (hsub₀ k).subset <| List.mem_of_mem_head? hh
    have he : Q₀ = Q := heq₀ fun k' hn => by simpa using hone hn hm rfl rfl
    rw [he] at hh ⊢
    exact hs k _ rfl hh
  have ⟨Q₁, hsub₁, hout₁, _, h₁, ha₁⟩ := h₀.unregisterNode ha₀ (by decide : 1 < 2) hs₁
  refine ⟨Q₁, fun k => (hsub₁ k).trans (hsub₀ k), ?_, fun k => (ha₁ k).congr rfl fun _ _ => rfl⟩
  refine h₁.retire (fun k n hn he => ?_) rfl rfl fun o => ?_
  · have hi := (mem_nodesOf.mp <| h₁.linked.owned hn).2.1
    obtain ⟨o, i⟩ := n
    obtain rfl : o = op := he
    have h2 : i = 0 ∨ i = 1 := by simp only at hi; omega
    rcases h2 with rfl | rfl
    · exact hout₀ k <| (hsub₁ k).subset hn
    · exact hout₁ k hn
  · by_cases ho : o = op
    all_goals simp [unregisterOperation, removeInflight, setOp, ho]

end Unregister

end Context
end Bnio.Kqueue
