import Bnio.Kqueue.Teardown

namespace Bnio.Kqueue

-- Puts `n` behind the last node of queue `k`.
def Queues.append (Q : Queues) (k : Key) (n : Node) : Queues :=
  Function.update Q k (Q k ++ [n])

namespace Queues

variable {Q : Queues} {k k' : Key} {n m : Node}

@[simp]
theorem append_self : Q.append k n k = Q k ++ [n] := by
  simp [append]

@[simp]
theorem append_of_ne (h : k' ≠ k) : Q.append k n k' = Q k' := by
  simp [append, h]

theorem mem_append : m ∈ Q.append k n k' ↔ m ∈ Q k' ∨ k' = k ∧ m = n := by
  by_cases h : k' = k
  case pos => simp [h]
  case neg => simp [h]

end Queues

namespace Context

variable {env : Env} {s s' : Context} {n m t : Node} {op : OpId} {k : Key} {Q : Queues}
variable {Y : List OpId}

-- A node of an operation outside of the queues that can be linked in queue `k`.
structure Appendable (s : Context) (Q : Queues) (k : Key) (n : Node) : Prop where
  isolated : s.Isolated Q n
  owned : n ∈ s.nodesOf n.op
  operation : (s.regs n).operation = some n.op
  key : (s.regs n).key = k
  distinct : ∀ {k' m}, m ∈ Q k' → m.op = n.op → k'.2 ≠ k.2

theorem Tidy.link (h : s.Tidy Q [n.op]) (hn : s.Appendable Q k n)
    (hq : s'.links.IsQueue (Q k ++ [n]))
    (hl : ∀ m, m ∉ Q k → m ≠ n → s'.links.next m = s.links.next m ∧ s'.links.prev m = s.links.prev m)
    (hr : ∀ m, (s'.regs m).operation = (s.regs m).operation ∧ (s'.regs m).key = (s.regs m).key)
    (ha : ∀ m, m ∉ Q k → m ≠ n → (s'.regs m).armed = (s.regs m).armed)
    (ho : s'.ops = s.ops) (hi : s'.inflight = s.inflight) : s'.Tidy (Q.append k n) [n.op] := by
  have hnodes : ∀ {m : Node}, m ∈ s'.nodesOf m.op ↔ m ∈ s.nodesOf m.op :=
    mem_nodesOf_congr <| by rw [ho]
  have hmem : ∀ {k' m}, m ∈ Q k' → m ∈ Q.append k n k' := fun h => Queues.mem_append.mpr (.inl h)
  refine ⟨⟨fun k' => ?_, fun hm => ?_, fun hm => ?_, fun hm => ?_⟩, fun h₁ h₂ hop hk => ?_,
    hi ▸ h.nodup, fun hm => ?_, ?_, ?_, ?_, fun {m} hy hm => ?_⟩
  · by_cases hk : k' = k
    case pos => simpa [hk] using hq
    case neg =>
      rw [Queues.append_of_ne hk]
      refine (h.linked.queue k').congr fun m hm => hl m (fun hm' => hk ?_) fun he => ?_
      · exact h.linked.key_eq hm hm'
      · exact hn.isolated.not_mem k' (he ▸ hm)
  · rw [hnodes]
    obtain hm | ⟨_, rfl⟩ := Queues.mem_append.mp hm
    · exact h.linked.owned hm
    · exact hn.owned
  · rw [(hr _).1]
    obtain hm | ⟨_, rfl⟩ := Queues.mem_append.mp hm
    · exact h.linked.operation hm
    · exact hn.operation
  · rw [(hr _).2]
    obtain hm | ⟨rfl, rfl⟩ := Queues.mem_append.mp hm
    · exact h.linked.key hm
    · exact hn.key
  · obtain g₁ | ⟨rfl, rfl⟩ := Queues.mem_append.mp h₁ <;>
      obtain g₂ | ⟨rfl, rfl⟩ := Queues.mem_append.mp h₂
    · exact h.distinct g₁ g₂ hop hk
    · exact absurd hk <| hn.distinct g₁ hop
    · exact absurd hk.symm <| hn.distinct g₂ hop.symm
    · rfl
  · rw [hi]
    obtain hm | ⟨_, rfl⟩ := Queues.mem_append.mp hm
    · exact h.active hm
    · exact .inr (by simp)
  · exact fun h₁ h₂ => ho ▸ h.idle (hi ▸ h₁) h₂
  · exact fun h₁ h₂ => ho ▸ h.waiting (hi ▸ h₁) h₂
  · exact fun h₁ h₂ hm => (hr _).2 ▸ hmem (h.queued (hi ▸ h₁) h₂ (hnodes.mp hm))
  · by_cases hmn : m = n
    case pos => exact .inl <| Queues.mem_append.mpr <| .inr ⟨hmn ▸ (hr n).2.trans hn.key, hmn⟩
    case neg =>
      refine (h.loose hy (hnodes.mp hm)).imp (fun h => (hr m).2 ▸ hmem h) fun hm => ?_
      have ⟨hx, hp⟩ := hl m (hm.not_mem k) hmn
      refine ⟨fun k' h => ?_, hx.trans hm.next, hp.trans hm.prev, ?_⟩
      · exact (Queues.mem_append.mp h).elim (hm.not_mem k') fun h => hmn h.2
      · exact (ha m (hm.not_mem k) hmn).trans hm.unarmed

section Tail

variable {ops : List OpId}

def isTail (s : Context) (k : Key) (n : Node) : Bool :=
  (s.regs n).operation.isSome && (s.regs n).key = k && (s.regs n).waitNext = none

theorem isTail_iff (h : s.Tidy Q Y) (hi : n.op ∈ s.inflight) (hy : n.op ∉ Y)
    (hn : n ∈ s.nodesOf n.op) : s.isTail k n ↔ (Q k).getLast? = some n := by
  have hq := h.queued hi hy hn
  simp only [isTail, h.linked.operation hq, Option.isSome_some, Bool.true_and, Bool.and_eq_true,
    decide_eq_true_eq]
  constructor
  · rintro ⟨rfl, hx⟩
    exact (h.linked.queue _).next_eq_none_iff hq |>.mp hx
  · intro hl
    obtain rfl := h.linked.key <| List.mem_of_mem_getLast? hl
    exact ⟨rfl, (h.linked.queue _).next_eq_none_iff hq |>.mpr hl⟩

-- Scanning operations that wait with all of their nodes finds the tail of the queue.
theorem Tidy.find_isTail (h : s.Tidy Q Y) (hops : ∀ op ∈ ops, op ∈ s.inflight ∧ op ∉ Y)
    (hlast : ∀ t, (Q k).getLast? = some t → t.op ∈ ops) :
    (ops.flatMap s.nodesOf).find? (s.isTail k) = (Q k).getLast? := by
  refine List.find?_eq_of_unique (fun n hn => ?_) fun t ht => ?_
  · have ⟨op, hop, hn⟩ := List.mem_flatMap.mp hn
    obtain rfl := (mem_nodesOf.mp hn).1
    exact isTail_iff h (hops _ hop).1 (hops _ hop).2 hn
  · exact List.mem_flatMap.mpr ⟨t.op, hlast t ht, h.linked.owned <| List.mem_of_mem_getLast? ht⟩

theorem Tidy.findQueueTail_of_not_mem (h : s.Tidy Q [op]) (hop : op ∉ s.inflight)
    (hq : ∀ n ∈ Q k, n.op ≠ op) : s.findQueueTail k = (Q k).getLast? := by
  have hne : ∀ o ∈ s.inflight, o ≠ op := fun o ho he => hop (he ▸ ho)
  refine h.find_isTail (fun o ho => ⟨ho, by simpa using hne o ho⟩) fun t ht => ?_
  have ht := List.mem_of_mem_getLast? ht
  exact (h.active ht).resolve_right <| by simpa using hq t ht

-- A detached node of an inflight operation looks like a tail; the scan gets past it only when the
-- tail of the queue comes first.
theorem Tidy.findQueueTail_of_ahead (h : s.Tidy Q [op]) (ht : (Q k).getLast? = some t)
    (hop : t.op ∈ s.inflight.takeWhile (· ≠ op)) : s.findQueueTail k = some t := by
  have hf : ((s.inflight.takeWhile (· ≠ op)).flatMap s.nodesOf).find? (s.isTail k) = some t := by
    rw [← ht]
    refine h.find_isTail (fun o ho => ⟨List.takeWhile_subset _ ho, ?_⟩) fun t' ht' => ?_
    · simpa using List.mem_takeWhile_imp ho
    · rwa [← Option.some.inj (ht.symm.trans ht')]
  have hs : s.findQueueTail k = (s.inflight.flatMap s.nodesOf).find? (s.isTail k) := rfl
  rw [hs, ← List.takeWhile_append_dropWhile (p := (· ≠ op)) (l := s.inflight),
    List.flatMap_append, List.find?_append, hf]
  rfl

end Tail

section Append

theorem Appendable.appendNode_nil (hn : s.Appendable Q k n) (ht : s.findQueueTail k = none) :
    s.appendNode env n = s.armRegistration env n := by
  simp [appendNode, hn.key, ht, setWaitPrev_eq_self hn.isolated.prev,
    setWaitNext_eq_self hn.isolated.next]

-- The state `append_node` leaves when it links `n` behind the tail `t`.
def linkAfter (s : Context) (t n : Node) : Context :=
  ((s.setWaitNext t (some n)).setWaitPrev n (some t)).setWaitNext n none

theorem linkAfter_links : (s.linkAfter t n).links = s.links.appendAfter t n := by
  simp [linkAfter, setWaitNext_links, setWaitPrev_links, Links.appendAfter]

theorem linkAfter_body : ((s.linkAfter t n).regs m).body = (s.regs m).body := by
  simp [linkAfter]

theorem Appendable.appendNode_cons (hn : s.Appendable Q k n) (ht : s.findQueueTail k = some t) :
    s.appendNode env n = (s.linkAfter t n, 0) := by
  have ha : ((s.linkAfter t n).regs n).armed = false :=
    (Registration.armed_eq linkAfter_body).trans hn.isolated.unarmed
  simp only [appendNode, hn.key, ht]
  exact Prod.ext (setArmed_eq_self ha) rfl

-- The node is linked, or it is the only one of its queue and the kernel refuses its filter.
inductive Appended (s : Context) (Q : Queues) (k : Key) (n : Node) : Context × Int → Prop
  | linked {s' : Context} (tidy : s'.Tidy (Q.append k n) [n.op])
    (head : ∀ k', s'.HeadArmed (Q.append k n) k') (ops : s'.ops = s.ops)
    (inflight : s'.inflight = s.inflight)
    (body : ∀ {m}, m ≠ n → (s'.regs m).body = (s.regs m).body) : Appended s Q k n (s', 0)
  | refused {status : Int} (h : status < 0) : Appended s Q k n (s, status)

theorem Tidy.append (env : Env) (h : s.Tidy Q [n.op]) (ha : ∀ k, s.HeadArmed Q k)
    (hn : s.Appendable Q k n) (ht : s.findQueueTail k = (Q k).getLast?) :
    Appended s Q k n (s.appendNode env n) := by
  have hni := hn.isolated.not_mem
  cases hl : (Q k).getLast?
  case none =>
    have hq : Q k = [] := List.getLast?_eq_none_iff.mp hl
    rw [hn.appendNode_nil (ht.trans hl)]
    by_cases hf : env.fails n
    case pos =>
      rw [armRegistration_of_fails hf]
      exact .refused <| by simpa [Env.fails] using hf
    case neg =>
      rw [armRegistration_of_not_fails (by simpa using hf), hn.key, hn.operation]
      have hr : ∀ m, m ≠ n →
          ((s.setFilter k (some n.op)).setArmed n true).regs m = s.regs m := fun m hm => by
        simp [setArmed, hm]
      refine .linked ?_ (fun k' => ?_) rfl rfl fun hm => by rw [hr _ hm]
      · refine h.link hn ?_ (fun m _ _ => by simp [setArmed_links]; trivial) (fun m => ?_)
          (fun m _ hm => by rw [hr m hm]) rfl rfl
        · rw [hq, setArmed_links]
          exact .singleton hn.isolated.prev hn.isolated.next
        · by_cases hm : m = n <;> simp [setArmed, hm, Registration.key]
      · by_cases hk : k' = k
        case pos =>
          subst hk
          refine ⟨by simp [hq], fun {m} hm => ?_⟩
          obtain rfl : m = n := by simpa [hq] using hm
          simp [setArmed, hq]
        case neg =>
          have := ha k'
          refine ⟨by simp [hk, this.filter], fun {m} hm => ?_⟩
          rw [Queues.append_of_ne hk] at hm ⊢
          rw [hr m fun he => hni k' (he ▸ hm), this.armed hm]
  case some t =>
    have hb := fun m => linkAfter_body (s := s) (t := t) (n := n) (m := m)
    have htq := List.mem_of_mem_getLast? hl
    have hne : Q k ≠ [] := List.ne_nil_of_mem htq
    rw [hn.appendNode_cons (ht.trans hl)]
    refine .linked ?_ (fun k' => ?_) rfl rfl fun _ => hb _
    · refine h.link hn ?_ (fun m hm hmn => ?_)
        (fun m => ⟨Registration.operation_eq (hb m), Registration.key_eq (hb m)⟩)
        (fun m _ _ => Registration.armed_eq (hb m)) rfl rfl
      · rw [linkAfter_links]
        exact (h.linked.queue k).appendAfter hl (hni k)
      · rw [linkAfter_links]
        exact Links.appendAfter_frame (fun he => hm (he ▸ htq)) hmn
    · have hh : (Q.append k n k').head? = (Q k').head? := by
        by_cases hk : k' = k
        case pos => simp [hk, List.head?_append_of_ne_nil _ hne]
        case neg => simp [hk]
      refine ⟨hh ▸ (ha k').filter, fun {m} hm => ?_⟩
      rw [hh, Registration.armed_eq (hb m)]
      obtain hm | ⟨_, rfl⟩ := Queues.mem_append.mp hm
      · exact (ha k').armed hm
      · exact iff_of_false (by simp [hn.isolated.unarmed]) fun he =>
          hni k' <| List.mem_of_mem_head? he

-- An append that fails has found the queue empty.
theorem Appendable.refused (env : Env) (hn : s.Appendable Q k n) (ht : s.findQueueTail k = (Q k).getLast?)
    (hneg : (s.appendNode env n).2 < 0) :
    Q k = [] ∧ env.fails n ∧ (s.appendNode env n).2 = (env.evAdd n).status := by
  cases hl : (Q k).getLast?
  case none =>
    rw [hn.appendNode_nil (ht.trans hl)] at hneg ⊢
    by_cases hf : env.fails n
    case pos =>
      rw [armRegistration_of_fails hf]
      exact ⟨List.getLast?_eq_none_iff.mp hl, hf, rfl⟩
    case neg => simp [armRegistration_of_not_fails (by simpa using hf)] at hneg
  case some t => simp [hn.appendNode_cons (ht.trans hl)] at hneg

@[simp]
theorem armRegistration_localCpu : (s.armRegistration env n).1.localCpu = s.localCpu := by
  simp only [armRegistration]
  split <;> rfl

@[simp]
theorem appendNode_localCpu : (s.appendNode env n).1.localCpu = s.localCpu := by
  unfold appendNode
  split
  · exact armRegistration_localCpu
  · rfl

@[simp]
theorem appendNode_ops : (s.appendNode env n).1.ops = s.ops := by
  unfold appendNode armRegistration
  split
  · dsimp only
    split <;> rfl
  · rfl

@[simp]
theorem appendNode_operation :
    ((s.appendNode env n).1.regs m).operation = (s.regs m).operation := by
  have hr : ∀ {s : Context} {b : Bool}, ((s.setArmed n b).regs m).operation = (s.regs m).operation :=
    fun {s _} => by by_cases h : m = n <;> simp [setArmed, h]
  unfold appendNode armRegistration
  split
  · dsimp only
    split
    · simp [Registration.operation_eq setWaitNext_body, Registration.operation_eq setWaitPrev_body]
    · simp [hr, Registration.operation_eq setWaitNext_body, Registration.operation_eq setWaitPrev_body]
  · simp [hr, Registration.operation_eq setWaitNext_body, Registration.operation_eq setWaitPrev_body]

end Append

section Undo

theorem Isolated.releaseNode (hn : s.Isolated Q n) : s.releaseNode n = (s.setReg n {}, none) := by
  simp [Context.releaseNode, unlinkNode, hn.unarmed, hn.next, hn.prev, setWaitPrev_eq_self hn.prev,
    setWaitNext_eq_self hn.next]

theorem setArmed_releaseNode (hn : s.Isolated Q n) (hk : (s.regs n).key = k)
    (hf : s.filters k = none) (v : Option OpId) :
    ((s.setFilter k v).setArmed n true).releaseNode n = (s.setReg n {}, none) := by
  have hfs : Function.update s.filters k none = s.filters := hf ▸ Function.update_eq_self k s.filters
  simp only [Registration.key] at hk
  simp [Context.releaseNode, unlinkNode, setArmed, setReg, setWaitPrev, setWaitNext, evDelete,
    setFilter, Registration.key, hk, hn.next, hn.prev, hfs]

theorem linkAfter_releaseNode (hn : s.Isolated Q n) (ht : (s.regs t).waitNext = none) (hne : t ≠ n) :
    (s.linkAfter t n).releaseNode n = (s.setReg n {}, none) := by
  have hx : ((s.linkAfter t n).regs n).waitNext = none := by simp [linkAfter, setWaitNext]
  have hp : ((s.linkAfter t n).regs n).waitPrev = some t := by
    simp [linkAfter, setWaitNext, setWaitPrev]
  have ha : ((s.linkAfter t n).regs n).armed = false :=
    (Registration.armed_eq linkAfter_body).trans hn.unarmed
  simp only [Context.releaseNode, unlinkNode, ha, Bool.false_eq_true, if_false, hx, hp]
  refine Prod.ext (Context.mk.injEq .. |>.mpr ⟨rfl, rfl, funext fun m => ?_, rfl, rfl, rfl, rfl⟩) rfl
  by_cases hm : m = n
  case pos => simp [hm]
  case neg =>
    by_cases hmt : m = t
    case pos => simp [linkAfter, setWaitNext, setWaitPrev, hmt, hne, ← ht]
    case neg => simp [linkAfter, setWaitNext, setWaitPrev, hmt, hm]

-- Taking back an append leaves no trace of it, whether the node has been linked or not.
theorem Tidy.append_releaseNode (env : Env) (h : s.Tidy Q [n.op]) (ha : ∀ k, s.HeadArmed Q k)
    (hn : s.Appendable Q k n) (ht : s.findQueueTail k = (Q k).getLast?) :
    (s.appendNode env n).1.releaseNode n = (s.setReg n {}, none) := by
  cases hl : (Q k).getLast?
  case none =>
    have hq : Q k = [] := List.getLast?_eq_none_iff.mp hl
    rw [hn.appendNode_nil (ht.trans hl)]
    by_cases hf : env.fails n
    case pos =>
      rw [armRegistration_of_fails hf]
      exact hn.isolated.releaseNode
    case neg =>
      rw [armRegistration_of_not_fails (by simpa using hf), hn.key]
      exact setArmed_releaseNode hn.isolated hn.key (by simp [(ha k).filter, hq]) _
  case some t =>
    have htq := List.mem_of_mem_getLast? hl
    rw [hn.appendNode_cons (ht.trans hl)]
    refine linkAfter_releaseNode hn.isolated ?_ fun he => hn.isolated.not_mem k (he ▸ htq)
    exact (h.linked.queue k).next_eq_none_iff htq |>.mpr hl

theorem unregisterNode_of_releaseNode {i : Nat} {s₁ : Context} (hi : i < (s.ops op).registrationCount)
    (hop : (s.regs ⟨op, i⟩).operation = some op) (hr : s.releaseNode ⟨op, i⟩ = (s₁, none)) :
    s.unregisterNode env op i = s₁ := by
  have hs : ∀ fuel, armQueueHead env fuel s₁ none = s₁ := fun fuel => by cases fuel <;> rfl
  simp [unregisterNode, hi, hop, hr, hs]

end Undo

-- Every inflight operation waits with all of its nodes and every queue has its head armed.
structure Steady (s : Context) (Q : Queues) : Prop where
  tidy : s.Tidy Q []
  head : ∀ k, s.HeadArmed Q k

theorem Steady.congr (h : s.Steady Q) (hr : s'.regs = s.regs) (hf : s'.filters = s.filters)
    (ho : ∀ op, (s'.ops op).registrationCount = (s.ops op).registrationCount)
    (hi : s'.inflight = s.inflight) : s'.Steady Q where
  tidy   := h.tidy.congr (by simp only [links, hr]) (by simp [hr]) (by simp [hr]) ho hi
  head k := (h.head k).congr (by rw [hf]) (by simp [hr])

-- An inflight operation that has all of its nodes queued again is an ordinary waiter.
theorem Tidy.settle (h : s.Tidy Q [op]) (hop : op ∈ s.inflight)
    (hc : 0 < (s.ops op).registrationCount)
    (hq : ∀ n ∈ s.nodesOf op, n ∈ Q (s.regs n).key) : s.Tidy Q [] where
  linked := h.linked
  distinct := h.distinct
  nodup := h.nodup
  active hn := .inl <| (h.active hn).elim id fun he => by simpa [List.mem_singleton.mp he] using hop
  idle {o} h₁ _ := h.idle h₁ fun he => h₁ <| by simpa [List.mem_singleton.mp he] using hop
  waiting {o} h₁ _ := by
    by_cases ho : o = op
    case pos => exact ho ▸ hc
    case neg => exact h.waiting h₁ (by simpa using ho)
  queued {n} h₁ _ h₃ := by
    by_cases ho : n.op = op
    case pos => exact hq n (ho ▸ h₃)
    case neg => exact h.queued h₁ (by simpa using ho) h₃
  loose := by simp

section Register

variable {hlp : Helper} {fs : List Int} {i j : Nat} {f g fd : Int}

@[simp]
theorem fillRegistrations_ops : (fillRegistrations op hlp j fs s).ops = s.ops := by
  induction fs generalizing j s
  case nil          => rfl
  case cons f fs hi => exact hi

@[simp]
theorem fillRegistrations_inflight : (fillRegistrations op hlp j fs s).inflight = s.inflight := by
  induction fs generalizing j s
  case nil          => rfl
  case cons f fs hi => exact hi

@[simp]
theorem fillRegistrations_filters : (fillRegistrations op hlp j fs s).filters = s.filters := by
  induction fs generalizing j s
  case nil          => rfl
  case cons f fs hi => exact hi

theorem fillRegistrations_regs_of_lt (h : m.op ≠ op ∨ m.index < j) :
    (fillRegistrations op hlp j fs s).regs m = s.regs m := by
  induction fs generalizing j s
  case nil          => rfl
  case cons f fs hi =>
    have hm : m ≠ ⟨op, j⟩ := fun he => by simp [he] at h
    rw [fillRegistrations, hi (h.imp_right Nat.lt_succ_of_lt)]
    simp [hm]

-- What `prepare_io` writes to the node of one filter.
structure Prepared (s : Context) (n : Node) (k : Key) : Prop where
  operation : (s.regs n).operation = some n.op
  key : (s.regs n).key = k
  next : (s.regs n).waitNext = none
  prev : (s.regs n).waitPrev = none
  unarmed : (s.regs n).armed = false

theorem fillRegistrations_prepared (hf : fs[i]? = some f) :
    (fillRegistrations op hlp j fs s).Prepared ⟨op, j + i⟩ (hlp.descriptor, f) := by
  induction fs generalizing i j s
  case nil           => simp at hf
  case cons f' fs hi =>
    rw [fillRegistrations]
    obtain _ | i := i
    case zero =>
      obtain rfl : f' = f := by simpa using hf
      constructor <;> rw [fillRegistrations_regs_of_lt (.inr (by simp))] <;> simp [Registration.key]
    case succ =>
      have he : j + (i + 1) = j + 1 + i := by omega
      exact he ▸ hi (by simpa using hf)

theorem prepare_filters (r : Request) : (∃ f, r.prepare.filters = [f]) ∨
    (∃ f g, f ≠ g ∧ r.prepare.filters = [f, g]) ∨ r.prepare.filters = [] := by
  cases r
  case poll fd pm =>
    simp only [Request.prepare, Helper.prepPollAdd, Helper.reset, Helper.appendFilter]
    by_cases hr : pm &&& readPollMask = 0 <;> by_cases hw : pm &&& writePollMask = 0 <;>
      simp [hr, hw, evfiltRead, evfiltWrite, einval]
  all_goals simp [Request.prepare, Helper.prepRead, Helper.prepWrite, Helper.prepNop, Helper.reset,
    Helper.appendFilter]

-- Filling the nodes of an idle operation.
theorem Steady.fill (h : s.Steady Q) (hop : op ∉ s.inflight)
    (hr : ∀ m, m.op ≠ op → s'.regs m = s.regs m) (ho : ∀ o, o ≠ op → s'.ops o = s.ops o)
    (hn : ∀ n ∈ s'.nodesOf op, ∃ k, s'.Prepared n k)
    (hi : s'.inflight = s.inflight) (hf : s'.filters = s.filters) :
    s'.Tidy Q [op] ∧ ∀ k, s'.HeadArmed Q k := by
  have hq : ∀ {k n}, n ∈ Q k → n.op ≠ op := fun hn he =>
    (h.tidy.active hn).elim (fun h => hop (he ▸ h)) (by simp)
  have hnodes : ∀ {n : Node}, n.op ≠ op → (n ∈ s'.nodesOf n.op ↔ n ∈ s.nodesOf n.op) :=
    fun hne => mem_nodesOf_congr <| by rw [ho _ hne]
  refine ⟨⟨h.tidy.linked.congr (fun hn => hr _ (hq hn)) ?_, h.tidy.distinct, hi ▸ h.tidy.nodup,
    fun hn => .inl ?_, fun h₁ h₂ => ?_, fun h₁ h₂ => ?_, fun {n} h₁ h₂ h₃ => ?_,
    fun {n} h₁ h₂ => ?_⟩, fun k => (h.head k).congr (by rw [hf]) fun n hn => by rw [hr n (hq hn)]⟩
  · exact fun hn => hnodes (hq hn) |>.mpr (h.tidy.linked.owned hn)
  · exact hi ▸ (h.tidy.active hn).resolve_right (by simp)
  · exact ho _ (by simpa using h₂) ▸ h.tidy.idle (hi ▸ h₁) (by simp)
  · exact ho _ (by simpa using h₂) ▸ h.tidy.waiting (hi ▸ h₁) (by simp)
  · have hne : n.op ≠ op := by simpa using h₂
    exact hr _ hne ▸ h.tidy.queued (hi ▸ h₁) (by simp) (hnodes hne |>.mp h₃)
  · have he : n.op = op := by simpa using h₁
    have ⟨_, hp⟩ := hn n (he ▸ h₂)
    exact .inr ⟨fun k hk => hq hk he, hp.next, hp.prev, hp.unarmed⟩

theorem Tidy.enlist (h : s.Tidy Q [op]) (ha : ∀ k, s.HeadArmed Q k) (hop : op ∉ s.inflight)
    (hc : 0 < (s.ops op).registrationCount)
    (hq : ∀ n ∈ s.nodesOf op, n ∈ Q (s.regs n).key) : (s.addInflight op).Steady Q := by
  have hi : s.addInflight op = { s with inflight := op :: s.inflight } := by
    simp [addInflight, hop]
  rw [hi]
  refine ⟨⟨h.linked.congr (fun _ => rfl) h.linked.owned, h.distinct,
    List.nodup_cons.mpr ⟨hop, h.nodup⟩, fun hn => ?_, fun {o} h₁ _ => ?_, fun {o} h₁ _ => ?_,
    fun {n} h₁ _ h₃ => ?_, by simp⟩, fun k => (ha k).congr rfl fun _ _ => rfl⟩
  · simpa [or_comm] using h.active hn
  · have ⟨h₁, h₂⟩ : o ≠ op ∧ o ∉ s.inflight := by simpa using h₁
    exact h.idle h₂ (by simpa using h₁)
  · by_cases ho : o = op
    case pos => exact ho ▸ hc
    case neg => exact h.waiting (by simpa [ho] using h₁) (by simpa using ho)
  · by_cases ho : n.op = op
    case pos => exact hq n (ho ▸ h₃)
    case neg => exact h.queued (by simpa [ho] using h₁) (by simpa using ho) h₃

-- The two possible shapes of a registration: one filter, or two different ones.
inductive Fresh (s : Context) (op : OpId) : Prop
  | one {k : Key} (count : (s.ops op).registrationCount = 1) (first : s.Prepared ⟨op, 0⟩ k)
  | two {k k' : Key} (count : (s.ops op).registrationCount = 2) (first : s.Prepared ⟨op, 0⟩ k)
    (second : s.Prepared ⟨op, 1⟩ k') (ne : k.2 ≠ k'.2)

theorem Prepared.appendable (hp : s.Prepared n k) (hn : n ∈ s.nodesOf n.op)
    (hq : ∀ k, n ∉ Q k) (hd : ∀ {k' m}, m ∈ Q k' → m.op = n.op → k'.2 ≠ k.2) :
    s.Appendable Q k n :=
  ⟨⟨hq, hp.next, hp.prev, hp.unarmed⟩, hn, hp.operation, hp.key, hd⟩

-- `s` with every node of `op` reset.
def withdraw (s : Context) (op : OpId) : Context :=
  { s with
    ops := Function.update s.ops op { s.ops op with registrationCount := 0 }
    regs := fun m => if m ∈ s.nodesOf op then {} else s.regs m }

theorem Tidy.withdraw (h : s.Tidy Q [op]) (ha : ∀ k, s.HeadArmed Q k)
    (hop : op ∉ s.inflight) (hq : ∀ {k n}, n ∈ Q k → n.op ≠ op) : (s.withdraw op).Steady Q := by
  have hr : ∀ {m : Node}, m.op ≠ op → (s.withdraw op).regs m = s.regs m := fun hne => by
    simp [Context.withdraw, mem_nodesOf, hne]
  have ho : ∀ {o}, o ≠ op → (s.withdraw op).ops o = s.ops o := fun hne => by
    simp [Context.withdraw, hne]
  have hnodes : ∀ {n : Node}, n.op ≠ op → (n ∈ (s.withdraw op).nodesOf n.op ↔ n ∈ s.nodesOf n.op) :=
    fun hne => mem_nodesOf_congr <| by rw [ho hne]
  have hne : ∀ {o}, o ∈ s.inflight → o ≠ op := fun hi he => hop (he ▸ hi)
  refine ⟨⟨h.linked.congr (fun hn => hr (hq hn)) ?_, h.distinct, h.nodup, fun hn => .inl ?_,
    fun {o} h₁ _ => ?_, fun {o} h₁ _ => ?_, fun {n} h₁ _ h₃ => ?_, by simp⟩,
    fun k => (ha k).congr rfl fun n hn => by rw [hr (hq hn)]⟩
  · exact fun hn => hnodes (hq hn) |>.mpr (h.linked.owned hn)
  · exact (h.active hn).resolve_right <| by simpa using hq hn
  · by_cases he : o = op
    case pos => simp [Context.withdraw, he]
    case neg => exact ho he ▸ h.idle h₁ (by simpa using he)
  · exact ho (hne h₁) ▸ h.waiting h₁ (by simpa using hne h₁)
  · exact hr (hne h₁) ▸ h.queued h₁ (by simpa using hne h₁) (hnodes (hne h₁) |>.mp h₃)

theorem nodesOf_of_one (hc : (s.ops op).registrationCount = 1) : s.nodesOf op = [⟨op, 0⟩] := by
  simp [nodesOf, hc]

theorem nodesOf_of_two (hc : (s.ops op).registrationCount = 2) :
    s.nodesOf op = [⟨op, 0⟩, ⟨op, 1⟩] := by
  simp [nodesOf, hc]

theorem Fresh.first (hf : s.Fresh op) :
    0 < (s.ops op).registrationCount ∧ ∃ k, s.Prepared ⟨op, 0⟩ k := by
  cases hf
  case one hc hp     => exact ⟨by omega, _, hp⟩
  case two hc hp _ _ => exact ⟨by omega, _, hp⟩

theorem Prepared.appendable_first (hp : s.Prepared ⟨op, 0⟩ k) (hc : 0 < (s.ops op).registrationCount)
    (hq : ∀ {k n}, n ∈ Q k → n.op ≠ op) : s.Appendable Q k ⟨op, 0⟩ :=
  hp.appendable (by simp [mem_nodesOf, hc]) (fun _ hk => hq hk rfl) fun hm he => absurd he (hq hm)

-- A registration is taken back after its first node has been appended, or not even that one.
theorem Tidy.rollback (env : Env) (h : s.Tidy Q [op]) (ha : ∀ k, s.HeadArmed Q k)
    (hop : op ∉ s.inflight) (hq : ∀ {k n}, n ∈ Q k → n.op ≠ op) (hf : s.Fresh op) :
    (s.appendNode env ⟨op, 0⟩).1.unregisterOperation env op = s.withdraw op := by
  have ⟨hc, k, hp⟩ := hf.first
  have hr := Tidy.append_releaseNode (n := ⟨op, 0⟩) env h ha (hp.appendable_first hc hq)
    (h.findQueueTail_of_not_mem hop fun n hn => hq hn)
  have h₀ : (s.appendNode env ⟨op, 0⟩).1.unregisterNode env op 0 = s.setReg ⟨op, 0⟩ {} :=
    unregisterNode_of_releaseNode (by simpa using hc) (by simp [hp.operation]) hr
  simp only [unregisterOperation, List.foldl_cons, List.foldl_nil, h₀]
  cases hf
  case one hc _ =>
    have h₁ : (s.setReg ⟨op, 0⟩ {}).unregisterNode env op 1 = s.setReg ⟨op, 0⟩ {} := by
      simp [Context.unregisterNode, hc]
    rw [h₁]
    refine Context.mk.injEq .. |>.mpr ⟨rfl, rfl, funext fun m => ?_, rfl, rfl, rfl, rfl⟩
    simp [nodesOf_of_one hc]
  case two hc _ hp' _ =>
    have hn : (s.setReg ⟨op, 0⟩ {}).Isolated Q ⟨op, 1⟩ :=
      ⟨fun _ hk => hq hk rfl, by simp [hp'.next], by simp [hp'.prev], by simp [hp'.unarmed]⟩
    have h₁ : (s.setReg ⟨op, 0⟩ {}).unregisterNode env op 1 =
        (s.setReg ⟨op, 0⟩ {}).setReg ⟨op, 1⟩ {} :=
      unregisterNode_of_releaseNode (by simp [hc]) (by simp [hp'.operation]) hn.releaseNode
    rw [h₁]
    refine Context.mk.injEq .. |>.mpr ⟨rfl, rfl, funext fun m => ?_, rfl, rfl, rfl, rfl⟩
    by_cases hm : m = ⟨op, 1⟩ <;> simp [nodesOf_of_two hc, hm]

-- The queues `Q` with every node of `op` behind the last one of its queue.
def enqueued (s : Context) (Q : Queues) (op : OpId) : Queues := fun k =>
  Q k ++ (s.nodesOf op).filter fun n => (s.regs n).key = k

-- What comes of a registration: all of the nodes are queued, or one that would have been the only one
-- of its queue is refused by the kernel and nothing is left of the others.
inductive Registered (env : Env) (s : Context) (Q : Queues) (op : OpId) : Context × Int → Prop
  | linked {s' : Context} (steady : (s'.addInflight op).Steady (s.enqueued Q op)) (ops : s'.ops = s.ops)
    (inflight : s'.inflight = s.inflight) (localCpu : s'.localCpu = s.localCpu)
    (body : ∀ {m}, m.op ≠ op → (s'.regs m).body = (s.regs m).body)
    (key : ∀ {m}, m ∈ s.nodesOf op → (s'.regs m).key = (s.regs m).key) : Registered env s Q op (s', 0)
  | refused {n : Node} (mem : n ∈ s.nodesOf op) (empty : Q (s.regs n).key = []) (fails : env.fails n) :
    Registered env s Q op (s.withdraw op, (env.evAdd n).status)

theorem Tidy.registered (env : Env) (h : s.Tidy Q [op]) (ha : ∀ k, s.HeadArmed Q k)
    (hop : op ∉ s.inflight) (hq : ∀ {k n}, n ∈ Q k → n.op ≠ op) (hf : s.Fresh op) :
    Registered env s Q op (s.registerOperation env op) := by
  have ⟨hc₀, k, hp⟩ := hf.first
  have hroll := h.rollback env ha hop hq hf
  have hcpu : (s.appendNode env ⟨op, 0⟩).1.localCpu = s.localCpu := appendNode_localCpu
  have hap := hp.appendable_first (Q := Q) hc₀ hq
  have htail := h.findQueueTail_of_not_mem (k := k) hop fun n hn => hq hn
  have hr := hap.refused env htail
  have happ := Tidy.append (n := ⟨op, 0⟩) env h ha hap htail
  simp only [registerOperation, registerFrom, hc₀]
  generalize s.appendNode env ⟨op, 0⟩ = r at happ hr hroll hcpu ⊢
  cases happ
  case refused status hneg =>
    have ⟨hnil, hfails, he⟩ := hr hneg
    simp only [if_true, if_pos hneg]
    rw [hroll, show status = _ from he]
    exact .refused hap.owned (hp.key.symm ▸ hnil) hfails
  case linked s₁ h₁ ha₁ ho hi hb =>
    simp only [if_true, Int.lt_irrefl, if_false, ho]
    have hn₀ : ⟨op, 0⟩ ∈ Q.append k ⟨op, 0⟩ k := by simp
    cases hf
    case one hc _ =>
      have hen : s.enqueued Q op = Q.append k ⟨op, 0⟩ := by
        funext k'
        by_cases hk : k' = k <;> simp [enqueued, nodesOf_of_one hc, hp.key, hk, Ne.symm]
      have hnodes : ∀ {m}, m ∈ s.nodesOf op → m = ⟨op, 0⟩ := by simp [nodesOf_of_one hc]
      simp only [hc, Nat.lt_irrefl, if_false]
      refine .linked (hen ▸ h₁.enlist ha₁ (hi ▸ hop) (ho ▸ hc₀) fun n hn => ?_) ho hi hcpu
        (fun hm => hb (ne_of_apply_ne Node.op hm)) fun hm => ?_
      · obtain rfl := hnodes (mem_nodesOf_congr (by rw [ho]) |>.mp hn)
        exact h₁.mem_key hn₀
      · rw [hnodes hm, h₁.linked.key hn₀, hp.key]
    case two k₀ k' hc hp₀ hp' hne =>
      obtain rfl : k₀ = k := hp₀.key.symm.trans hp.key
      have hkk : k' ≠ k₀ := fun he => hne (he ▸ rfl)
      have hen : s.enqueued Q op = (Q.append k₀ ⟨op, 0⟩).append k' ⟨op, 1⟩ := by
        funext k₁
        by_cases h₀ : k₁ = k₀
        case pos => simp [enqueued, nodesOf_of_two hc, hp.key, hp'.key, h₀, hkk, hkk.symm]
        case neg => by_cases h₁ : k₁ = k' <;>
          simp [enqueued, nodesOf_of_two hc, hp.key, hp'.key, h₀, h₁, hkk, hkk.symm, Ne.symm]
      -- Only the first node of the operation is linked so far.
      have hown : ∀ {k₁ m}, m ∈ Q.append k₀ ⟨op, 0⟩ k₁ → m.op = op → k₁ = k₀ ∧ m = ⟨op, 0⟩ :=
        fun hm he => (Queues.mem_append.mp hm).resolve_left fun hm => hq hm he
      have hb₁ := hb (m := ⟨op, 1⟩) (by simp)
      have hn₁ : ⟨op, 1⟩ ∈ s₁.nodesOf op := by simp [mem_nodesOf, ho, hc]
      have hiso := (h₁.loose (n := ⟨op, 1⟩) (by simp) hn₁).resolve_left fun hm => by
        simpa using hown hm rfl
      have hap₁ : s₁.Appendable (Q.append k₀ ⟨op, 0⟩) k' ⟨op, 1⟩ := by
        refine ⟨hiso, hn₁, ?_, ?_, fun hm he => (hown hm he).1 ▸ hne⟩
        · rw [Registration.operation_eq hb₁, hp'.operation]
        · rw [Registration.key_eq hb₁, hp'.key]
      have htail₁ : s₁.findQueueTail k' = (Q.append k₀ ⟨op, 0⟩ k').getLast? :=
        h₁.findQueueTail_of_not_mem (hi ▸ hop) fun n hn he => hne (by rw [(hown hn he).1])
      have hcpu₁ : (s₁.appendNode env ⟨op, 1⟩).1.localCpu = s₁.localCpu := appendNode_localCpu
      have hr₁ := hap₁.refused env htail₁
      have happ₁ := Tidy.append (n := ⟨op, 1⟩) env h₁ ha₁ hap₁ htail₁
      have h2 : (1 : Nat) < 2 := by decide
      simp only [hc, h2, if_true]
      generalize s₁.appendNode env ⟨op, 1⟩ = r at happ₁ hr₁ hcpu₁ ⊢
      cases happ₁
      case refused status hneg =>
        have ⟨hnil, hfails, he⟩ := hr₁ hneg
        simp only [if_pos hneg]
        rw [show status = _ from he, hroll]
        refine .refused (by simp [nodesOf_of_two hc]) (hp'.key.symm ▸ ?_) hfails
        rwa [Queues.append_of_ne hkk] at hnil
      case linked s₂ h₂ ha₂ ho₂ hi₂ hb₂ =>
        have hnodes : ∀ {m}, m ∈ s.nodesOf op → m = ⟨op, 0⟩ ∨ m = ⟨op, 1⟩ := by
          simp [nodesOf_of_two hc]
        have hm₀ : ⟨op, 0⟩ ∈ (Q.append k₀ ⟨op, 0⟩).append k' ⟨op, 1⟩ k₀ :=
          Queues.mem_append.mpr (.inl hn₀)
        have hm₁ : ⟨op, 1⟩ ∈ (Q.append k₀ ⟨op, 0⟩).append k' ⟨op, 1⟩ k' := by simp
        simp only [Int.lt_irrefl, if_false]
        refine .linked (hen ▸ h₂.enlist ha₂ (hi₂ ▸ hi ▸ hop) (ho₂ ▸ ho ▸ hc₀) fun n hn => ?_)
          (ho₂.trans ho) (hi₂.trans hi) (hcpu₁.trans hcpu) (fun hm => ?_) fun hm => ?_
        · obtain rfl | rfl := hnodes (mem_nodesOf_congr (by rw [ho₂, ho]) |>.mp hn)
          · exact h₂.mem_key hm₀
          · exact h₂.mem_key hm₁
        · exact (hb₂ (ne_of_apply_ne Node.op hm)).trans (hb (ne_of_apply_ne Node.op hm))
        · obtain rfl | rfl := hnodes hm
          · rw [h₂.linked.key hm₀, hp.key]
          · rw [h₂.linked.key hm₁, hp'.key]

theorem Tidy.register (env : Env) (h : s.Tidy Q [op]) (ha : ∀ k, s.HeadArmed Q k) (hop : op ∉ s.inflight)
    (hq : ∀ {k n}, n ∈ Q k → n.op ≠ op) (hf : s.Fresh op) :
    ∃ Q', if (s.registerOperation env op).2 < 0 then (s.registerOperation env op).1.Steady Q'
      else ((s.registerOperation env op).1.addInflight op).Steady Q' := by
  have hr := h.registered env ha hop hq hf
  generalize s.registerOperation env op = r at hr
  cases hr
  case linked hs _ _ _ _ _  => exact ⟨_, by simpa using hs⟩
  case refused n _ _ hfails =>
    have hneg : (env.evAdd n).status < 0 := by simpa [Env.fails] using hfails
    exact ⟨Q, by simpa [hneg] using h.withdraw ha hop hq⟩

end Register

end Context
end Bnio.Kqueue
