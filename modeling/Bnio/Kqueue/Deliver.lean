import Bnio.Kqueue.Enqueue

theorem List.mem_takeWhile_filter {α : Type*} {p q : α → Bool} {l : List α} {a : α}
    (h : a ∈ l.takeWhile q) (hp : p a) : a ∈ (l.filter p).takeWhile q := by
  induction l
  case nil         => simp at h
  case cons b l hi =>
    by_cases hb : q b
    case neg => simp [hb] at h
    case pos =>
      obtain rfl | h : a = b ∨ a ∈ l.takeWhile q := by simpa [hb] using h
      · simp [hp, hb]
      · by_cases hpb : p b
        case pos => simp [hpb, hb, hi h]
        case neg => simpa [hpb] using hi h

namespace Bnio.Kqueue

-- `perform_io` has nothing to do yet.
def Env.blocks (env : Env) (op : OpId) : Bool :=
  env.ownsIoStep op && env.performIo op = -eagain

-- The event leads to the EAGAIN path of `perform_io_step`.
def Event.Blocks (e : Event) (env : Env) (op : OpId) : Task → Prop
  | .poll                => False
  | .write               => ¬(e.hasError ∧ e.data ≠ 0) ∧ ¬e.hasEof ∧ env.blocks op
  | .read | .none | .nop => ¬(e.hasError ∧ e.data ≠ 0) ∧ env.blocks op

-- When the event `e` of the head `n` of queue `k` finds the queues `Q`:
structure SafeFire (env : Env) (s : Context) (Q : Queues) (e : Event) (n : Node) (k : Key) :
    Prop where
  -- no operation that fails while the next waiter is armed is the armed head of another queue with
  -- waiters left,
  strands : ¬Q.Strands k (env.failing (Q k).tail)
  -- an operation that has to wait again finds a waiter left in the queue, and the operation of the
  -- last one comes first in the inflight list,
  ahead : e.Blocks env n.op (s.regs n).task →
    ∃ t, ((Q.without n).withoutOps (env.failing (Q k).tail) k).getLast? = some t ∧
      t.op ∈ s.inflight.takeWhile (· ≠ n.op)
  -- and the same as the first holds for the queue of the other node of an operation that completes.
  other : ¬e.Blocks env n.op (s.regs n).task →
    ∀ k' m, m.op = n.op → ((Q.without n).withoutOps (env.failing (Q k).tail) k').head? = some m →
      ¬((Q.without n).withoutOps (env.failing (Q k).tail)).Strands k'
        (env.failing ((Q.without n).withoutOps (env.failing (Q k).tail) k').tail)

namespace Context

variable {env : Env} {s s' : Context} {n m t : Node} {op : OpId} {k : Key} {Q : Queues} {e : Event}

section Dispatch

theorem performIoStep_of_not_blocks (h : ¬env.blocks op) :
    ∃ r, s.performIoStep env op n = (s.setResult op r, true) := by
  refine ⟨if env.ownsIoStep op then env.performIo op else -eopnotsupp, ?_⟩
  have hne : (if env.ownsIoStep op then env.performIo op else -eopnotsupp) ≠ -eagain := by
    split
    case isTrue ho  => simpa [Env.blocks, ho] using h
    case isFalse ho => decide
  simp only [performIoStep, if_neg hne]

theorem performIoStep_of_blocks (h : env.blocks op) :
    s.performIoStep env op n =
      let r := (s.setResult op (-eagain)).tryRearmOperation env op n
      (r.1, !r.2) := by
  have ⟨ho, hp⟩ : env.ownsIoStep op = true ∧ env.performIo op = -eagain := by
    simpa [Env.blocks] using h
  simp only [performIoStep, ho, hp, if_true]

theorem dispatchReadResult_of_not_blocks (h : ¬(¬(e.hasError ∧ e.data ≠ 0) ∧ env.blocks op)) :
    ∃ r, s.dispatchReadResult env op n e = (s.setResult op r, true) := by
  unfold dispatchReadResult
  split
  case isTrue     => exact ⟨_, rfl⟩
  case isFalse he => exact performIoStep_of_not_blocks fun hb => h ⟨he, hb⟩

theorem dispatchEventResult_of_not_blocks (h : ¬e.Blocks env op (s.regs n).task) :
    ∃ r, s.dispatchEventResult env op n e = (s.setResult op r, true) := by
  unfold dispatchEventResult
  cases ht : (s.regs n).task <;> rw [ht] at h
  case poll  => exact ⟨_, rfl⟩
  case write =>
    simp only [dispatchWriteResult]
    split
    case isTrue     => exact ⟨_, rfl⟩
    case isFalse he =>
      split
      case isTrue     => exact ⟨_, rfl⟩
      case isFalse hf => exact performIoStep_of_not_blocks fun hb => h ⟨he, hf, hb⟩
  all_goals exact dispatchReadResult_of_not_blocks h

theorem dispatchEventResult_of_blocks (h : e.Blocks env op (s.regs n).task) :
    s.dispatchEventResult env op n e =
      let r := (s.setResult op (-eagain)).tryRearmOperation env op n
      (r.1, !r.2) := by
  unfold dispatchEventResult
  cases ht : (s.regs n).task <;> rw [ht] at h
  case poll  => exact h.elim
  case write =>
    simp only [dispatchWriteResult, if_neg h.1, if_neg h.2.1]
    exact performIoStep_of_blocks h.2.2
  all_goals
    simp only [dispatchReadResult, if_neg h.1]
    exact performIoStep_of_blocks h.2

end Dispatch

section Fire

-- The first steps of `process_event` take the node out like a release does, but do not reset it.
theorem fire_unlinks (ha : (s.regs n).armed) :
    s.Unlinks n (((s.evDelete (s.regs n).key).setArmed n false).unlinkNode n).1 where
  links    := by rw [unlinkNode_links, setArmed_links]; rfl
  body h   := by rw [unlinkNode_body, setArmed_body h]; rfl
  unarmed  := (Registration.armed_eq unlinkNode_body).trans (by simp [setArmed])
  filters  := by simp [ha]
  ops      := by simp
  inflight := by simp

theorem unlinkNode_snd : (s.unlinkNode n).2 = (s.regs n).waitNext :=
  rfl

-- `s'` is `s` after the head `n` of queue `k` has fired and the rest of the queue has been armed.
structure Fired (s : Context) (Q : Queues) (k : Key) (n : Node) (s' : Context) (Q' : Queues) :
    Prop where
  tidy : s'.Tidy Q' [n.op]
  head : ∀ k', s'.HeadArmed Q' k'
  isolated : s'.Isolated Q' n
  operation : (s'.regs n).operation = some n.op
  key : (s'.regs n).key = k
  task : (s'.regs n).task = (s.regs n).task
  count : (s'.ops n.op).registrationCount = (s.ops n.op).registrationCount
  sub : ∀ k', (Q' k').Sublist (Q k')
  stay : ∀ {k' m}, m ∈ Q k' → m.op = n.op → m ≠ n → m ∈ Q' k'
  inflight : n.op ∈ s'.inflight
  ahead : ∀ {k' m}, m ∈ Q' k' → m.op ∈ s.inflight.takeWhile (· ≠ n.op) →
    m.op ∈ s'.inflight.takeWhile (· ≠ n.op)

theorem Steady.fire {s₁ : Context} (h : s.Steady Q) (hn : (Q k).head? = some n)
    (hs : ¬Q.Strands k (env.failing (Q k).tail))
    (he : (((s.evDelete (s.regs n).key).setArmed n false).unlinkNode n).1 = s₁) :
    s.Fired Q k n (armQueueHead env s₁.inflight.length s₁ (s.regs n).waitNext)
      ((Q.without n).withoutOps (env.failing (Q k).tail)) := by
  have hq := List.mem_of_mem_head? hn
  have hin : n.op ∈ s.inflight := (h.tidy.active hq).resolve_right (by simp)
  have hu : s.Unlinks n s₁ := he ▸ fire_unlinks ((h.head k).armed hq |>.mpr hn)
  have ⟨hr, ha⟩ := Tidy.unlinkHead env (h.tidy.cons hin) h.head hn hu hs
  have hR : n.op ∉ env.failing (Q k).tail := fun hm => by
    have ⟨c, hc, he⟩ := List.mem_map.mp hm
    have hc := List.takeWhile_subset _ hc
    obtain rfl := h.tidy.distinct (List.mem_of_mem_tail hc) hq he rfl
    have hd := List.cons_head?_tail hn ▸ (h.tidy.linked.queue k).nodup
    exact (List.nodup_cons.mp hd).1 hc
  have hb := hr.body hR (m := n) (by simp)
  have hb₁ : (s₁.regs n).body = (((s.evDelete (s.regs n).key).setArmed n false).regs n).body :=
    he ▸ unlinkNode_body
  have hcount := congrArg Operation.registrationCount <| (hr.ops hR).trans (by rw [hu.ops])
  refine ⟨hr.tidy, ha, ?_, ?_, ?_, ?_, hcount, ?_, ?_, ?_, ?_⟩
  · refine (hr.tidy.loose (by simp) ?_).resolve_left (by simp)
    exact mem_nodesOf_congr hcount |>.mpr (h.tidy.linked.owned hq)
  · rw [Registration.operation_eq hb, Registration.operation_eq hb₁]
    simpa [setArmed] using h.tidy.linked.operation hq
  · rw [Registration.key_eq hb, Registration.key_eq hb₁]
    simpa [setArmed, Registration.key] using h.tidy.linked.key hq
  · rw [Registration.task_eq hb, Registration.task_eq hb₁]
    simp [setArmed]
  · exact fun k => Queues.withoutOps_sublist.trans Queues.without_sublist
  · exact fun hm he hne => by simp [hm, hne, he, hR]
  · rw [hr.inflight, hu.inflight]
    simp [hin, hR]
  · intro k m hm hop
    rw [hr.inflight, hu.inflight]
    exact List.mem_takeWhile_filter hop <| by simpa using (Queues.mem_withoutOps.mp hm).2

end Fire

namespace Fired

variable {Q' : Queues}

-- Neither `flags` nor `result` matters to the queues.
theorem setOp {o : Operation} (h : s.Fired Q k n s' Q')
    (ho : o.registrationCount = (s'.ops n.op).registrationCount) :
    s.Fired Q k n (s'.setOp n.op o) Q' := by
  refine ⟨h.tidy.congr rfl (by simp) (by simp) (fun op => ?_) rfl,
    fun k => (h.head k).congr rfl (by simp), ⟨h.isolated.not_mem, h.isolated.next, h.isolated.prev,
    h.isolated.unarmed⟩, h.operation, h.key, h.task, ?_, h.sub, h.stay, h.inflight, h.ahead⟩
  · by_cases hop : op = n.op <;> simp [hop, ho]
  · simp [ho, h.count]

-- The operation completes.
theorem complete (h : s.Fired Q k n s' Q') (hn : n ∈ Q k) (hs : s.Steady Q)
    (ho : ∀ k' m, m.op = n.op → (Q' k').head? = some m →
      ¬Q'.Strands k' (env.failing (Q' k').tail)) :
    ∃ Q₁, ((s'.unregisterOperation env n.op).removeInflight n.op).Steady Q₁ ∧
      ∀ k, (Q₁ k).Sublist (Q k) := by
  have hindex : ∀ {k m}, m ∈ Q' k → m.op = n.op → m = ⟨n.op, 1 - n.index⟩ := fun {k m} hm he => by
    have h₁ := (mem_nodesOf.mp <| h.tidy.linked.owned hm).2.1
    have h₂ := (mem_nodesOf.mp <| hs.tidy.linked.owned hn).2.1
    have hne : m ≠ n := fun he => h.isolated.not_mem k (he ▸ hm)
    obtain ⟨o, i⟩ := m
    obtain ⟨o', j⟩ := n
    obtain rfl : o = o' := he
    simp only [Node.mk.injEq, ne_eq, true_and] at h₁ h₂ hne ⊢
    omega
  have ⟨Q₁, hsub, h₁, ha₁⟩ := h.tidy.unregister h.head
    (fun hn hm he he' => (hindex hn he).trans (hindex hm he').symm) ho
  exact ⟨Q₁, ⟨h₁, ha₁⟩, fun k => (hsub k).trans (h.sub k)⟩

-- The operation waits again, behind the last waiter of the queue.
theorem rearm (env : Env) (h : s.Fired Q k n s' Q') (hn : n ∈ Q k) (hs : s.Steady Q)
    (ht : (Q' k).getLast? = some t) (hop : t.op ∈ s.inflight.takeWhile (· ≠ n.op)) :
    (s'.tryRearmOperation env n.op n).2 = true ∧
      (s'.tryRearmOperation env n.op n).1.Steady (Q'.append k n) := by
  have htail : s'.findQueueTail k = some t :=
    h.tidy.findQueueTail_of_ahead ht (h.ahead (List.mem_of_mem_getLast? ht) hop)
  have hnodes : n ∈ s'.nodesOf n.op := mem_nodesOf_congr h.count |>.mpr (hs.tidy.linked.owned hn)
  have hap : s'.Appendable Q' k n := by
    refine ⟨h.isolated, hnodes, h.operation, h.key, fun {k' m} hm he hk => ?_⟩
    have hmn := hs.tidy.distinct ((h.sub k').subset hm) hn he hk
    exact h.isolated.not_mem k' (hmn ▸ hm)
  have happ := h.tidy.append env h.head hap (htail.trans ht.symm)
  simp only [tryRearmOperation]
  rw [hap.appendNode_cons htail] at happ ⊢
  generalize hp : (s'.linkAfter t n, (0 : Int)) = p at happ
  cases happ
  case refused status hneg =>
    have h₀ : (0 : Int) = status := (Prod.ext_iff.mp hp).2
    omega
  case linked h₁ ha₁ ho hi hb =>
    obtain rfl := (Prod.ext_iff.mp hp).1
    have hin := (hs.tidy.active hn).resolve_right (by simp)
    have hin' : n.op ∈ (s'.linkAfter t n).inflight := hi ▸ h.inflight
    refine ⟨rfl, h₁.settle hin' ?_ fun m hm => ?_, ha₁⟩
    · rw [ho, h.count]
      exact hs.tidy.waiting hin (by simp)
    · have he := (mem_nodesOf.mp hm).1
      by_cases hmn : m = n
      case pos => exact h₁.mem_key (k := k) (by simp [hmn])
      case neg =>
        have hm : m ∈ s.nodesOf m.op := by
          rw [he]
          exact mem_nodesOf_congr (by rw [ho, h.count]) |>.mp hm
        have hq := hs.tidy.queued (he ▸ hin) (by simp) hm
        exact h₁.mem_key <| Queues.mem_append.mpr <| .inl <| h.stay hq he hmn

end Fired

theorem Steady.processFired (h : s.Steady Q) (hn : (Q k).head? = some n)
    (hsafe : SafeFire env s Q e n k) :
    ∃ Q', (s.processFired env e n.op n).1.Steady Q' ∧ (∀ k', Q' k' ⊆ Q k') ∧
      ∀ k' ≠ k, (Q' k').Sublist (Q k') := by
  have hq := List.mem_of_mem_head? hn
  have hnext : (((s.evDelete (s.regs n).key).setArmed n false).unlinkNode n).2 =
      (s.regs n).waitNext := by simp [unlinkNode_snd, setArmed]
  simp only [Context.processFired, hnext]
  generalize he : (((s.evDelete (s.regs n).key).setArmed n false).unlinkNode n).1 = s₁
  have hf := h.fire hn hsafe.strands he
  generalize armQueueHead env s₁.inflight.length s₁ (s.regs n).waitNext = s₂ at hf ⊢
  have hf₃ := hf.setOp (o := { s₂.ops n.op with flags := e.flags }) rfl
  generalize s₂.setOp n.op { s₂.ops n.op with flags := e.flags } = s₃ at hf₃ ⊢
  by_cases hb : e.Blocks env n.op (s.regs n).task
  case pos =>
    obtain ⟨t, ht, hop⟩ := hsafe.ahead hb
    obtain ⟨hre, hst⟩ := (hf₃.setOp (o := { s₃.ops n.op with result := -eagain }) rfl).rearm
      env hq h ht hop
    rw [dispatchEventResult_of_blocks (hf₃.task ▸ hb)]
    simp only [setResult, hre, Bool.not_true, Bool.false_eq_true, if_false]
    refine ⟨_, hst, fun k' m hm => ?_, fun k' hk => by simpa [hk] using hf.sub k'⟩
    obtain hm | ⟨rfl, rfl⟩ := Queues.mem_append.mp hm
    · exact (hf.sub k').subset hm
    · exact hq
  case neg =>
    obtain ⟨r, hd⟩ := dispatchEventResult_of_not_blocks (hf₃.task ▸ hb)
    obtain ⟨Q₁, h₁, hsub⟩ := (hf₃.setOp (o := { s₃.ops n.op with result := r }) rfl).complete hq h
      (hsafe.other hb)
    rw [hd]
    exact ⟨Q₁, h₁, fun k' => (hsub k').subset, fun k' _ => hsub k'⟩

end Context
end Bnio.Kqueue
