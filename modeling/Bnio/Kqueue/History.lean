import Bnio.Kqueue.Deliver

namespace Bnio.Kqueue

namespace Context

variable {env : Env} {s s' : Context} {n m : Node} {op : OpId} {k : Key} {Q : Queues} {e : Event}

section Consume

theorem Steady.setCount (h : s.Steady Q) (hop : op ∉ s.inflight) :
    (s.setOp op { s.ops op with registrationCount := 0 }).Steady Q := by
  refine h.congr rfl rfl (fun o => ?_) rfl
  by_cases ho : o = op
  case pos => simp [ho, h.tidy.idle hop (by simp)]
  case neg => simp [ho]

theorem Steady.setOp (op : OpId) {o : Operation} (h : s.Steady Q)
    (ho : o.registrationCount = (s.ops op).registrationCount) : (s.setOp op o).Steady Q := by
  refine h.congr rfl rfl (fun op' => ?_) rfl
  by_cases he : op' = op <;> simp [he, ho]

-- The context `prepare_io` leaves for a request with filters.
def withRegistrations (s : Context) (op : OpId) (h : Helper) : Context :=
  let s := fillRegistrations op h 0 h.filters
    (s.setOp op { s.ops op with registrationCount := 0 })
  s.setOp op { s.ops op with registrationCount := h.filters.length }

theorem withRegistrations_prepared {h : Helper} {i : Nat} {f : Int} (hf : h.filters[i]? = some f) :
    (s.withRegistrations op h).Prepared ⟨op, i⟩ (h.descriptor, f) := by
  have hp : (fillRegistrations op h 0 h.filters
      (s.setOp op { s.ops op with registrationCount := 0 })).Prepared ⟨op, i⟩ (h.descriptor, f) :=
    Nat.zero_add i ▸ fillRegistrations_prepared hf
  exact ⟨hp.operation, hp.key, hp.next, hp.prev, hp.unarmed⟩

theorem withRegistrations_fresh {h : Helper} (hf : (∃ f, h.filters = [f]) ∨
    ∃ f g, f ≠ g ∧ h.filters = [f, g]) : (s.withRegistrations op h).Fresh op := by
  obtain ⟨f, hf⟩ | ⟨f, g, hne, hf⟩ := hf
  · exact .one (by simp [withRegistrations, hf]) (withRegistrations_prepared (f := f) (by simp [hf]))
  · exact .two (by simp [withRegistrations, hf]) (withRegistrations_prepared (f := f) (by simp [hf]))
      (withRegistrations_prepared (f := g) (by simp [hf])) hne

theorem Steady.prepared {h : Helper} (hs : s.Steady Q) (hop : op ∉ s.inflight) :
    (s.withRegistrations op h).Tidy Q [op] ∧ ∀ k, (s.withRegistrations op h).HeadArmed Q k := by
  refine hs.fill hop (fun m hm => ?_) (fun o ho => ?_) (fun n hn => ?_) ?_ ?_
  · exact fillRegistrations_regs_of_lt (.inl hm)
  · simp [withRegistrations, ho]
  · obtain ⟨o, i⟩ := n
    obtain ⟨rfl, _, hlt⟩ := mem_nodesOf.mp hn
    simp only [withRegistrations, setOp_ops, if_true] at hlt
    exact ⟨_, withRegistrations_prepared <| List.getElem?_eq_getElem hlt⟩
  · simp [withRegistrations]
  · simp [withRegistrations]

theorem prepareIo_cases (s : Context) (op : OpId) :
    (∃ r < 0, s.prepareIo op = (s, r)) ∨
    s.prepareIo op = (s.setOp op { s.ops op with registrationCount := 0 }, 0) ∨
    s.prepareIo op = (s.withRegistrations op (s.ops op).request.prepare, 0) := by
  unfold prepareIo
  split
  case isTrue => exact .inl ⟨_, by decide, rfl⟩
  case isFalse =>
    simp only
    split
    case isTrue he => exact .inl ⟨_, he, rfl⟩
    case isFalse =>
      split
      case isTrue => exact .inl ⟨_, by decide, rfl⟩
      case isFalse =>
        split
        case isTrue  => exact .inr (.inl rfl)
        case isFalse => exact .inr (.inr rfl)

theorem Steady.prepareAndRegister (env : Env) (hs : s.Steady Q) (hop : op ∉ s.inflight) :
    ∃ Q', (s.prepareAndRegisterOperation env op).1.Steady Q' := by
  unfold prepareAndRegisterOperation
  obtain ⟨r, hr, hp⟩ | hp | hp := prepareIo_cases s op
  · simp only [hp, hr, if_true]
    exact ⟨Q, hs.setOp op rfl⟩
  · simp only [hp]
    exact ⟨Q, by simpa using hs.setCount hop⟩
  · simp only [hp]
    generalize hh : (s.ops op).request.prepare = h
    have hfs := hh ▸ prepare_filters (s.ops op).request
    obtain ⟨ht, ha⟩ := hs.prepared (h := h) hop
    by_cases hnil : h.filters = []
    case pos =>
      have hst : (s.withRegistrations op h).Steady Q := by
        refine (hs.setCount hop).congr ?_ ?_ (fun o => ?_) ?_
        all_goals simp only [withRegistrations, hnil, fillRegistrations]; try rfl
        by_cases ho : o = op <;> simp [ho]
      exact ⟨Q, by simpa [withRegistrations, hnil] using hst⟩
    case neg =>
      have hc : ((s.withRegistrations op h).ops op).registrationCount ≠ 0 := by
        simpa [withRegistrations] using hnil
      have hi : (s.withRegistrations op h).inflight = s.inflight := by simp [withRegistrations]
      obtain ⟨Q', hreg⟩ := ht.register env ha (hi ▸ hop)
        (fun hn he => (hs.tidy.active hn).elim (fun h => hop (he ▸ h)) (by simp))
        (withRegistrations_fresh <| hfs.imp_right fun h => h.resolve_right hnil)
      refine ⟨Q', ?_⟩
      simp only [hc, Int.lt_irrefl, if_false]
      split at hreg
      case isTrue hneg  =>
        simp only [hneg, if_true]
        exact hreg.setOp op rfl
      case isFalse hneg => simpa [hneg] using hreg

theorem Steady.consume (env : Env) (hs : s.Steady Q) (hop : op ∉ s.inflight) :
    ∃ Q', (s.consumeOperation env op).Steady Q' := by
  have hs₁ := hs.setOp op (o := { s.ops op with result := 0, flags := 0 }) rfl
  have ⟨Q', h⟩ := hs₁.prepareAndRegister env hop
  refine ⟨Q', ?_⟩
  simp only [consumeOperation]
  split
  case isTrue  => exact h
  case isFalse => exact h.congr rfl rfl (fun _ => rfl) rfl

end Consume

section Abort

variable {i : Nat}

@[simp]
theorem abortNode_ops : (s.abortNode op i).ops = s.ops := by
  simp only [abortNode]
  split
  case isTrue  => rw [setReg_ops]; split <;> rfl
  case isFalse => rfl

@[simp]
theorem abortNode_inflight : (s.abortNode op i).inflight = s.inflight := by
  simp only [abortNode]
  split
  case isTrue  => rw [setReg_inflight]; split <;> rfl
  case isFalse => rfl

theorem abortNode_regs (h : m ≠ ⟨op, i⟩) : (s.abortNode op i).regs m = s.regs m := by
  simp only [abortNode]
  split
  case isTrue  => rw [setReg_regs, if_neg h]; split <;> rfl
  case isFalse => rfl

theorem abortNode_filters (h : s.filters k = none) : (s.abortNode op i).filters k = none := by
  simp only [abortNode]
  split
  case isTrue =>
    rw [setReg_filters]
    split
    case isTrue  => simp [Function.update_apply, h]
    case isFalse => exact h
  case isFalse => exact h

-- A node that holds a filter of the kernel.
structure Holds (s : Context) (n : Node) (k : Key) : Prop where
  owned : n ∈ s.nodesOf n.op
  operation : (s.regs n).operation.isSome
  armed : (s.regs n).armed
  key : (s.regs n).key = k

theorem Holds.abortNode (h : s.Holds ⟨op, i⟩ k) : (s.abortNode op i).filters k = none := by
  have hi := (mem_nodesOf.mp h.owned).2.2
  simp only at hi
  simp [Context.abortNode, hi, h.operation, h.armed, h.key]

theorem abortOperation_inflight : (s.abortOperation op).inflight = s.inflight := by
  simp [abortOperation, completeSubmitStopped]

theorem abortOperation_count {o : OpId} : ((s.abortOperation op).ops o).registrationCount =
    if o = op then 0 else (s.ops o).registrationCount := by
  by_cases h : o = op <;> simp [abortOperation, completeSubmitStopped, h]

theorem abortOperation_regs (h : m.op ≠ op) : (s.abortOperation op).regs m = s.regs m := by
  have hne : ∀ i, m ≠ ⟨op, i⟩ := fun i he => h (he ▸ rfl)
  simp [abortOperation, completeSubmitStopped, abortNode_regs (hne _)]

theorem abortOperation_filters (h : s.filters k = none) :
    (s.abortOperation op).filters k = none :=
  abortNode_filters <| abortNode_filters h

theorem Holds.abortOperation (h : s.Holds n k) : (s.abortOperation n.op).filters k = none := by
  obtain ⟨op, i⟩ := n
  have hi := (mem_nodesOf.mp h.owned).2.1
  have h2 : i = 0 ∨ i = 1 := by simp only at hi; omega
  rcases h2 with rfl | rfl
  · exact abortNode_filters h.abortNode
  · have hr : (s.abortNode op 0).regs ⟨op, 1⟩ = s.regs ⟨op, 1⟩ := abortNode_regs (by simp)
    have h₁ : (s.abortNode op 0).Holds ⟨op, 1⟩ k :=
      ⟨by simpa [mem_nodesOf] using h.owned, hr ▸ h.operation, hr ▸ h.armed, hr ▸ h.key⟩
    exact h₁.abortNode

theorem abort_fold {l : List OpId} (hc : ∀ op ∉ l, (s.ops op).registrationCount = 0)
    (hf : ∀ k, s.filters k = none ∨ ∃ n, n.op ∈ l ∧ s.Holds n k) :
    (∀ op, ((l.foldl abortOperation s).ops op).registrationCount = 0) ∧
      ∀ k, (l.foldl abortOperation s).filters k = none := by
  induction l generalizing s
  case nil          => exact ⟨fun op => hc op (by simp), fun k => by simpa using hf k⟩
  case cons op l hi =>
    refine hi (fun o ho => ?_) fun k => ?_
    · by_cases he : o = op
      case pos => simp [abortOperation_count, he]
      case neg => simp [abortOperation_count, he, hc o (by simp [he, ho])]
    · obtain h | ⟨n, hn, hh⟩ := hf k
      · exact .inl <| abortOperation_filters h
      · by_cases he : n.op = op
        case pos => exact .inl <| he ▸ hh.abortOperation
        case neg =>
          have hr := abortOperation_regs (s := s) he
          refine .inr ⟨n, by simpa [he] using hn, ?_, hr ▸ hh.operation, hr ▸ hh.armed, hr ▸ hh.key⟩
          exact mem_nodesOf_congr (by simp [abortOperation_count, he]) |>.mpr hh.owned

theorem abort_fold_inflight {l : List OpId} :
    (l.foldl abortOperation s).inflight = s.inflight := by
  induction l generalizing s
  case nil          => rfl
  case cons op l hi => exact hi.trans abortOperation_inflight

theorem Steady.abort (h : s.Steady Q) : s.abortInflightIo.Steady fun _ => [] := by
  have ⟨hc, hf⟩ := abort_fold (s := { s with inflight := [] }) (l := s.inflight)
    (fun op hop => h.tidy.idle hop (by simp)) fun k => by
      cases hh : (Q k).head?
      case none   => exact .inl <| by simp [(h.head k).filter, hh]
      case some n =>
        have hn := List.mem_of_mem_head? hh
        refine .inr ⟨n, (h.tidy.active hn).resolve_right (by simp), ?_⟩
        exact ⟨h.tidy.linked.owned hn, by simp [h.tidy.linked.operation hn],
          (h.head k).armed hn |>.mpr hh, h.tidy.linked.key hn⟩
  have hi : s.abortInflightIo.inflight = [] := abort_fold_inflight
  refine ⟨⟨⟨fun _ => Links.isQueue_nil _, ?_, ?_, ?_⟩, ?_, by simp [hi], ?_, fun _ _ => hc _, ?_,
    ?_, ?_⟩,
    fun k => ⟨hf k, by simp⟩⟩
  all_goals simp [hi]

end Abort

section Waiters

-- The nodes of inflight operations with this (ident, filter), in the order of the scan.
def registered (s : Context) (k : Key) : List Node :=
  (s.inflight.flatMap s.nodesOf).filter fun n => (s.regs n).key = k

def follow (s : Context) : Nat → Option Node → List Node
  | 0,     _      => []
  | _ + 1, none   => []
  | f + 1, some n => n :: s.follow f (s.regs n).waitNext

-- The wait queue read from its links.
def waiters (s : Context) : Queues :=
  fun k => s.follow (s.registered k).length
    ((s.registered k).find? fun n => (s.regs n).waitPrev = none)

theorem follow_chain {f : Nat} {l : List Node} {p : Option Node} (h : s.links.Chain p l)
    (hf : l.length ≤ f) : s.follow f l.head? = l := by
  induction l generalizing f p
  case nil         => cases f <;> rfl
  case cons n l hi =>
    obtain _ | f := f
    case zero => simp at hf
    case succ =>
      have hn : (s.regs n).waitNext = l.head? := h.2.1
      simp only [List.head?_cons, follow, hn]
      rw [hi h.2.2 (by simpa using hf)]

theorem Steady.mem_registered (h : s.Steady Q) : n ∈ s.registered k ↔ n ∈ Q k := by
  simp only [registered, List.mem_filter, List.mem_flatMap, decide_eq_true_eq]
  constructor
  · rintro ⟨⟨op, hop, hn⟩, rfl⟩
    obtain rfl := (mem_nodesOf.mp hn).1
    exact h.tidy.queued hop (by simp) hn
  · intro hn
    exact ⟨⟨n.op, (h.tidy.active hn).resolve_right (by simp), h.tidy.linked.owned hn⟩,
      h.tidy.linked.key hn⟩

theorem Steady.waiters_eq (h : s.Steady Q) : s.waiters = Q := by
  funext k
  have hq := h.tidy.linked.queue k
  have hhead : ((s.registered k).find? fun n => (s.regs n).waitPrev = none) = (Q k).head? := by
    refine List.find?_eq_of_unique (fun n hn => ?_) fun n hn => ?_
    · have hn := h.mem_registered.mp hn
      simp only [decide_eq_true_eq]
      exact ⟨hq.head_of_prev_eq_none hn, hq.prev_eq_none_of_head⟩
    · exact h.mem_registered.mpr <| List.mem_of_mem_head? hn
  have hlen : (Q k).length ≤ (s.registered k).length :=
    (List.subperm_of_subset hq.nodup fun n hn => h.mem_registered.mpr hn).length_le
  rw [waiters, hhead]
  exact follow_chain hq.chain hlen

end Waiters

-- The nodes of inflight operations with this (ident, filter), linked in the order `q`. The first one
-- is armed in the kernel and the others are not.
structure WaitQueue (s : Context) (k : Key) (q : List Node) : Prop where
  mem : ∀ n, n ∈ q ↔ n.op ∈ s.inflight ∧ n ∈ s.nodesOf n.op ∧ (s.regs n).key = k
  queue : s.links.IsQueue q
  filter : s.filters k = q.head?.map Node.op
  armed : ∀ n ∈ q, ((s.regs n).armed ↔ q.head? = some n)

structure WellQueued (s : Context) : Prop where
  queues : ∀ k, ∃! q, s.WaitQueue k q
  served : ∀ op ∈ s.inflight, ∃ n ∈ s.nodesOf op, ∃ h, (s.regs h).armed ∧
    (s.regs h).key = (s.regs n).key ∧ s.filters (s.regs n).key = some h.op

theorem Steady.waitQueue (h : s.Steady Q) : s.WaitQueue k (Q k) where
  mem n := by
    rw [← h.mem_registered]
    simp only [registered, List.mem_filter, List.mem_flatMap, decide_eq_true_eq, ← and_assoc]
    refine and_congr_left fun _ => ⟨?_, fun hn => ⟨n.op, hn⟩⟩
    rintro ⟨op, hop, hn⟩
    obtain rfl := (mem_nodesOf.mp hn).1
    exact ⟨hop, hn⟩
  queue := h.tidy.linked.queue k
  filter := (h.head k).filter
  armed _ hn := (h.head k).armed hn

theorem Steady.wellQueued (h : s.Steady Q) : s.WellQueued where
  queues k := by
    refine ⟨Q k, h.waitQueue, fun q hq => ?_⟩
    refine hq.queue.unique h.waitQueue.queue fun n => ?_
    rw [hq.mem, h.waitQueue.mem]
  served op hop := by
    have hc := h.tidy.waiting hop (by simp)
    have hn : ⟨op, 0⟩ ∈ s.nodesOf op := mem_nodesOf.mpr ⟨rfl, by simp, hc⟩
    have hq := h.tidy.queued (n := ⟨op, 0⟩) hop (by simp) hn
    refine ⟨_, hn, ?_⟩
    cases hh : (Q (s.regs ⟨op, 0⟩).key).head?
    case none    => simp [List.head?_eq_none_iff.mp hh] at hq
    case some m =>
      have hm := List.mem_of_mem_head? hh
      exact ⟨m, (h.head _).armed hm |>.mpr hh, h.tidy.linked.key hm, by simp [(h.head _).filter, hh]⟩

theorem Steady.findFiredNode {filter : Int} (h : s.Steady Q)
    (hn : s.findFiredNode op filter = some n) :
    n.op = op ∧ n ∈ Q (s.regs n).key ∧ (s.regs n).key.2 = filter := by
  have hmem := List.mem_of_find?_eq_some hn
  have hop := (mem_nodesOf.mp hmem).1
  have hp := List.find?_some hn
  simp only [Bool.and_eq_true, decide_eq_true_eq] at hp
  refine ⟨hop, h.tidy.queued ?_ (by simp) (hop ▸ hmem), hp.2⟩
  by_contra hni
  have hc := h.tidy.idle hni (by simp)
  simp [mem_nodesOf, ← hop, hc] at hmem

end Context

-- The nodes that may answer to the event are at the head of its queue.
def Queues.Pending (Q : Queues) (e : Event) : Prop :=
  ∀ op, e.udata = .operation op → ∀ k, ∀ n ∈ Q k, n.op = op → k.2 = e.filter →
    (Q e.key).head? = some n

namespace Loop

variable {env : Env} {s s' : Loop} {n : Node} {op : OpId} {Q : Queues} {a : Action} {e : Event}

structure Inv (s : Loop) (Q : Queues) : Prop where
  steady : s.ctx.Steady Q
  pending : ∀ e ∈ s.batch, Q.Pending e
  distinct : (s.batch.filter (·.udata.op?.isSome)).Pairwise (·.key ≠ ·.key)

def Safe (s : Loop) : Action → Prop
  | .process env => ∀ e op n, s.batch.head? = some e → e.udata = .operation op →
    s.ctx.findFiredNode op e.filter = some n →
    SafeFire env s.ctx s.ctx.waiters e n (s.ctx.regs n).key
  | .register .. | .kevent _ | .abort => True

theorem init_inv : init.Inv fun _ => [] := by
  refine ⟨⟨⟨⟨fun _ => Links.isQueue_nil _, ?_, ?_, ?_⟩, ?_, ?_, ?_, fun _ _ => rfl, ?_, ?_, ?_⟩,
    fun k => ⟨rfl, by simp⟩⟩, ?_, ?_⟩
  all_goals simp [init]

theorem Inv.kevent {events : List Event} (h : s.Inv Q) (hf : Fired s.ctx.filters events) :
    Inv { s with batch := events, tasks := [] } Q where
  steady := h.steady
  distinct := hf.2
  pending e he op hop k n hn hno hk := by
    have hop? : e.udata.op? = some op := by rw [hop]; rfl
    have hfilter := hf.1 e <| List.mem_filter.mpr ⟨he, by simp [hop?]⟩
    rw [(h.steady.head e.key).filter, hop?] at hfilter
    have ⟨m, hm, hmo⟩ := Option.map_eq_some_iff.mp hfilter
    rw [hm, h.steady.tidy.distinct hn (List.mem_of_mem_head? hm) (hno.trans hmo.symm) hk]

-- An event of the batch that is processed does not touch the heads of the queues of the others.
theorem Inv.process {es : List Event} (h : s.Inv Q) (hb : s.batch = e :: es)
    (hs : s.Safe (.process env)) :
    ∃ Q', (s.ctx.processEvent env e).1.Steady Q' ∧ ∀ e' ∈ es, Q'.Pending e' := by
  have hes : ∀ e' ∈ es, Q.Pending e' := fun e' he' => h.pending e' (by simp [hb, he'])
  unfold Context.processEvent
  split
  case h_4 op hop =>
    cases hn : s.ctx.findFiredNode op e.filter
    case none   => exact ⟨Q, h.steady, hes⟩
    case some n =>
      obtain ⟨rfl, hq, hk⟩ := h.steady.findFiredNode hn
      have hh := h.pending e (by simp [hb]) _ hop _ n hq rfl hk
      have hkey : (s.ctx.regs n).key = e.key :=
        h.steady.tidy.linked.key_eq hq (List.mem_of_mem_head? hh)
      have hsafe := hs e n.op n (by simp [hb]) hop hn
      rw [h.steady.waiters_eq, hkey] at hsafe
      have ⟨Q', h', hsub, hother⟩ := h.steady.processFired hh hsafe
      refine ⟨Q', h', fun e' he' op' hop' k' m hm hmo hk' => ?_⟩
      have hm' := hes e' he' op' hop' k' m (hsub k' hm) hmo hk'
      obtain rfl : k' = e'.key :=
        h.steady.tidy.linked.key_eq (hsub k' hm) (List.mem_of_mem_head? hm')
      have hne : e'.key ≠ e.key := by
        have hd := h.distinct
        have hop? : ∀ {e : Event} {op}, e.udata = .operation op → e.udata.op?.isSome :=
          fun h => by simp [h, Udata.op?]
        rw [hb, List.filter_cons, if_pos (hop? hop)] at hd
        exact (List.rel_of_pairwise_cons hd <| List.mem_filter.mpr ⟨he', hop? hop'⟩).symm
      exact (hother _ hne).head?_eq_of_mem (h.steady.tidy.linked.queue _).nodup hm' hm
  all_goals exact ⟨Q, h.steady, hes⟩

theorem Inv.step (h : s.Inv Q) (hs : s.Safe a) (hstep : s.step a = some s') : ∃ Q', s'.Inv Q' := by
  cases a
  case register op request env =>
    simp only [Loop.step] at hstep
    split at hstep
    case isFalse    => cases hstep
    case isTrue hen =>
      obtain rfl := Option.some.inj hstep
      have ⟨Q', h'⟩ := (h.steady.setOp op (o := { s.ctx.ops op with request, completion := .value })
        rfl).consume env hen.2
      exact ⟨Q', h', by simp [hen.1], by simp [hen.1]⟩
  case kevent events =>
    simp only [Loop.step] at hstep
    split at hstep
    case isFalse    => cases hstep
    case isTrue hen =>
      obtain rfl := Option.some.inj hstep
      exact ⟨Q, h.kevent hen.2⟩
  case process env =>
    cases hb : s.batch
    case nil       => simp [Loop.step, hb] at hstep
    case cons e es =>
      have ⟨Q', h', hp⟩ := h.process hb hs
      have hd : (es.filter (·.udata.op?.isSome)).Pairwise (·.key ≠ ·.key) :=
        h.distinct.sublist <| hb ▸ (List.sublist_cons_self e es).filter _
      simp only [Loop.step, hb] at hstep
      split at hstep
      all_goals
        obtain rfl := Option.some.inj hstep
        exact ⟨Q', h', hp, hd⟩
  case abort =>
    simp only [Loop.step] at hstep
    split at hstep
    case isFalse    => cases hstep
    case isTrue hen =>
      obtain rfl := Option.some.inj hstep
      exact ⟨_, h.steady.abort, by simp [hen], by simp [hen]⟩

theorem wellQueued_of_safe_history {as : List Action} (h : System.Along step Safe init as) :
    System.Always step (·.ctx.WellQueued) init as := by
  have keep : ∀ {s a s'}, (∃ Q, Inv s Q) → s.Safe a → s.step a = some s' → ∃ Q, Inv s' Q :=
    fun ⟨_, h⟩ => h.step
  exact System.Along.always keep (fun ⟨_, h⟩ => h.steady.wellQueued) ⟨_, init_inv⟩ h

-- A read that finds no data waits again behind a second reader.
theorem wellQueued_of_reader_behind_reader :
    System.Always step (·.ctx.WellQueued) init [
      .register 1 (.read 5) {}, .register 2 (.read 5) {},
      .kevent [{ udata := .operation 1, ident := 5, filter := evfiltRead }],
      .process { performIo := fun _ => -eagain }] := by
  have hnil : ∀ l, Env.failing { performIo := fun _ => -eagain } l = [] := fun l => by
    cases l <;> simp [Env.failing, Env.fails, ControlReply.status]
  refine wellQueued_of_safe_history ⟨trivial, fun s₁ h₁ => ⟨trivial, fun s₂ h₂ => ⟨trivial,
    fun s₃ h₃ => ⟨fun e op n he hop hn => ?_, fun _ _ => trivial⟩⟩⟩⟩
  cases h₁
  cases h₂
  cases h₃
  cases he
  cases hop
  cases hn
  refine ⟨?_, fun _ => ⟨⟨2, 0⟩, by decide, by decide⟩, fun _ k' m _ _ => ?_⟩
  · rw [hnil]
    exact Queues.not_strands_nil
  · rw [hnil, hnil]
    exact Queues.not_strands_nil

-- A lone reader that finds no data takes itself for the tail of its queue: the scan meets its own,
-- already unlinked node. It is linked behind itself and never armed again.
theorem not_wellQueued_of_lone_reader :
    ¬System.Always step (·.ctx.WellQueued) init [
      .register 1 (.read 5) {},
      .kevent [{ udata := .operation 1, ident := 5, filter := evfiltRead }],
      .process { performIo := fun _ => -eagain }] := by
  intro h
  obtain ⟨s, hs, hv⟩ := Option.map_eq_some_iff.mp (by decide :
    (System.run step init [
      .register 1 (.read 5) {},
      .kevent [{ udata := .operation 1, ident := 5, filter := evfiltRead }],
      .process { performIo := fun _ => -eagain }]).map (fun s =>
        (s.ctx.inflight, s.ctx.nodesOf 1, (s.ctx.regs ⟨1, 0⟩).key, s.ctx.filters (5, evfiltRead))) =
      some ([1], [⟨1, 0⟩], (5, evfiltRead), none))
  simp only [Prod.mk.injEq] at hv
  obtain ⟨n, hn, m, _, _, hf⟩ := (h.last hs).served 1 (by simp [hv.1])
  obtain rfl : n = ⟨1, 0⟩ := by simpa [hv.2.1] using hn
  simp [hv.2.2] at hf

end Loop
end Bnio.Kqueue
