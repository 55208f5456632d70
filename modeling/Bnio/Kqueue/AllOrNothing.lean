import Bnio.Kqueue.Custody

namespace Bnio.Kqueue
namespace Context

variable {env : Env} {s : Context} {op : OpId} {Q : Queues}

-- `s'` is `s` with `op` waiting behind everybody else.
structure Admits (s : Context) (Q : Queues) (op : OpId) (s' : Context) (Q' : Queues) : Prop where
  steady : s'.Steady Q'
  inflight : s'.inflight = op :: s.inflight
  localCpu : s'.localCpu = s.localCpu
  count : (s'.ops op).registrationCount = (s.ops op).request.prepare.filters.length
  last : ∀ n ∈ s'.nodesOf op, Q' (s'.regs n).key = Q (s'.regs n).key ++ [n]
  armed : ∀ n ∈ s'.nodesOf op, (s'.regs n).armed = true ↔ Q (s'.regs n).key = []
  queues : ∀ k, (∀ n ∈ s'.nodesOf op, (s'.regs n).key ≠ k) → Q' k = Q k
  ops : ∀ o ≠ op, s'.ops o = s.ops o
  body : ∀ m : Node, m.op ≠ op → (s'.regs m).body = (s.regs m).body
  filters : ∀ k, ∀ o ≠ op, s'.filters k = some o ↔ s.filters k = some o

-- `s'` is `s` but for the result of `op`, which has failed with `e`.
structure TurnsAway (s : Context) (Q : Queues) (op : OpId) (e : Int) (s' : Context) : Prop where
  steady : s'.Steady Q
  inflight : s'.inflight = s.inflight
  localCpu : s'.localCpu = s.localCpu
  regs : ∀ m : Node, m.op ≠ op → s'.regs m = s.regs m
  ops : ∀ o ≠ op, s'.ops o = s.ops o
  filters : s'.filters = s.filters
  count : (s'.ops op).registrationCount = 0
  released : ∀ k, s'.filters k ≠ some op ∧ ∀ n ∈ Q k, n.op ≠ op
  result : (s'.ops op).result = e
  completion : (s'.ops op).completion = .error e

-- Why a registration fails: the kqueue is not open, or the kernel refuses the filter of a node that
-- has nobody to wait behind.
def Refuses (s : Context) (env : Env) (Q : Queues) (op : OpId) (e : Int) : Prop :=
  s.queueOpen = false ∧ e = -einval ∨
  ∃ i f, (s.ops op).request.prepare.filters[i]? = some f ∧
    Q ((s.ops op).request.prepare.descriptor, f) = [] ∧ e = (env.evAdd ⟨op, i⟩).status ∧ e < 0

section Enqueued

variable {n : Node} {k : Key}

-- The two nodes of an operation wait in different queues.
theorem Fresh.filter_key (hf : s.Fresh op) (hn : n ∈ s.nodesOf op) :
    (s.nodesOf op).filter (fun m => (s.regs m).key = (s.regs n).key) = [n] := by
  cases hf
  case one hc hp =>
    rw [nodesOf_of_one hc] at hn ⊢
    obtain rfl := List.mem_singleton.mp hn
    simp
  case two k k' hc hp hp' hne =>
    have hkk : k ≠ k' := fun he => hne (he ▸ rfl)
    rw [nodesOf_of_two hc] at hn ⊢
    obtain rfl | rfl : n = ⟨op, 0⟩ ∨ n = ⟨op, 1⟩ := by simpa using hn
    · simp [hp.key, hp'.key, hkk.symm]
    · simp [hp.key, hp'.key, hkk]

theorem enqueued_of_ne (h : ∀ n ∈ s.nodesOf op, (s.regs n).key ≠ k) : s.enqueued Q op k = Q k := by
  have he : (s.nodesOf op).filter (fun n => (s.regs n).key = k) = [] :=
    List.filter_eq_nil_iff.mpr <| by simpa using h
  simp [enqueued, he]

theorem head?_enqueued (h : Q k ≠ []) : (s.enqueued Q op k).head? = (Q k).head? :=
  List.head?_append_of_ne_nil _ h

-- Only `op` can get a filter that the kernel has not had before.
theorem Steady.filters_enqueued {p s' : Context} (h : s.Steady Q) (h' : s'.Steady (p.enqueued Q op))
    {o : OpId} (ho : o ≠ op) : s'.filters k = some o ↔ s.filters k = some o := by
  rw [(h'.head k).filter, (h.head k).filter]
  by_cases hq : Q k = []
  case neg => rw [head?_enqueued hq]
  case pos =>
    refine iff_of_false (fun he => ?_) (by simp [hq])
    have ⟨n, hn, hno⟩ := Option.map_eq_some_iff.mp he
    have hmem : n ∈ p.nodesOf op := by
      have := List.mem_of_mem_head? hn
      simp only [enqueued, hq, List.nil_append] at this
      exact (List.mem_filter.mp this).1
    exact ho <| hno.symm.trans (mem_nodesOf.mp hmem).1

end Enqueued

section Prepared

variable {q : Helper}

theorem prepareIo_of_filters (hopen : s.queueOpen) (hf : (s.ops op).request.prepare.filters ≠ []) :
    s.prepareIo op = (s.withRegistrations op (s.ops op).request.prepare, 0) := by
  have ⟨herr, hnone, hnop⟩ : ¬(s.ops op).request.prepare.error < 0 ∧
      (s.ops op).request.prepare.task ≠ .none ∧ (s.ops op).request.prepare.task ≠ .nop := by
    cases hr : (s.ops op).request
    case poll fd pm =>
      simp only [hr, Request.prepare, Helper.prepPollAdd, Helper.reset, Helper.appendFilter] at hf ⊢
      by_cases hr : pm &&& readPollMask = 0 <;> by_cases hw : pm &&& writePollMask = 0 <;>
        simp_all
    all_goals simp_all [Request.prepare, Helper.prepRead, Helper.prepWrite, Helper.prepNop, Helper.reset,
      Helper.appendFilter]
  simp [prepareIo, hopen, herr, hnone, hnop, withRegistrations]

theorem Steady.not_queued (h : s.Steady Q) (hop : op ∉ s.inflight) {k : Key} {n : Node}
    (hn : n ∈ Q k) : n.op ≠ op := fun he =>
  (h.tidy.active hn).elim (fun hi => hop (he ▸ hi)) (by simp)

theorem Steady.not_armed (h : s.Steady Q) (hop : op ∉ s.inflight) (k : Key) :
    s.filters k ≠ some op := fun he => by
  have ⟨n, hn, hno⟩ := Option.map_eq_some_iff.mp <| (h.head k).filter.symm.trans he
  exact h.not_queued hop (List.mem_of_mem_head? hn) hno

theorem Steady.admits {s' : Context} (h : s.Steady Q) (hop : op ∉ s.inflight)
    (hq : (s.ops op).request.prepare = q) (hf : (s.withRegistrations op q).Fresh op)
    (hs : (s'.addInflight op).Steady ((s.withRegistrations op q).enqueued Q op))
    (ho : s'.ops = (s.withRegistrations op q).ops)
    (hi : s'.inflight = (s.withRegistrations op q).inflight)
    (hl : s'.localCpu = (s.withRegistrations op q).localCpu)
    (hb : ∀ {m : Node}, m.op ≠ op → (s'.regs m).body = ((s.withRegistrations op q).regs m).body)
    (hk : ∀ {m}, m ∈ (s.withRegistrations op q).nodesOf op →
      (s'.regs m).key = ((s.withRegistrations op q).regs m).key) :
    s.Admits Q op (s'.addInflight op) ((s.withRegistrations op q).enqueued Q op) := by
  have hin : s'.inflight = s.inflight := hi.trans (by simp [withRegistrations])
  have hadd : s'.addInflight op = { s' with inflight := op :: s.inflight } := by
    simp [addInflight, hin, hop]
  have hnodes : ∀ {n}, n ∈ (s'.addInflight op).nodesOf op → n ∈ (s.withRegistrations op q).nodesOf op :=
    fun hn => mem_nodesOf_congr (by rw [hadd, ho]) |>.mp hn
  have hkey : ∀ {n}, n ∈ (s'.addInflight op).nodesOf op →
      ((s'.addInflight op).regs n).key = ((s.withRegistrations op q).regs n).key := fun hn =>
    hadd ▸ hk (hnodes hn)
  have hlast : ∀ n ∈ (s'.addInflight op).nodesOf op,
      (s.withRegistrations op q).enqueued Q op ((s'.addInflight op).regs n).key =
        Q ((s'.addInflight op).regs n).key ++ [n] := fun n hn => by
    rw [enqueued, hkey hn, hf.filter_key (hnodes hn)]
  refine ⟨hs, by rw [hadd], ?_, ?_, hlast, fun n hn => ?_, fun k hn => ?_, fun o hne => ?_,
    fun m hne => ?_, fun k o hne => ?_⟩
  · rw [hadd]
    exact hl.trans (by simp [withRegistrations, Context.setOp])
  · rw [hadd, ho, hq]
    simp [withRegistrations]
  · have hmem : n ∈ (s.withRegistrations op q).enqueued Q op ((s'.addInflight op).regs n).key := by
      simp [hlast n hn]
    rw [(hs.head _).armed hmem, hlast n hn]
    cases hQ : Q ((s'.addInflight op).regs n).key
    case nil      => simp
    case cons a l =>
      have ha : a.op ≠ op := h.not_queued hop (k := ((s'.addInflight op).regs n).key) (by simp [hQ])
      have hne : a ≠ n := fun he => ha (he ▸ (mem_nodesOf.mp hn).1)
      simp [hne]
  · refine enqueued_of_ne fun n hm => ?_
    have hm' : n ∈ (s'.addInflight op).nodesOf op := mem_nodesOf_congr (by rw [hadd, ho]) |>.mpr hm
    exact hkey hm' ▸ hn n hm'
  · rw [hadd, ho]
    simp [withRegistrations, hne]
  · rw [hadd, hb hne, withRegistrations_regs (.inl hne)]
  · exact h.filters_enqueued hs hne

theorem Steady.turnsAway (h : s.Steady Q) (hop : op ∉ s.inflight) (e : Int) :
    s.TurnsAway Q op e (((s.withRegistrations op q).withdraw op).completeSubmitError op e) := by
  have ⟨ht, ha⟩ := h.prepared (h := q) hop
  have hi : (s.withRegistrations op q).inflight = s.inflight := by simp [withRegistrations]
  have hfs : (s.withRegistrations op q).filters = s.filters := by simp [withRegistrations]
  have hs := ht.withdraw ha (hi ▸ hop) fun hn => h.not_queued hop hn
  refine ⟨hs.setOp op rfl, hi, ?_, fun m hne => ?_, fun o hne => ?_, hfs, ?_,
    fun k => ⟨fun he => ?_, fun n hn => h.not_queued hop hn⟩, ?_, ?_⟩
  · simp [completeSubmitError, withdraw, withRegistrations, Context.setOp]
  · simp [completeSubmitError, withdraw, mem_nodesOf, hne, withRegistrations_regs (.inl hne)]
  · simp [completeSubmitError, withdraw, withRegistrations, hne]
  · simp [completeSubmitError, withdraw]
  · exact h.not_armed hop k <| congrFun hfs k ▸ he
  · simp [completeSubmitError]
  · simp [completeSubmitError]

theorem Steady.turnsAway_closed (h : s.Steady Q) (hop : op ∉ s.inflight) (e : Int) :
    s.TurnsAway Q op e (s.completeSubmitError op e) := by
  refine ⟨h.setOp op rfl, rfl, rfl, fun _ _ => rfl, fun o hne => ?_, rfl, ?_,
    fun k => ⟨h.not_armed hop k, fun n hn => h.not_queued hop hn⟩, ?_, ?_⟩
  · simp [completeSubmitError, hne]
  · simpa [completeSubmitError] using h.tidy.idle hop (by simp)
  · simp [completeSubmitError]
  · simp [completeSubmitError]

end Prepared

-- The operation as `consume_io_tasks` hands it to `prepare_and_register_operation`.
def taken (s : Context) (op : OpId) : Context :=
  s.setOp op { s.ops op with result := 0, flags := 0 }

theorem Steady.prepareAndRegister_cases (env : Env) (hs : s.Steady Q) (hop : op ∉ s.inflight)
    (hf : (s.ops op).request.prepare.filters ≠ []) :
    (∃ s' Q', s.prepareAndRegisterOperation env op = (s', true) ∧ s.Admits Q op s' Q') ∨
    ∃ s' e, s.prepareAndRegisterOperation env op = (s', false) ∧ s.Refuses env Q op e ∧
      s.TurnsAway Q op e s' := by
  by_cases hopen : s.queueOpen
  case neg =>
    refine .inr ⟨_, -einval, ?_, .inl ⟨by simpa using hopen, rfl⟩, hs.turnsAway_closed hop _⟩
    simp [prepareAndRegisterOperation, prepareIo, hopen, einval]
  case pos =>
    have hp := prepareIo_of_filters hopen hf
    generalize hq : (s.ops op).request.prepare = q at hf hp
    have hfs := hq ▸ prepare_filters (s.ops op).request
    have hfresh : (s.withRegistrations op q).Fresh op :=
      withRegistrations_fresh <| hfs.imp_right fun h => h.resolve_right hf
    have hc : ((s.withRegistrations op q).ops op).registrationCount ≠ 0 := by
      simpa [withRegistrations] using hf
    obtain ⟨ht, ha⟩ := hs.prepared (h := q) hop
    have hi : (s.withRegistrations op q).inflight = s.inflight := by simp [withRegistrations]
    have hreg := ht.registered env ha (hi ▸ hop) (fun hn => hs.not_queued hop hn) hfresh
    simp only [prepareAndRegisterOperation, hp, Int.lt_irrefl, if_false, hc]
    generalize (s.withRegistrations op q).registerOperation env op = r at hreg
    cases hreg
    case linked s' h' ho hi' hl hb hk =>
      exact .inl ⟨_, _, by simp, hs.admits hop hq hfresh h' ho hi' hl hb hk⟩
    case refused n hn hnil hfails =>
      have hneg : (env.evAdd n).status < 0 := by simpa [Env.fails] using hfails
      refine .inr ⟨_, (env.evAdd n).status, by simp [hneg], .inr ?_, hs.turnsAway (q := q) hop _⟩
      obtain ⟨o, i⟩ := n
      obtain ⟨rfl, _, hlt⟩ := mem_nodesOf.mp hn
      have hlt : i < q.filters.length := by simpa [withRegistrations] using hlt
      have hp : (s.withRegistrations o q).Prepared ⟨o, i⟩ (q.descriptor, q.filters[i]) :=
        withRegistrations_prepared (List.getElem?_eq_getElem hlt)
      rw [hp.key] at hnil
      subst hq
      exact ⟨i, _, List.getElem?_eq_getElem hlt, hnil, rfl, hneg⟩

theorem Steady.all_or_nothing (env : Env) (hs : s.Steady Q) (hop : op ∉ s.inflight)
    (hf : (s.ops op).request.prepare.filters ≠ []) :
    let r := s.prepareAndRegisterOperation env op
    (r.2 = true → ∃ Q', s.Admits Q op r.1 Q') ∧
    (r.2 = false → ∃ e, s.Refuses env Q op e ∧ s.TurnsAway Q op e r.1) ∧
    ∀ s₀ : Context, s₀.taken op = s →
      s₀.consumeOperation env op = if r.2 then r.1 else r.1.pushCpu op := by
  refine ⟨fun hr => ?_, fun hr => ?_, fun s₀ h => by subst h; rfl⟩
  all_goals obtain ⟨s', Q', he, h⟩ | ⟨s', e, he, h⟩ := hs.prepareAndRegister_cases env hop hf
  all_goals rw [he] at hr ⊢
  · exact ⟨Q', h⟩
  · cases hr
  · cases hr
  · exact ⟨e, h⟩

-- One operation waits for descriptor 3 to become readable; every other one wants to poll it for
-- reading and writing.
def oneReader : Context :=
  Context.consumeOperation {} { ops := fun op => { request := if op = 1 then .read 3 else .poll 3 5 },
                                regs := fun _ => {} } 1

theorem oneReader_steady : ∃ Q, oneReader.Steady Q :=
  Steady.consume {} (Loop.init_inv.steady.congr rfl rfl (fun _ => rfl) rfl) (by simp)

-- The kernel takes both filters of the poll, or refuses the second one after the first node has been
-- put behind the reader.
theorem all_or_nothing_oneReader :
    ∃ Q, oneReader.Steady Q ∧
      (∃ Q', oneReader.Admits Q 2 (oneReader.prepareAndRegisterOperation {} 2).1 Q') ∧
      ∃ e, oneReader.TurnsAway Q 2 e
        (oneReader.prepareAndRegisterOperation { evAdd := fun n => { result := -n.index } } 2).1 := by
  have ⟨Q, h⟩ := oneReader_steady
  have hop : 2 ∉ oneReader.inflight := by decide
  have hf : (oneReader.ops 2).request.prepare.filters ≠ [] := by decide
  have ⟨e, _, he⟩ := (h.all_or_nothing { evAdd := fun n => { result := -n.index } } hop hf).2.1
    (by decide)
  exact ⟨Q, h, (h.all_or_nothing {} hop hf).1 (by decide), e, he⟩

end Context
end Bnio.Kqueue
