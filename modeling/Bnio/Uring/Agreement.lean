import Bnio.Uring.RunLoop

namespace Bnio.Uring

-- The operations named by a list of user data.
def names (l : List UserData) : List OpId :=
  l.filterMap UserData.op?

section Names

variable {l l' : List UserData} {op : OpId} {c : Channel}

@[simp]
theorem names_nil : names [] = [] :=
  rfl

@[simp]
theorem names_append : names (l ++ l') = names l ++ names l' := by
  simp [names]

@[simp]
theorem names_operation : names (.operation op :: l) = op :: names l :=
  rfl

@[simp]
theorem names_wake : names (.wake c :: l) = names l :=
  rfl

theorem mem_names : op ∈ names l ↔ .operation op ∈ l := by
  induction l
  case nil         => simp
  case cons d l hi => cases d <;> simp [hi]

theorem count_names : (names l).count op = l.count (.operation op) := by
  induction l
  case nil         => rfl
  case cons d l hi =>
    cases d
    case wake         => simp [hi]
    case operation o  => simp [hi, List.count_cons]

end Names

-- What the SQ, the kernel and the CQ refer to.
def Ring.named (r : Ring) : List OpId :=
  names r.sq ++ names r.kernel ++ names (r.cq.map Cqe.userData)

theorem Ring.submit_named (r : Ring) (answer : Int) (op : OpId) :
    (r.submit answer).1.named.count op = r.named.count op := by
  unfold Ring.submit
  split
  case isTrue  => rfl
  case isFalse =>
    have h : names r.sq = names (r.sq.take answer.toNat) ++ names (r.sq.drop answer.toNat) := by
      rw [← names_append, List.take_append_drop]
    simp only [named, h, names_append, List.count_append]
    omega

namespace Context

variable {s s' s'' : Context} {op : OpId} {ops new new' prepared : List OpId} {answer : Int}

-- The worker and the kernel agree: everything the ring refers to is inflight, nothing else is, and
-- every operation is in one place only.
structure Agree (s : Context) : Prop where
  once : ∀ op, s.held.count op ≤ 1
  balance : ∀ op, s.ring.named.count op = s.inflight.count op

-- From `s` to `s'` the operations `new` are started, none is lost or duplicated, and what enters or
-- leaves the ring enters or leaves the inflight list.
structure Keeps (s s' : Context) (new : List OpId) : Prop where
  held : ∀ op, s'.held.count op = s.held.count op + new.count op
  balance : ∀ op,
    s'.ring.named.count op + s.inflight.count op = s.ring.named.count op + s'.inflight.count op

theorem Keeps.refl : Keeps s s [] :=
  ⟨fun _ => rfl, fun _ => rfl⟩

theorem Keeps.trans (h : Keeps s s' new) (h' : Keeps s' s'' new') :
    Keeps s s'' (new ++ new') where
  held op := by
    rw [h'.held, h.held, List.count_append]
    omega
  balance op := by
    have := h.balance op
    have := h'.balance op
    omega

-- Every operation is in one place only, and so is one that is started.
def Once (s : Context) : Prop :=
  ∀ op, s.held.count op ≤ 1

theorem Once.start (h : s.Once) (hf : s.Fresh new)
    (hheld : ∀ op, s'.held.count op = s.held.count op + new.count op) : s'.Once := fun op => by
  rw [hheld]
  by_cases hop : op ∈ new
  case pos =>
    have h₁ := List.count_eq_zero_of_not_mem <| hf.2 op hop
    have h₂ := List.nodup_iff_count_le_one.mp hf.1 op
    omega
  case neg =>
    rw [List.count_eq_zero_of_not_mem hop]
    exact h op

theorem Keeps.agree (h : Keeps s s' new) (ha : s.Agree) (hf : s.Fresh new) : s'.Agree where
  once := Once.start ha.once hf h.held
  balance op := by
    have := h.balance op
    have := ha.balance op
    omega

theorem Agree.mem_inflight (h : s.Agree) (hop : op ∈ s.ring.named) : op ∈ s.inflight := by
  rw [← List.count_pos_iff, ← h.balance]
  exact List.count_pos_iff.mpr hop

theorem count_erase_add {l : List OpId} (h : op ∈ l) (o : OpId) :
    (l.erase op).count o + (if op = o then 1 else 0) = l.count o := by
  by_cases ho : op = o
  case pos =>
    subst ho
    have := List.count_pos_iff.mpr h
    rw [List.count_erase_self, if_pos rfl]
    omega
  case neg => rw [List.count_erase_of_ne (Ne.symm ho), if_neg ho, Nat.add_zero]

section Queues

theorem pushCpuList_eq : s.pushCpuList ops = { s with localCpu := ops.reverse ++ s.localCpu } := by
  induction ops generalizing s
  case nil           => rfl
  case cons op l hi =>
    rw [pushCpuList, List.foldl_cons, ← pushCpuList, hi]
    simp [pushCpu]

theorem foldl_stopOperation_eq (s : Context) (ops : List OpId) : ∃ f,
    ops.foldl stopOperation s = { s with ops := f, localCpu := ops.reverse ++ s.localCpu } := by
  induction ops generalizing s
  case nil          => exact ⟨s.ops, rfl⟩
  case cons op l hi =>
    have ⟨f, hf⟩ := hi (s.stopOperation op)
    refine ⟨f, hf.trans ?_⟩
    simp [stopOperation, completeSubmitStopped, setOp, pushCpu]

theorem stopQueuedIo_eq (s : Context) : ∃ f, s.stopQueuedIo = { s with
    ops := f, pendingIoRetry := [], localIo := [], sharedIo := []
    localCpu := s.sharedIo.reverse ++ (s.localIo.reverse ++
      (s.pendingIoRetry.reverse ++ s.localCpu)) } := by
  have ⟨f₁, h₁⟩ := foldl_stopOperation_eq s s.pendingIoRetry
  have ⟨f₂, h₂⟩ := foldl_stopOperation_eq { s with
    ops := f₁, localCpu := s.pendingIoRetry.reverse ++ s.localCpu, pendingIoRetry := [] } s.localIo
  have ⟨f₃, h₃⟩ := foldl_stopOperation_eq { s with
    ops := f₂, localCpu := s.localIo.reverse ++ (s.pendingIoRetry.reverse ++ s.localCpu)
    pendingIoRetry := [], localIo := [] } s.sharedIo
  refine ⟨f₃, ?_⟩
  simp only [stopQueuedIo, drainIoListCompleteStopped, h₁, h₂, h₃]

theorem failIoList_eq (s : Context) (ops : List OpId) (result : Int) : ∃ f,
    s.failIoList ops result = { s with
      ops := f, inflight := ops.foldl List.erase s.inflight
      localCpu := ops.reverse ++ s.localCpu } := by
  induction ops generalizing s
  case nil          => exact ⟨s.ops, rfl⟩
  case cons op l hi =>
    have ⟨f, hf⟩ := hi (s.failOperation result op)
    refine ⟨f, hf.trans ?_⟩
    simp [failOperation, removeInflight, completeSubmitError, setOp, pushCpu]

theorem failIoList_ring {result : Int} : (s.failIoList ops result).ring = s.ring := by
  have ⟨f, h⟩ := failIoList_eq s ops result
  rw [h]

theorem failIoList_localCpu {result : Int} :
    (s.failIoList ops result).localCpu = ops.reverse ++ s.localCpu := by
  have ⟨f, h⟩ := failIoList_eq s ops result
  rw [h]

theorem trackPreparedBatch_eq (hd : prepared.Nodup) (hi : ∀ op ∈ prepared, op ∉ s.inflight) :
    s.trackPreparedBatch prepared = { s with inflight := prepared.reverse ++ s.inflight } := by
  induction prepared generalizing s
  case nil          => rfl
  case cons op l hr =>
    have ⟨hop, hl⟩ := List.nodup_cons.mp hd
    have ha : s.addInflight op = { s with inflight := op :: s.inflight } :=
      if_neg (hi op (by simp))
    rw [trackPreparedBatch, List.foldl_cons, ha, ← trackPreparedBatch, hr hl]
    · simp
    · intro o ho
      have hne : o ≠ op := fun he => hop (he ▸ ho)
      simpa [hne] using hi o (by simp [ho])

-- A closed ring fails every operation, an open one takes as many as fit.
theorem prepareIoBatch_closed (ops prepared : List OpId) (h : s.ring.isOpen = false) : ∃ f,
    prepareIoBatch ops prepared s =
      ({ s with ops := f, localCpu := ops.reverse ++ s.localCpu }, prepared, []) := by
  induction ops generalizing s
  case nil          => exact ⟨s.ops, rfl⟩
  case cons op l hi =>
    have hp : s.prepareIo op = (s, -einval) := by simp [prepareIo, h]
    have ⟨f, hf⟩ := hi (s := (s.completeSubmitError op (-einval)).pushCpu op) h
    refine ⟨f, ?_⟩
    rw [prepareIoBatch, hp]
    simp only [show ¬(-einval = -eagain) by decide, show -einval < 0 by decide, if_true, if_false]
    rw [hf]
    simp [completeSubmitError, setOp, pushCpu]

theorem prepareIoBatch_open (h : s.ring.isOpen) :
    prepareIoBatch ops prepared s =
      let room := s.ring.entries - s.ring.sq.length
      (s.setRing (s.ring.queue ((ops.take room).map .operation)),
        (ops.take room).reverse ++ prepared, ops.drop room) := by
  induction ops generalizing s prepared
  case nil          => simp [prepareIoBatch, setRing, Ring.queue]
  case cons op l hi =>
    rw [prepareIoBatch]
    by_cases hr : s.ring.sq.length < s.ring.entries
    case pos =>
      have hp : s.prepareIo op = (s.setRing (s.ring.queue [.operation op]), 0) := by
        simp [prepareIo, Ring.getSqe, h, hr]
      have hroom : s.ring.entries - s.ring.sq.length =
          s.ring.entries - (s.ring.sq.length + 1) + 1 := by omega
      rw [hp]
      simp only [show ¬((0 : Int) = -eagain) by decide, show ¬(0 : Int) < 0 by decide, if_false]
      rw [hi (s := s.setRing (s.ring.queue [.operation op])) h]
      simp [hroom, setRing, Ring.queue]
    case neg =>
      have hp : s.prepareIo op = (s, -eagain) := by simp [prepareIo, Ring.getSqe, h, hr]
      have hroom : s.ring.entries - s.ring.sq.length = 0 := by omega
      rw [hp]
      simp [hroom, setRing, Ring.queue]

end Queues

-- What no queue function touches.
structure Frame (s s' : Context) : Prop where
  isOpen : s'.ring.isOpen = s.ring.isOpen
  entries : s'.ring.entries = s.ring.entries
  cq : s'.ring.cq = s.ring.cq
  pollPending : s'.pollPending = s.pollPending
  channelOpen : s'.channelOpen = s.channelOpen
  state : s'.state = s.state
  lifeState : s'.lifeState = s.lifeState
  options : s'.options = s.options
  cqeTasks : s'.cqeTasks = s.cqeTasks
  sharedCpu : s'.sharedCpu = s.sharedCpu
  batch : s'.batch = s.batch
  executed : s'.executed = s.executed
  taken : s'.taken = s.taken

theorem Frame.refl : Frame s s :=
  ⟨rfl, rfl, rfl, rfl, rfl, rfl, rfl, rfl, rfl, rfl, rfl, rfl, rfl⟩

theorem Frame.trans (h : Frame s s') (h' : Frame s' s'') : Frame s s'' :=
  ⟨h'.isOpen.trans h.isOpen, h'.entries.trans h.entries, h'.cq.trans h.cq,
    h'.pollPending.trans h.pollPending, h'.channelOpen.trans h.channelOpen, h'.state.trans h.state,
    h'.lifeState.trans h.lifeState, h'.options.trans h.options,
    h'.cqeTasks.trans h.cqeTasks, h'.sharedCpu.trans h.sharedCpu, h'.batch.trans h.batch,
    h'.executed.trans h.executed, h'.taken.trans h.taken⟩

section Pass

variable {p : Pass}

-- A pass over some of the sources: the prepared operations are at the end of the SQ.
structure Pass.Of (s : Context) (p : Pass) : Prop where
  held : ∀ op, p.ctx.held.count op + p.prepared.count op + p.remaining.count op = s.held.count op
  sq : p.ctx.ring.sq = s.ring.sq ++ p.prepared.reverse.map .operation
  kernel : p.ctx.ring.kernel = s.ring.kernel
  inflight : p.ctx.inflight = s.inflight
  opened : p.prepared ≠ [] → s.ring.isOpen
  frame : Frame s p.ctx

theorem Pass.Of.prepare {ctx : Context} (h : p.Of s) (hr : p.remaining = []) (ops : List OpId)
    (hh : ∀ op, ctx.held.count op + ops.count op = p.ctx.held.count op)
    (hring : ctx.ring = p.ctx.ring) (hi : ctx.inflight = p.ctx.inflight) (hf : Frame p.ctx ctx) :
    ({ p with ctx }.prepare ops).Of s := by
  unfold Pass.prepare
  split
  case isTrue hnil =>
    subst hnil
    refine ⟨fun op => ?_, hring ▸ h.sq, hring ▸ h.kernel, hi.trans h.inflight, h.opened,
      h.frame.trans hf⟩
    have := hh op
    have := h.held op
    simp_all
  case isFalse =>
    simp only
    cases hopen : ctx.ring.isOpen
    case false =>
      have ⟨f, hp⟩ := prepareIoBatch_closed ops p.prepared hopen
      rw [hp]
      refine ⟨fun op => ?_, hring ▸ h.sq, hring ▸ h.kernel, hi.trans h.inflight, h.opened, ?_⟩
      · have := hh op
        have := h.held op
        simp only [Context.held, List.count_append, List.count_reverse, hr, List.count_nil] at *
        omega
      · exact (h.frame.trans hf).trans ⟨rfl, rfl, rfl, rfl, rfl, rfl, rfl, rfl, rfl, rfl, rfl, rfl, rfl⟩
    case true =>
      rw [prepareIoBatch_open hopen]
      refine ⟨fun op => ?_, ?_, hring ▸ h.kernel, hi.trans h.inflight,
        fun _ => (h.frame.trans hf).isOpen ▸ hopen, ?_⟩
      · have := hh op
        have := h.held op
        have hops : ops.count op = (ops.take (ctx.ring.entries - ctx.ring.sq.length)).count op +
            (ops.drop (ctx.ring.entries - ctx.ring.sq.length)).count op := by
          rw [← List.count_append, List.take_append_drop]
        simp only [Context.held, setRing, List.count_append, List.count_reverse, hr,
          List.count_nil] at *
        omega
      · simp [setRing, Ring.queue, hring, h.sq]
      · exact (h.frame.trans hf).trans ⟨rfl, rfl, rfl, rfl, rfl, rfl, rfl, rfl, rfl, rfl, rfl, rfl, rfl⟩

theorem Pass.prepare_queues (p : Pass) (ops : List OpId) :
    (p.prepare ops).ctx.pendingIoRetry = p.ctx.pendingIoRetry ∧
      (p.prepare ops).ctx.localIo = p.ctx.localIo ∧
      (p.prepare ops).ctx.sharedIo = p.ctx.sharedIo := by
  unfold Pass.prepare
  split
  case isTrue  => exact ⟨rfl, rfl, rfl⟩
  case isFalse =>
    cases hopen : p.ctx.ring.isOpen
    case false =>
      have ⟨f, hp⟩ := prepareIoBatch_closed ops p.prepared hopen
      rw [hp]
      exact ⟨rfl, rfl, rfl⟩
    case true =>
      rw [prepareIoBatch_open hopen]
      exact ⟨rfl, rfl, rfl⟩

theorem Pass.takeLocal_queues (p : Pass) :
    p.takeLocal.ctx.pendingIoRetry = p.ctx.pendingIoRetry ∧
      p.takeLocal.ctx.sharedIo = p.ctx.sharedIo := by
  unfold Pass.takeLocal
  split
  case isTrue  => exact ⟨(Pass.prepare_queues _ _).1, (Pass.prepare_queues _ _).2.2⟩
  case isFalse => exact ⟨rfl, rfl⟩

theorem Pass.Of.takeLocal (h : p.Of s) : p.takeLocal.Of s := by
  unfold Pass.takeLocal
  split
  case isTrue hr =>
    exact h.prepare hr p.ctx.localIo
      (fun op => by simp only [Context.held, List.count_append, List.count_nil]; omega) rfl rfl
      ⟨rfl, rfl, rfl, rfl, rfl, rfl, rfl, rfl, rfl, rfl, rfl, rfl, rfl⟩
  case isFalse => exact h

theorem Pass.Of.takeShared (h : p.Of s) : p.takeShared.Of s := by
  unfold Pass.takeShared
  split
  case isTrue hr =>
    exact h.prepare hr p.ctx.sharedIo
      (fun op => by simp only [Context.held, List.count_append, List.count_nil]; omega) rfl rfl
      ⟨rfl, rfl, rfl, rfl, rfl, rfl, rfl, rfl, rfl, rfl, rfl, rfl, rfl⟩
  case isFalse => exact h

theorem Pass.of_self (s : Context) : Pass.Of s { ctx := s } :=
  ⟨by simp, by simp, rfl, rfl, by simp, .refl⟩

theorem Pass.takeRetry_of (s : Context) :
    (Pass.prepare { ctx := { s with pendingIoRetry := [] } } s.pendingIoRetry).Of s := by
  refine (Pass.of_self s).prepare rfl s.pendingIoRetry (fun op => ?_) rfl rfl
    ⟨rfl, rfl, rfl, rfl, rfl, rfl, rfl, rfl, rfl, rfl, rfl, rfl, rfl⟩
  simp only [Context.held, List.count_append, List.count_nil]
  omega

theorem preparePass_of (s : Context) : s.preparePass.Of s :=
  (Pass.takeRetry_of s).takeLocal.takeShared

theorem preparePass_retry (s : Context) : s.preparePass.ctx.pendingIoRetry = [] := by
  have hs : ∀ p : Pass, p.takeShared.ctx.pendingIoRetry = p.ctx.pendingIoRetry := fun p => by
    unfold Pass.takeShared
    split
    case isTrue  => exact (Pass.prepare_queues _ _).1
    case isFalse => rfl
  simp only [preparePass, hs, Pass.takeLocal_queues, Pass.prepare_queues]

theorem Pass.Of.disjoint (h : p.Of s) (once : s.Once) :
    p.prepared.Nodup ∧ ∀ op ∈ p.prepared, op ∉ p.ctx.inflight := by
  have hle : ∀ op, p.ctx.held.count op + p.prepared.count op ≤ 1 := fun op => by
    have := h.held op
    have := once op
    omega
  refine ⟨List.nodup_iff_count_le_one.mpr fun op => by have := hle op; omega, fun op hop hi => ?_⟩
  have h₁ := List.count_pos_iff.mpr hop
  have h₂ : 0 < p.ctx.held.count op := List.count_pos_iff.mpr (by simp [Context.held, hi])
  have := hle op
  omega

theorem Pass.Of.named (h : p.Of s) (op : OpId) :
    p.ctx.ring.named.count op = s.ring.named.count op + p.prepared.count op := by
  have hnames : ∀ l : List OpId, names (l.map .operation) = l := fun l => by
    induction l
    case nil         => rfl
    case cons a l hi => simp [hi]
  simp only [Ring.named, h.sq, h.kernel, h.frame.cq, names_append, hnames, List.count_append,
    List.count_reverse]
  omega

-- The operations a pass looks at, in its order, and the SQ entries it can fill.
def ioSources (s : Context) : List OpId :=
  s.pendingIoRetry ++ s.localIo ++ s.sharedIo

def room (s : Context) : Nat :=
  s.ring.entries - s.ring.sq.length

-- A pass that has looked at `l` has prepared as much of it as fits.
structure Pass.Filled (s : Context) (p : Pass) (l : List OpId) : Prop where
  of : p.Of s
  prepared : p.prepared = (l.take s.room).reverse
  full : p.remaining = [] ↔ l.length ≤ s.room

theorem Pass.Filled.prepare {ctx : Context} {l : List OpId} (h : p.Filled s l)
    (ho : s.ring.isOpen) (hr : p.remaining = []) (ops : List OpId) (hring : ctx.ring = p.ctx.ring)
    (hof : ({ p with ctx }.prepare ops).Of s) :
    ({ p with ctx }.prepare ops).Filled s (l ++ ops) := by
  suffices hs : ({ p with ctx }.prepare ops).prepared = ((l ++ ops).take s.room).reverse ∧
      (({ p with ctx }.prepare ops).remaining = [] ↔ (l ++ ops).length ≤ s.room) from
    ⟨hof, hs.1, hs.2⟩
  have hlen : l.length ≤ s.room := h.full.mp hr
  have hprep : p.prepared = l.reverse := by rw [h.prepared, List.take_of_length_le hlen]
  unfold Pass.prepare
  split
  case isTrue hnil => simp [hnil, h.prepared, hr, hlen]
  case isFalse =>
    have hopen : ctx.ring.isOpen := by rw [hring, h.of.frame.isOpen, ho]
    have hroom : ctx.ring.entries - ctx.ring.sq.length = s.room - l.length := by
      rw [hring, h.of.frame.entries, h.of.sq, hprep]
      simp [room]
      omega
    simp only [prepareIoBatch_open hopen, hroom]
    refine ⟨?_, ?_⟩
    · rw [hprep, List.take_append, List.take_of_length_le hlen, List.reverse_append]
    · simp only [List.drop_eq_nil_iff, List.length_append]
      omega

theorem Pass.Filled.skip {l : List OpId} (h : p.Filled s l) (hr : p.remaining ≠ [])
    (ops : List OpId) : p.Filled s (l ++ ops) := by
  have hlen : s.room ≤ l.length := by
    have := h.full.not.mp hr
    omega
  refine ⟨h.of, ?_, ?_⟩
  · rw [h.prepared, List.take_append_of_le_length hlen]
  · refine iff_of_false hr ?_
    have := h.full.not.mp hr
    simp only [List.length_append]
    omega

theorem Pass.Filled.takeLocal {l : List OpId} (h : p.Filled s l) (ho : s.ring.isOpen) :
    p.takeLocal.Filled s (l ++ p.ctx.localIo) := by
  have hof := h.of.takeLocal
  unfold Pass.takeLocal at hof ⊢
  split
  case isTrue hr  => exact h.prepare ho hr _ rfl (by rwa [if_pos hr] at hof)
  case isFalse hr => exact h.skip hr _

theorem Pass.Filled.takeShared {l : List OpId} (h : p.Filled s l) (ho : s.ring.isOpen) :
    p.takeShared.Filled s (l ++ p.ctx.sharedIo) := by
  have hof := h.of.takeShared
  unfold Pass.takeShared at hof ⊢
  split
  case isTrue hr  => exact h.prepare ho hr _ rfl (by rwa [if_pos hr] at hof)
  case isFalse hr => exact h.skip hr _

-- An open ring takes the operations in order until the SQ is full.
theorem preparePass_filled (ho : s.ring.isOpen) : s.preparePass.Filled s s.ioSources := by
  have h₀ : Pass.Filled s { ctx := s } [] := ⟨Pass.of_self s, by simp, by simp⟩
  have hof := Pass.takeRetry_of s
  have h₁ := h₀.prepare ho rfl s.pendingIoRetry (by rfl) hof
  have h₂ := (h₁.takeLocal ho).takeShared ho
  rw [(Pass.takeLocal_queues _).2, (Pass.prepare_queues _ _).2.1, (Pass.prepare_queues _ _).2.2,
    List.nil_append] at h₂
  exact h₂

theorem preparePass_prepared_eq_nil : s.preparePass.prepared = [] ↔
    s.ring.isOpen = false ∨ s.room = 0 ∨ s.ioSources = [] := by
  cases ho : s.ring.isOpen
  case false =>
    refine iff_of_true ?_ (.inl rfl)
    by_contra hp
    simpa [ho] using (preparePass_of s).opened hp
  case true => simp [(preparePass_filled ho).prepared]

-- A pass that finds no work has prepared nothing and hands nothing back.
structure Pass.Idle (p : Pass) : Prop where
  prepared : p.prepared = []
  remaining : p.remaining = []

theorem Pass.idle_of_prepare {ctx : Context} (ops : List OpId)
    (hi : p.foundWork = false → p.Idle)
    (h : ({ p with ctx }.prepare ops).foundWork = false) : ({ p with ctx }.prepare ops).Idle := by
  unfold Pass.prepare at h ⊢
  split at h
  case isTrue hnil => simpa only [hnil, if_true] using ⟨(hi h).prepared, (hi h).remaining⟩
  case isFalse     => cases h

theorem preparePass_idle (h : s.preparePass.foundWork = false) : s.preparePass.Idle := by
  have hl : ∀ p : Pass, (p.foundWork = false → p.Idle) →
      p.takeLocal.foundWork = false → p.takeLocal.Idle := fun p hi hf => by
    unfold Pass.takeLocal at hf ⊢
    split at hf
    case isTrue hr  => rw [if_pos hr]; exact Pass.idle_of_prepare _ hi hf
    case isFalse hr => rw [if_neg hr]; exact hi hf
  have hs : ∀ p : Pass, (p.foundWork = false → p.Idle) →
      p.takeShared.foundWork = false → p.takeShared.Idle := fun p hi hf => by
    unfold Pass.takeShared at hf ⊢
    split at hf
    case isTrue hr  => rw [if_pos hr]; exact Pass.idle_of_prepare _ hi hf
    case isFalse hr => rw [if_neg hr]; exact hi hf
  refine hs _ (hl _ fun hf => ?_) h
  exact Pass.idle_of_prepare (p := { ctx := s }) s.pendingIoRetry (fun _ => ⟨rfl, rfl⟩) hf

theorem Pass.Of.keeps_of_idle (h : p.Of s) (hi : p.Idle) : Keeps s p.ctx [] := by
  refine ⟨fun op => ?_, fun op => ?_⟩
  · have := h.held op
    simp only [hi.prepared, hi.remaining, List.count_nil] at this ⊢
    omega
  · have := h.named op
    simp only [hi.prepared, List.count_nil, Nat.add_zero] at this
    rw [h.inflight, this]

theorem submitRing_frame : Frame s (s.submitRing answer).1 := by
  unfold submitRing
  split
  case isTrue => exact .refl
  case isFalse =>
    show Frame s (s.setRing (s.ring.submit answer).1)
    unfold Ring.submit
    split <;> exact ⟨rfl, rfl, rfl, rfl, rfl, rfl, rfl, rfl, rfl, rfl, rfl, rfl, rfl⟩

theorem trackPreparedBatch_frame : Frame s (s.trackPreparedBatch ops) := by
  induction ops generalizing s
  case nil          => exact .refl
  case cons op l hi =>
    have h : Frame s (s.addInflight op) := by
      unfold addInflight
      split <;> exact ⟨rfl, rfl, rfl, rfl, rfl, rfl, rfl, rfl, rfl, rfl, rfl, rfl, rfl⟩
    exact h.trans hi

theorem trackPreparedBatch_ring : (s.trackPreparedBatch ops).ring = s.ring := by
  induction ops generalizing s
  case nil          => rfl
  case cons op l hi =>
    have h : (s.addInflight op).ring = s.ring := by
      unfold addInflight
      split <;> rfl
    exact (hi (s := s.addInflight op)).trans h

theorem failIoList_frame {result : Int} : Frame s (s.failIoList ops result) := by
  have ⟨f, h⟩ := failIoList_eq s ops result
  exact h ▸ ⟨rfl, rfl, rfl, rfl, rfl, rfl, rfl, rfl, rfl, rfl, rfl, rfl, rfl⟩

theorem finishPass_frame : Frame p.ctx (finishPass p answer) := by
  have hs : Frame p.ctx (p.ctx.submitAndTrackPrepared p.prepared answer).1 := by
    unfold submitAndTrackPrepared
    split
    case isTrue  => exact .refl
    case isFalse => exact trackPreparedBatch_frame.trans submitRing_frame
  unfold finishPass
  generalize p.ctx.submitAndTrackPrepared p.prepared answer = r at hs ⊢
  have hset : ∀ t : Context, Frame t { t with pendingIoRetry := p.remaining } :=
    fun _ => ⟨rfl, rfl, rfl, rfl, rfl, rfl, rfl, rfl, rfl, rfl, rfl, rfl, rfl⟩
  simp only
  split
  case isFalse => exact hs.trans (hset _)
  case isTrue  =>
    split
    case isTrue  => exact (hs.trans failIoList_frame).trans (hset _)
    case isFalse => exact (hs.trans failIoList_frame).trans failIoList_frame

theorem consumeIoTasks_frame (s : Context) (answer : Int) :
    Frame s (s.consumeIoTasks answer).1 := by
  unfold consumeIoTasks
  split
  case isTrue =>
    have ⟨f, h⟩ := stopQueuedIo_eq s
    exact h ▸ ⟨rfl, rfl, rfl, rfl, rfl, rfl, rfl, rfl, rfl, rfl, rfl, rfl, rfl⟩
  case isFalse =>
    simp only
    split
    case isTrue  => exact (preparePass_of s).frame.trans finishPass_frame
    case isFalse => exact (preparePass_of s).frame

theorem foldl_erase_of_disjoint {l l' : List OpId} (h : ∀ op ∈ l', op ∉ l) :
    l'.foldl List.erase l = l := by
  induction l'
  case nil          => rfl
  case cons a l' hi =>
    rw [List.foldl_cons, List.erase_of_not_mem (h a (by simp)), hi fun op hop => h op (by simp [hop])]

-- Whatever the kernel answers, every operation of the pass ends up in one place.
theorem Pass.Of.finish_held (h : p.Of s) (hr : p.ctx.pendingIoRetry = [])
    (once : s.Once) (op : OpId) :
    (finishPass p answer).held.count op = s.held.count op := by
  have hheld := h.held op
  by_cases hp : p.prepared = []
  case pos =>
    simp only [finishPass, submitAndTrackPrepared, hp, if_true, Int.lt_irrefl, if_false]
    simp only [hp, Context.held, hr, List.count_append, List.count_nil] at hheld ⊢
    omega
  case neg =>
    have ⟨hd, hdis⟩ := h.disjoint once
    have hopen : p.ctx.ring.isOpen := h.frame.isOpen ▸ h.opened hp
    simp only [finishPass, submitAndTrackPrepared, hp, if_false, trackPreparedBatch_eq hd hdis,
      submitRing, hopen, Bool.not_true, Bool.false_eq_true]
    generalize p.ctx.ring.submit answer = r
    split
    case isFalse =>
      simp only [Context.held, setRing, hr, List.count_append, List.count_reverse,
        List.count_nil] at hheld ⊢
      omega
    case isTrue =>
      have ⟨o, l, hl⟩ := List.exists_cons_of_ne_nil hp
      have htake : p.prepared.take 1 = [o] := by rw [hl]; rfl
      have hmem : o ∈ p.prepared.reverse ++ p.ctx.inflight := by simp [hl]
      have hc := count_erase_add hmem op
      -- What the full SQ handed back is tracked nowhere.
      have hrem : ∀ a ∈ p.remaining, a ∉ (p.prepared.reverse ++ p.ctx.inflight).erase o := by
        intro a ha hin
        have h₁ := List.count_pos_iff.mpr ha
        have h₂ := List.count_pos_iff.mpr (List.mem_of_mem_erase hin)
        have h₃ : p.ctx.held.count a + p.prepared.count a + p.remaining.count a ≤ 1 :=
          h.held a ▸ once a
        simp only [Context.held, List.count_append, List.count_reverse] at h₂ h₃
        omega
      have ⟨f, hfail⟩ := failIoList_eq { p.ctx with
        ring := r.1, inflight := p.prepared.reverse ++ p.ctx.inflight } [o] r.2
      rw [htake]
      simp only [setRing, hfail, List.foldl_cons, List.foldl_nil]
      split
      case isTrue =>
        simp only [Context.held, hr, List.count_append, List.count_reverse, List.count_nil,
          List.reverse_cons, List.reverse_nil, List.nil_append, List.count_cons,
          beq_iff_eq] at hheld hc ⊢
        omega
      case isFalse =>
        have ⟨g, hfail'⟩ := failIoList_eq { p.ctx with
          ring := r.1, ops := f, inflight := (p.prepared.reverse ++ p.ctx.inflight).erase o
          localCpu := [o].reverse ++ p.ctx.localCpu } p.remaining r.2
        simp only [hfail', foldl_erase_of_disjoint hrem]
        simp only [Context.held, hr, List.count_append, List.count_reverse, List.count_nil,
          List.reverse_cons, List.reverse_nil, List.nil_append, List.count_cons,
          beq_iff_eq] at hheld hc ⊢
        omega

-- The submit succeeds, or there is nothing to submit.
theorem Pass.Of.keeps (h : p.Of s) (hr : p.ctx.pendingIoRetry = []) (ha : s.Agree)
    (hok : p.prepared ≠ [] → 0 ≤ answer) : Keeps s (finishPass p answer) [] := by
  refine ⟨h.finish_held hr ha.once, fun op => ?_⟩
  have hnamed := h.named op
  by_cases hp : p.prepared = []
  case pos =>
    simp only [finishPass, submitAndTrackPrepared, hp, if_true, Int.lt_irrefl, if_false]
    simp only [hp, List.count_nil, h.inflight] at hnamed ⊢
    omega
  case neg =>
    have ⟨hd, hdis⟩ := h.disjoint ha.once
    have hopen : p.ctx.ring.isOpen := h.frame.isOpen ▸ h.opened hp
    have hres : ¬(p.ctx.ring.submit answer).2 < 0 := by
      have := hok hp
      unfold Ring.submit
      split
      all_goals simp
      omega
    simp only [finishPass, submitAndTrackPrepared, hp, if_false, trackPreparedBatch_eq hd hdis,
      submitRing, hopen, Bool.not_true, Bool.false_eq_true, hres]
    simp only [setRing, Ring.submit_named, List.count_append, List.count_reverse, h.inflight]
    omega

end Pass

end Context
end Bnio.Uring
