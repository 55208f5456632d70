import Bnio.Uring.Delivery

namespace Bnio.Uring

-- The receiver call a completion asks for.
def Cqe.delivery (cqe : Cqe) (op : OpId) : Delivery :=
  { op, completion := .value, result := cqe.result, flags := cqe.flags }

namespace Options

variable {o : Options} {others : Bool} {marks : List Bool} {left n budget : Nat}
  {own own' shared shared' : Bool}

-- `dispatch_cqe_tasks` gives a batch of `n` tasks to the worker's own CPU queue.
def keepsLocal (o : Options) (budget n : Nat) : Bool :=
  n ≤ o.cqeInlineCompletionThreshold || o.localQueueThreshold = 0 || 0 < budget && n ≤ budget

def budgetAfter (o : Options) (budget n : Nat) : Nat :=
  if n ≤ o.cqeInlineCompletionThreshold then budget
  else if (o.localQueueThreshold = 0 || 0 < budget && n ≤ budget) && 0 < o.localQueueThreshold then
    budget - n
  else budget

-- `drain_local_tasks` gets to every completion that is due. The marks tell which entries of the CQ
-- are due; `left` entries of the current window are not collected yet, `n` that were are due, `own`
-- and `shared` tell whether the worker's own CPU queue and the shared one hold something anyway. When
-- a window ends before the last mark the worker must find a task; it empties its own queue first. It
-- cannot count on the shared queue if there are other workers.
def covered (o : Options) (others : Bool) : List Bool → Nat → Nat → Nat → Bool → Bool → Bool
  | [],         _,        _, _,      _,   _      => true
  | m :: marks, left + 1, n, budget, own, shared =>
    o.covered others marks left (n + m.toNat) budget own shared
  | m :: marks, 0,        n, budget, own, shared =>
    let own := own || 0 < n && o.keepsLocal budget n
    let shared := shared || 0 < n && !o.keepsLocal budget n
    !(m :: marks).any id ||
      (own || !others && shared) &&
        o.covered others marks (o.window - 1) m.toNat (o.budgetAfter budget n) false (own && shared)

theorem covered_of_none (h : marks.any id = false) :
    o.covered others marks left n budget own shared := by
  induction marks generalizing left n budget own shared
  case nil             => unfold covered; rfl
  case cons m marks hi =>
    have hm : marks.any id = false := by simp_all
    cases left
    case zero      => simp [covered, h]
    case succ left => exact hi hm

theorem covered_mono (ho : own → own') (hs : !others → shared → shared')
    (h : o.covered others marks left n budget own shared) :
    o.covered others marks left n budget own' shared' := by
  induction marks generalizing left n budget own own' shared shared'
  case nil             => unfold covered; rfl
  case cons m marks hi =>
    cases left
    case succ left => exact hi ho hs h
    case zero      =>
      simp only [covered, Bool.or_eq_true, Bool.and_eq_true] at h ⊢
      refine h.imp_right fun ⟨hfound, hrest⟩ => ⟨?_, hi id ?_ hrest⟩
      · exact hfound.imp (Or.imp_left ho) fun h => ⟨h.1, h.2.imp_left (hs h.1)⟩
      · simp only [Bool.and_eq_true, Bool.or_eq_true]
        exact fun hn h => ⟨h.1.imp_left ho, h.2.imp_left (hs hn)⟩

theorem budgetAfter_zero : o.budgetAfter budget 0 = budget := by
  simp [budgetAfter]

-- The window ends and its tasks are dispatched.
theorem covered_dispatch : o.covered others marks 0 n budget own shared =
    o.covered others marks 0 0 (o.budgetAfter budget n) (own || 0 < n && o.keepsLocal budget n)
      (shared || 0 < n && !o.keepsLocal budget n) := by
  cases marks
  case nil  => unfold covered; rfl
  case cons => simp [covered, budgetAfter_zero]

-- The worker empties a queue and starts the next window.
theorem covered_next (hd : marks.any id) : o.covered others marks 0 0 budget own shared =
    ((own || !others && shared) && o.covered others marks o.window 0 budget false (own && shared)) := by
  cases marks
  case nil          => simp at hd
  case cons m marks =>
    have hw : o.window = o.window - 1 + 1 := by unfold window; omega
    rw [hw, covered, covered, hd]
    simp [budgetAfter_zero]

end Options

namespace Context

variable {s s' : Context} {op : OpId} {ops prepared : List OpId} {answer : Int} {cqe : Cqe}

section Untouched

theorem setOp_ops {o : OpId} {x : Operation} (h : op ≠ o) : (s.setOp o x).ops op = s.ops op :=
  Function.update_of_ne h ..

theorem foldl_stopOperation_ops (h : op ∉ ops) : (ops.foldl stopOperation s).ops op = s.ops op := by
  induction ops generalizing s
  case nil         => rfl
  case cons o l hi =>
    have ⟨hne, hl⟩ := List.ne_and_not_mem_of_not_mem_cons h
    rw [List.foldl_cons, hi hl]
    exact (setOp_ops hne).trans (setOp_ops hne)

theorem foldl_stopOperation_stopped (h : op ∈ ops ∨ (s.ops op).completion = .stopped) :
    ((ops.foldl stopOperation s).ops op).completion = .stopped := by
  induction ops generalizing s
  case nil         => exact h.resolve_left List.not_mem_nil
  case cons o l hi =>
    refine hi (s := s.stopOperation o) ?_
    by_cases ho : op = o
    case pos => simp [stopOperation, completeSubmitStopped, setOp, pushCpu, ho]
    case neg =>
      have hops : (s.stopOperation o).ops op = s.ops op := (setOp_ops ho).trans (setOp_ops ho)
      rw [hops]
      exact h.imp_left fun hm => (List.mem_cons.mp hm).resolve_left ho

theorem drain_queues : (s.drainIoListCompleteStopped ops).localIo = s.localIo ∧
    (s.drainIoListCompleteStopped ops).sharedIo = s.sharedIo := by
  have ⟨_, h⟩ := foldl_stopOperation_eq s ops
  rw [drainIoListCompleteStopped, h]
  exact ⟨rfl, rfl⟩

theorem stopQueuedIo_ops (h : op ∉ s.ioSources) : s.stopQueuedIo.ops op = s.ops op := by
  simp only [ioSources, List.mem_append, not_or] at h
  simp only [stopQueuedIo, drain_queues]
  exact (foldl_stopOperation_ops h.2).trans <|
    (foldl_stopOperation_ops h.1.2).trans (foldl_stopOperation_ops h.1.1)

theorem abortInflightIo_ops (hi : op ∉ s.inflight) (hs : op ∉ s.ioSources) :
    s.abortInflightIo.ops op = s.ops op := by
  have ⟨_, h⟩ := foldl_stopOperation_eq { s with inflight := [] } s.inflight
  have hs' : op ∉ (s.inflight.foldl stopOperation { s with inflight := [] }).ioSources := by
    rw [h]
    exact hs
  exact (stopQueuedIo_ops hs').trans (foldl_stopOperation_ops hi)

theorem abortInflightIo_stopped (h : op ∈ s.inflight) :
    (s.abortInflightIo.ops op).completion = .stopped :=
  foldl_stopOperation_stopped <| .inr <| foldl_stopOperation_stopped <| .inr <|
    foldl_stopOperation_stopped <| .inr <| foldl_stopOperation_stopped (.inl h)

theorem failIoList_ops {result : Int} (h : op ∉ ops) :
    (s.failIoList ops result).ops op = s.ops op := by
  induction ops generalizing s
  case nil         => rfl
  case cons o l hi =>
    have ⟨hne, hl⟩ := List.ne_and_not_mem_of_not_mem_cons h
    exact (hi (s := s.failOperation result o) hl).trans (setOp_ops hne)

theorem trackPreparedBatch_ops : (s.trackPreparedBatch ops).ops = s.ops := by
  induction ops generalizing s
  case nil         => rfl
  case cons o l hi =>
    have h : (s.addInflight o).ops = s.ops := by
      unfold addInflight
      split <;> rfl
    exact (hi (s := s.addInflight o)).trans h

-- An operation that is in none of the sources is not part of a pass.
structure Pass.Skips (p : Pass) (op : OpId) (o : Operation) : Prop where
  prepared : op ∉ p.prepared
  remaining : op ∉ p.remaining
  localIo : op ∉ p.ctx.localIo
  sharedIo : op ∉ p.ctx.sharedIo
  ops : p.ctx.ops op = o

theorem prepareIoBatch_ops (h : op ∉ ops) (hp : op ∉ prepared) :
    (prepareIoBatch ops prepared s).1.ops op = s.ops op ∧
      op ∉ (prepareIoBatch ops prepared s).2.1 ∧ op ∉ (prepareIoBatch ops prepared s).2.2 := by
  induction ops generalizing s prepared
  case nil         => exact ⟨rfl, hp, List.not_mem_nil⟩
  case cons o l hi =>
    obtain ⟨hne, hl⟩ := List.ne_and_not_mem_of_not_mem_cons h
    have hops : (s.prepareIo o).1.ops = s.ops := by
      unfold prepareIo
      repeat' split
      all_goals rfl
    rw [prepareIoBatch]
    generalize s.prepareIo o = r at hops
    simp only
    split
    case isTrue => exact ⟨congrFun hops op, hp, h⟩
    case isFalse =>
      split
      case isTrue =>
        obtain ⟨h₁, h₂⟩ := hi (s := (r.1.completeSubmitError o r.2).pushCpu o) hl hp
        exact ⟨h₁.trans <| (setOp_ops hne).trans (congrFun hops op), h₂⟩
      case isFalse =>
        obtain ⟨h₁, h₂⟩ := hi (s := r.1) hl (List.not_mem_cons_of_ne_of_not_mem hne hp)
        exact ⟨h₁.trans (congrFun hops op), h₂⟩

theorem Pass.Skips.prepare {p : Pass} {o : Operation} (h : p.Skips op o) (hn : op ∉ ops) :
    (p.prepare ops).Skips op o := by
  have ⟨_, hl, hs⟩ := Pass.prepare_queues p ops
  refine ⟨?_, ?_, hl ▸ h.localIo, hs ▸ h.sharedIo, ?_⟩
  all_goals
    unfold Pass.prepare
    split
  · exact h.prepared
  · exact (prepareIoBatch_ops hn h.prepared).2.1
  · exact h.remaining
  · exact (prepareIoBatch_ops hn h.prepared).2.2
  · exact h.ops
  · exact (prepareIoBatch_ops hn h.prepared).1.trans h.ops

theorem preparePass_skips (h : op ∉ s.ioSources) : s.preparePass.Skips op (s.ops op) := by
  simp only [ioSources, List.mem_append, not_or] at h
  have hlocal : ∀ {p : Pass} {o : Operation}, p.Skips op o → p.takeLocal.Skips op o := fun hp => by
    unfold Pass.takeLocal
    split
    case isTrue  =>
      refine Pass.Skips.prepare ?_ hp.localIo
      exact ⟨hp.prepared, hp.remaining, List.not_mem_nil, hp.sharedIo, hp.ops⟩
    case isFalse => exact hp
  have hshared : ∀ {p : Pass} {o : Operation}, p.Skips op o → p.takeShared.Skips op o := fun hp => by
    unfold Pass.takeShared
    split
    case isTrue  =>
      refine Pass.Skips.prepare ?_ hp.sharedIo
      exact ⟨hp.prepared, hp.remaining, hp.localIo, List.not_mem_nil, hp.ops⟩
    case isFalse => exact hp
  refine hshared (hlocal (Pass.Skips.prepare ?_ h.1.1))
  exact ⟨List.not_mem_nil, List.not_mem_nil, h.1.2, h.2, rfl⟩

theorem finishPass_ops {p : Pass} {o : Operation} (h : p.Skips op o) :
    (finishPass p answer).ops op = o := by
  have hsub : (p.ctx.submitAndTrackPrepared p.prepared answer).1.ops op = o := by
    unfold submitAndTrackPrepared
    split
    case isTrue  => exact h.ops
    case isFalse =>
      unfold submitRing
      split <;> exact (congrFun trackPreparedBatch_ops op).trans h.ops
  have htake : op ∉ p.prepared.take 1 := fun hm => h.prepared (List.mem_of_mem_take hm)
  unfold finishPass
  generalize p.ctx.submitAndTrackPrepared p.prepared answer = r at hsub
  simp only
  split
  case isFalse => exact hsub
  case isTrue =>
    split
    case isTrue  => exact (failIoList_ops htake).trans hsub
    case isFalse => exact (failIoList_ops h.remaining).trans ((failIoList_ops htake).trans hsub)

theorem consumeIoTasks_ops (h : op ∉ s.ioSources) :
    (s.consumeIoTasks answer).1.ops op = s.ops op := by
  unfold consumeIoTasks
  split
  case isTrue => exact stopQueuedIo_ops h
  case isFalse =>
    simp only
    split
    case isTrue  => exact finishPass_ops (preparePass_skips h)
    case isFalse => exact (preparePass_skips h).ops

end Untouched

theorem foldl_publishLocalIo_ops {l : List (OpId × OperationClass)} (h : op ∉ l.map Prod.fst) :
    (l.foldl publishLocalIo s).ops op = s.ops op := by
  induction l generalizing s
  case nil         => rfl
  case cons p l hi =>
    have ⟨hne, hl⟩ := List.ne_and_not_mem_of_not_mem_cons h
    exact (hi (s := s.publishLocalIo p) hl).trans (setOp_ops hne)

-- The receiver of the next operation of the batch is called.
theorem executeNext_cons {i : Input} {o : OpId} {l : List OpId} (hb : s.batch = o :: l) :
    ∃ f q, s.executeNext i = { s with
      ops := f, localIo := q, localCpu := i.publishedCpu.reverse ++ s.localCpu, batch := l
      executed := ⟨o, (s.ops o).completion, (s.ops o).result, (s.ops o).flags⟩ :: s.executed } ∧
      ∀ op ∉ i.publishedIo.map Prod.fst, f op = s.ops op := by
  have ⟨f, q, hq⟩ := foldl_publishLocalIo_eq
    (({ s with batch := l }.execute o).pushCpuList i.publishedCpu) i.publishedIo
  refine ⟨f, q, ?_, fun op hop => ?_⟩
  · simp only [executeNext, hb, hq]
    rw [pushCpuList_eq]
    rfl
  · have h := foldl_publishLocalIo_ops
      (s := ({ s with batch := l }.execute o).pushCpuList i.publishedCpu) hop
    rw [hq, pushCpuList_eq] at h
    exact h

theorem dispatchCqeTasks_spec (s : Context) :
    s.dispatchCqeTasks = { s with
      cqeTasks := []
      localCpu := if s.options.keepsLocal s.localTaskBudget s.cqeTasks.length then
        s.cqeTasks.reverse ++ s.localCpu else s.localCpu
      sharedCpu := if s.options.keepsLocal s.localTaskBudget s.cqeTasks.length then s.sharedCpu
        else s.cqeTasks.reverse ++ s.sharedCpu
      localTaskBudget := s.options.budgetAfter s.localTaskBudget s.cqeTasks.length } := by
  simp only [dispatchCqeTasks, Options.keepsLocal, Options.budgetAfter, pushCpuList_eq,
    List.foldl_flip_cons_eq_append', Bool.or_eq_true, Bool.and_eq_true, decide_eq_true_eq]
  by_cases h₁ : s.cqeTasks.length ≤ s.options.cqeInlineCompletionThreshold
  case pos => simp [h₁]
  case neg =>
    by_cases h₂ : s.options.localQueueThreshold = 0 ∨
        0 < s.localTaskBudget ∧ s.cqeTasks.length ≤ s.localTaskBudget
    case neg => simp [h₁, h₂]
    case pos => by_cases h₃ : 0 < s.options.localQueueThreshold <;> simp [h₁, h₂, h₃]

section Fate

-- The operation a completion is to be delivered to; there is none for a poll of a wake channel and
-- for an operation that is going to be submitted again.
def due (s : Context) (cqe : Cqe) : Option OpId :=
  match cqe.userData with
  | .wake _       => none
  | .operation op =>
    if cqe.result = -eagain ∧ (s.ops op).rearmOnEagain then none else some op

-- Between the collection of its completion and its execution, here or on another worker.
def ready (s : Context) : List OpId :=
  s.cqeTasks ++ s.localCpu ++ s.sharedCpu ++ s.batch ++ s.taken

def Stored (s : Context) (op : OpId) (cqe : Cqe) : Prop :=
  (s.ops op).result = cqe.result ∧ (s.ops op).flags = cqe.flags ∧ (s.ops op).completion = .value

-- What has become of a completion that is due, where `t` are the completions still in the CQ.
inductive Fate (s : Context) (t : List Cqe) (op : OpId) (cqe : Cqe) : Prop
  | waiting (ht : cqe ∈ t) (hd : s.due cqe = some op) (hv : (s.ops op).completion = .value)
  | stored (hr : op ∈ s.ready) (hs : s.Stored op cqe)
  | done (hd : cqe.delivery op ∈ s.executed)

variable {t : List Cqe}

theorem due_eq_some : s.due cqe = some op ↔
    cqe.userData = .operation op ∧ ¬(cqe.result = -eagain ∧ (s.ops op).rearmOnEagain) := by
  unfold due
  split
  case h_1 h => simp [h]
  case h_2 o h =>
    rw [h]
    by_cases ho : o = op
    case pos => subst ho; simp
    case neg => simp [ho]

theorem Once.not_mem_of_ready (h : s.Once) (hr : op ∈ s.ready) :
    op ∉ s.inflight ∧ op ∉ s.ioSources := by
  have h₁ := h op
  have h₂ := List.count_pos_iff.mpr hr
  rw [← List.count_pos_iff, ← List.count_pos_iff]
  simp only [held, ready, ioSources, List.count_append] at *
  omega

theorem Once.not_mem_of_inflight (h : s.Once) (hi : op ∈ s.inflight) :
    op ∉ s.ready ∧ op ∉ s.ioSources := by
  have h₁ := h op
  have h₂ := List.count_pos_iff.mpr hi
  rw [← List.count_pos_iff, ← List.count_pos_iff]
  simp only [held, ready, ioSources, List.count_append] at *
  omega

theorem mem_held_of_ready (hr : op ∈ s.ready) : op ∈ s.held := by
  have h := List.count_pos_iff.mpr hr
  rw [← List.count_pos_iff]
  simp only [held, ready, List.count_append] at *
  omega

theorem mem_held_of_inflight (hi : op ∈ s.inflight) : op ∈ s.held := by
  simp [held, hi]

theorem due_of_ops_eq (hops : s'.ops op = s.ops op) (h : s.due cqe = some op) :
    s'.due cqe = some op := by
  rw [due_eq_some, hops, ← due_eq_some]
  exact h

theorem Stored.of_ops_eq (hops : s'.ops op = s.ops op) (h : s.Stored op cqe) : s'.Stored op cqe := by
  rw [Stored, hops]
  exact h

-- The operation is not touched and its queue is not left.
theorem Fate.keep (h : Fate s t op cqe) (hops : s'.ops op = s.ops op)
    (hr : op ∈ s.ready → op ∈ s'.ready) (he : s.executed ⊆ s'.executed) : Fate s' t op cqe := by
  cases h
  case waiting ht hd hv => exact .waiting ht (due_of_ops_eq hops hd) (by rw [hops]; exact hv)
  case stored hq hs     => exact .stored (hr hq) (hs.of_ops_eq hops)
  case done hd          => exact .done (he hd)

theorem Fate.execute {i : Input} {o : OpId} {l : List OpId} (h : Fate s t op cqe)
    (hb : s.batch = o :: l) (hop : op ∉ i.publishedIo.map Prod.fst) :
    Fate (s.executeNext i) t op cqe := by
  have ⟨f, q, he, hf⟩ := executeNext_cons (i := i) hb
  have hops : (s.executeNext i).ops op = s.ops op := by rw [he]; exact hf op hop
  cases h
  case waiting hin hd hv => exact .waiting hin (due_of_ops_eq hops hd) (by rw [hops]; exact hv)
  case done hd           => exact .done (by rw [he]; exact List.mem_cons_of_mem _ hd)
  case stored hm hs      =>
    by_cases hr : op ∈ (s.executeNext i).ready
    case pos => exact .stored hr (hs.of_ops_eq hops)
    case neg =>
      have hoo : op = o := by
        rw [he] at hr
        simp only [ready, hb, List.mem_append, List.mem_cons] at hm hr
        tauto
      refine .done ?_
      rw [he, Cqe.delivery, ← hs.1, ← hs.2.1, ← hs.2.2, hoo]
      exact List.mem_cons_self

-- The receiver is never called with anything else.
theorem Fate.unique (h : Fate s t op cqe) (hone : s.Once)
    (hi : ∀ c ∈ t, ∀ o, c.userData = .operation o → o ∈ s.inflight) {d : Delivery}
    (hd : d ∈ s.executed) (hop : d.op = op) : d = cqe.delivery op := by
  have hmem : op ∈ s.executed.map Delivery.op := hop ▸ List.mem_map_of_mem hd
  have h₁ := hone op
  have h₂ := List.count_pos_iff.mpr hmem
  cases h
  case waiting ht hdue _ =>
    have h₃ := List.count_pos_iff.mpr <| hi cqe ht op (due_eq_some.mp hdue).1
    simp only [held, List.count_append] at h₁
    omega
  case stored hr _ =>
    have h₃ := List.count_pos_iff.mpr hr
    simp only [held, ready, List.count_append] at h₁ h₃
    omega
  case done hdone =>
    have hnd : (s.executed.map Delivery.op).Nodup := List.nodup_iff_count_le_one.mpr fun o => by
      have := hone o
      simp only [held, List.count_append] at this
      omega
    exact List.inj_on_of_nodup_map hnd hd hdone hop

theorem mem_ready_of_keeps {new : List OpId} (h : Keeps s s' new) (hi : s'.inflight = s.inflight)
    (hs : s'.ioSources = s.ioSources) (he : s'.executed = s.executed) (hr : op ∈ s.ready) :
    op ∈ s'.ready := by
  have h₁ := h.held op
  have h₂ := List.count_pos_iff.mpr hr
  have h₃ := congrArg (List.count op) hs
  rw [← List.count_pos_iff]
  simp only [held, ready, ioSources, hi, he, List.count_append] at *
  omega

-- What collecting a completion does to the queues.
structure Collects (s s' : Context) (cqe : Cqe) : Prop where
  localCpu : s'.localCpu = s.localCpu
  sharedCpu : s'.sharedCpu = s.sharedCpu
  batch : s'.batch = s.batch
  taken : s'.taken = s.taken
  executed : s'.executed = s.executed
  options : s'.options = s.options
  localTaskBudget : s'.localTaskBudget = s.localTaskBudget
  cq : s'.ring.cq = s.ring.cq
  isOpen : s'.ring.isOpen = s.ring.isOpen
  cqeTasks : s'.cqeTasks = (s.due cqe).toList ++ s.cqeTasks
  ops : ∀ op, cqe.userData ≠ .operation op → s'.ops op = s.ops op

theorem submit_cq {r : Ring} : (r.submit answer).1.cq = r.cq ∧ (r.submit answer).1.isOpen = r.isOpen := by
  unfold Ring.submit
  split <;> exact ⟨rfl, rfl⟩

theorem collectCqe_collects (s : Context) (cqe : Cqe) (answer : Int) :
    Collects s (s.collectCqe cqe answer) cqe := by
  unfold collectCqe
  split
  case h_1 c hc =>
    have hdue : s.due cqe = none := by simp [due, hc]
    have h : Arms { s with pollPending := Function.update s.pollPending c false } c answer _ :=
      armWakePoll_arms
    generalize ({ s with pollPending := Function.update s.pollPending c false } : Context).armWakePoll
      c answer = p at h
    cases h
    case armed =>
      exact ⟨rfl, rfl, rfl, rfl, rfl, rfl, rfl, submit_cq.1, submit_cq.2, by rw [hdue]; rfl,
        fun _ _ => rfl⟩
    all_goals
      exact ⟨rfl, rfl, rfl, rfl, rfl, rfl, rfl, rfl, rfl, by rw [hdue]; rfl, fun _ _ => rfl⟩
  case h_2 o ho =>
    have hops : ∀ op, cqe.userData ≠ .operation op → op ≠ o := fun op hne he => hne (he ▸ ho)
    by_cases h : cqe.result = -eagain ∧ (s.ops o).rearmOnEagain
    case pos =>
      rw [enqueueCqeTask_rearm h]
      exact ⟨rfl, rfl, rfl, rfl, rfl, rfl, rfl, rfl, rfl, by simp [due, ho, h, collected, pushIo],
        fun op hne => Function.update_of_ne (hops op hne) ..⟩
    case neg =>
      have hdue : s.due cqe = some o := due_eq_some.mpr ⟨ho, h⟩
      rw [enqueueCqeTask_deliver h]
      exact ⟨rfl, rfl, rfl, rfl, rfl, rfl, rfl, rfl, rfl, by rw [hdue]; rfl,
        fun op hne => Function.update_of_ne (hops op hne) ..⟩

theorem Collects.ready (h : Collects s s' cqe) (hr : op ∈ s.ready) : op ∈ s'.ready := by
  simp only [Context.ready, h.localCpu, h.sharedCpu, h.batch, h.taken, h.cqeTasks,
    List.mem_append] at hr ⊢
  tauto

-- The ring refers to an operation only once.
theorem Agree.ne_of_cq {c x : Cqe} {cq : List Cqe} (ha : s.Agree) (hcq : s.ring.cq = c :: cq)
    (hx : x ∈ cq) (hop : x.userData = .operation op) : c.userData ≠ .operation op := by
  intro hc
  have h₁ : 0 < (names (cq.map Cqe.userData)).count op :=
    List.count_pos_iff.mpr (mem_names.mpr (hop ▸ List.mem_map_of_mem hx))
  have h₂ := ha.balance op
  have h₃ := ha.once op
  simp only [Ring.named, held, hcq, List.map_cons, hc, names_operation, List.count_append,
    List.count_cons_self] at h₂ h₃
  omega

theorem Agree.mem_inflight_of_cq {c : Cqe} (ha : s.Agree) (hc : c ∈ s.ring.cq)
    (hop : c.userData = .operation op) : op ∈ s.inflight := by
  refine ha.mem_inflight ?_
  simp only [Ring.named, List.mem_append, mem_names]
  exact .inr (hop ▸ List.mem_map_of_mem hc)

theorem Fate.mono {t' : List Cqe} (h : Fate s t op cqe) (ht : t ⊆ t') : Fate s t' op cqe := by
  cases h
  case waiting hin hd hv => exact .waiting (ht hin) hd hv
  case stored hr hs      => exact .stored hr hs
  case done hd           => exact .done hd

-- Collecting the oldest completion, which is the next one of `t`.
theorem Fate.collect {cq : List Cqe} {c : Cqe} (h : Fate s (c :: t) op cqe) (ha : s.Agree)
    (hcq : s.ring.cq = c :: cq) (ht : t ⊆ cq) :
    Fate ((s.setRing s.ring.advance).collectCqe c answer) t op cqe := by
  have hcol := collectCqe_collects (s.setRing s.ring.advance) c answer
  cases h
  case stored hr hs =>
    have hne : c.userData ≠ .operation op := fun hc =>
      (Once.not_mem_of_ready ha.once hr).1 (ha.mem_inflight_of_cq (by simp [hcq]) hc)
    refine Fate.keep (.stored hr hs) (hcol.ops op hne) hcol.ready ?_
    rw [hcol.executed]
    exact List.Subset.refl _
  case done hd =>
    refine .done ?_
    rw [hcol.executed]
    exact hd
  case waiting hin hd hv =>
    have ⟨hu, hne⟩ := due_eq_some.mp hd
    rcases List.mem_cons.mp hin with rfl | hin
    · have htask : op ∈ ((s.setRing s.ring.advance).collectCqe cqe answer).cqeTasks := by
        have hdue : (s.setRing s.ring.advance).due cqe = some op := hd
        rw [hcol.cqeTasks, hdue]
        simp
      refine .stored (by simp [Context.ready, htask]) ?_
      have he : (s.setRing s.ring.advance).collectCqe cqe answer =
          (s.setRing s.ring.advance).enqueueCqeTask op cqe := by simp only [collectCqe, hu]
      rw [he, enqueueCqeTask_deliver (s := s.setRing s.ring.advance) hne]
      exact ⟨by simp [collected], by simp [collected], by simpa [collected, setRing] using hv⟩
    · have hne' : c.userData ≠ .operation op := ha.ne_of_cq hcq (ht hin) hu
      refine Fate.keep (.waiting hin hd hv) (hcol.ops op hne') hcol.ready ?_
      rw [hcol.executed]
      exact List.Subset.refl _

end Fate

end Context

end Bnio.Uring
