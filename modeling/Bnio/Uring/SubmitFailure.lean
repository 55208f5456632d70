import Bnio.Uring.Delivery

namespace Bnio.Uring.Context

variable {s : Context} {p : Pass} {ops : List OpId} {op : OpId} {e : Int}

-- With an open ring, a pass changes nothing but the SQ and the queues it takes from. What it has
-- prepared, what it parks and what it leaves in the queues are its sources, in order.
structure Pass.Splits (s : Context) (p : Pass) : Prop where
  ctx : ∃ ring localIo sharedIo,
    p.ctx = { s with ring, pendingIoRetry := [], localIo, sharedIo }
  isOpen : p.ctx.ring.isOpen
  list : p.prepared.reverse ++ p.remaining ++ (p.ctx.localIo ++ p.ctx.sharedIo) = s.ioSources

theorem Pass.splits_prepare {ctx : Context} (ops : List OpId) (ho : ctx.ring.isOpen)
    (hc : ∃ ring localIo sharedIo, ctx = { s with ring, pendingIoRetry := [], localIo, sharedIo })
    (hr : p.remaining = [])
    (hl : p.prepared.reverse ++ ops ++ (ctx.localIo ++ ctx.sharedIo) = s.ioSources) :
    ({ p with ctx }.prepare ops).Splits s := by
  unfold Pass.prepare
  split
  case isTrue hnil => exact ⟨hc, ho, by simpa [hnil, hr] using hl⟩
  case isFalse     =>
    have ⟨_, _, _, hc⟩ := hc
    rw [prepareIoBatch_open ho]
    exact ⟨⟨_, _, _, by rw [hc]; rfl⟩, ho, by simpa [setRing] using hl⟩

theorem Pass.Splits.takeLocal (h : p.Splits s) : p.takeLocal.Splits s := by
  have ⟨_, _, _, hc⟩ := h.ctx
  have hl := h.list
  unfold Pass.takeLocal
  split
  case isFalse   => exact h
  case isTrue hr =>
    refine splits_prepare _ h.isOpen ⟨_, _, _, by rw [hc]⟩ hr ?_
    simpa [hr] using hl

theorem Pass.takeLocal_localIo (h : p.takeLocal.remaining = []) : p.takeLocal.ctx.localIo = [] := by
  unfold Pass.takeLocal at h ⊢
  split
  case isTrue     => exact (Pass.prepare_queues _ _).2.1
  case isFalse hr => exact absurd (by rwa [if_neg hr] at h) hr

-- The shared queue is taken from only when the local one has been emptied.
theorem Pass.Splits.takeShared (h : p.Splits s) (he : p.remaining = [] → p.ctx.localIo = []) :
    p.takeShared.Splits s := by
  have ⟨_, _, _, hc⟩ := h.ctx
  have hl := h.list
  unfold Pass.takeShared
  split
  case isFalse   => exact h
  case isTrue hr =>
    refine splits_prepare _ h.isOpen ⟨_, _, _, by rw [hc]⟩ hr ?_
    simpa [hr, he hr] using hl

theorem preparePass_splits (ho : s.ring.isOpen) : s.preparePass.Splits s := by
  have h : (Pass.prepare { ctx := { s with pendingIoRetry := [] } } s.pendingIoRetry).Splits s :=
    Pass.splits_prepare (p := { ctx := s }) _ ho ⟨_, _, _, rfl⟩ rfl (by simp [ioSources])
  exact h.takeLocal.takeShared Pass.takeLocal_localIo

theorem completeSubmitError_twice (o : Operation) :
    (o.completeSubmitError e).completeSubmitError e = o.completeSubmitError e := by
  unfold Operation.completeSubmitError Operation.nativeCompleteSubmitError
  cases o.kind <;> rfl

theorem failIoList_ops_eq : (s.failIoList ops e).ops op =
    if op ∈ ops then (s.ops op).completeSubmitError e else s.ops op := by
  induction ops generalizing s
  case nil         => rfl
  case cons o l hi =>
    rw [failIoList, List.foldl_cons, ← failIoList, hi]
    by_cases ho : op = o
    case pos =>
      subst ho
      simp [failOperation, completeSubmitError, setOp, removeInflight, pushCpu,
        completeSubmitError_twice]
    case neg =>
      simp [failOperation, completeSubmitError, setOp, removeInflight, pushCpu, ho]

theorem failIoList_inflight : (s.failIoList ops e).inflight = ops.foldl List.erase s.inflight := by
  have ⟨f, h⟩ := failIoList_eq s ops e
  rw [h]

theorem failIoList_queues (s : Context) (ops : List OpId) (e : Int) :
    (s.failIoList ops e).localIo = s.localIo ∧
    (s.failIoList ops e).sharedIo = s.sharedIo ∧
    (s.failIoList ops e).pendingIoRetry = s.pendingIoRetry := by
  have ⟨f, h⟩ := failIoList_eq s ops e
  rw [h]
  exact ⟨rfl, rfl, rfl⟩

-- The operations that a failed submit fails although they have never been prepared.
def failedRemainder (s : Context) (e : Int) : List OpId :=
  if isTransientSubmitError e then [] else s.preparePass.remaining

-- What `consume_io_tasks` shall leave behind when its submit has failed with `e`.
structure Partition (s : Context) (e : Int) (s' : Context) : Prop where
  -- exactly these operations are completed, each of them once
  completes : ∃ done, s'.localCpu = done ++ s.localCpu ∧
    done.Perm (s.preparePass.prepared ++ s.failedRemainder e) ∧
    ∀ op, s'.ops op = if op ∈ done then (s.ops op).completeSubmitError e else s.ops op
  -- no prepared operation stays in the list, and all others do
  inflight : s'.inflight = s.inflight
  retry : s'.pendingIoRetry = if isTransientSubmitError e then s.preparePass.remaining else []
  sources : s.preparePass.prepared.reverse ++ s.preparePass.remaining ++ (s'.localIo ++ s'.sharedIo) =
    s.ioSources

-- The context once the prepared operations are tracked and the submit has failed.
structure Tracked (s c : Context) : Prop where
  ops : c.ops = s.ops
  localCpu : c.localCpu = s.localCpu
  inflight : c.inflight = s.preparePass.prepared.reverse ++ s.inflight
  queues : c.localIo = s.preparePass.ctx.localIo ∧ c.sharedIo = s.preparePass.ctx.sharedIo

-- The caller's copy of the prepared list has only its head left when it is failed.
theorem consumeIoTasks_failed (h : s.FailsSubmit e) (hd : (s.inflight ++ s.ioSources).Nodup) :
    ∃ a l c, s.preparePass.prepared = a :: l ∧ Tracked s c ∧ (s.consumeIoTasks e).1 =
      { c.failIoList (a :: s.failedRemainder e) e with
        pendingIoRetry := if isTransientSubmitError e then s.preparePass.remaining else [] } := by
  have hp : s.preparePass.prepared ≠ [] := by
    have := h.room
    simp only [Ne, preparePass_prepared_eq_nil, h.ring, h.sources, room]
    simp
    omega
  have hfound : s.preparePass.foundWork := by
    by_contra hn
    exact hp (preparePass_idle (by simpa using hn)).prepared
  have hs := preparePass_splits h.ring
  obtain ⟨ring, localIo, sharedIo, hc⟩ := hs.ctx
  obtain ⟨a, l, hl⟩ := List.exists_cons_of_ne_nil hp
  have hopen : ring.isOpen := by simpa [hc] using hs.isOpen
  rw [← hs.list] at hd
  obtain ⟨_, hn, hdis⟩ := List.nodup_append'.mp hd
  have hn : s.preparePass.prepared.Nodup :=
    List.nodup_reverse.mp (List.nodup_append'.mp (List.nodup_append'.mp hn).1).1
  have hi : ∀ op ∈ s.preparePass.prepared, op ∉ s.preparePass.ctx.inflight := fun op hop hin => by
    rw [hc] at hin
    exact hdis hin (by simp [hop])
  have hsub : s.preparePass.ctx.submitAndTrackPrepared s.preparePass.prepared e =
      ({ s with ring, localIo, sharedIo, pendingIoRetry := []
                inflight := s.preparePass.prepared.reverse ++ s.inflight }, e) := by
    rw [submitAndTrackPrepared, if_neg hp, trackPreparedBatch_eq hn hi, hc, submitRing]
    simp [hopen, Ring.submit, Int.le_of_lt h.failed, setRing]
  have htake : s.preparePass.prepared.take 1 = [a] := by rw [hl]; rfl
  have htr : Tracked s { s with
      ring, localIo, sharedIo, pendingIoRetry := []
      inflight := s.preparePass.prepared.reverse ++ s.inflight } :=
    ⟨rfl, rfl, rfl, by rw [hc], by rw [hc]⟩
  refine ⟨a, l, _, hl, htr, ?_⟩
  rw [consumeIoTasks, if_neg (not_stopping_iff.mpr ⟨h.running, h.live⟩)]
  simp only [hfound, if_true, finishPass, hsub, h.failed, htake]
  unfold failedRemainder
  split
  · rfl
  · have hq : ∀ c : Context, c.pendingIoRetry = [] → { c with pendingIoRetry := [] } = c := by
      intro c hc
      cases c
      cases hc
      rfl
    exact (hq _ (failIoList_queues _ _ _).2.2).symm

-- All prepared operations but the first one stay in the inflight list.
theorem consumeIoTasks_failed_inflight (h : s.FailsSubmit e)
    (hd : (s.inflight ++ s.ioSources).Nodup) :
    (s.consumeIoTasks e).1.inflight = s.preparePass.prepared.tail.reverse ++ s.inflight := by
  have ⟨a, l, c, hp, hc, he⟩ := consumeIoTasks_failed h hd
  rw [← (preparePass_splits h.ring).list, hp] at hd
  have ⟨_, hn, hdis⟩ := List.nodup_append'.mp hd
  have ⟨hn, _, _⟩ := List.nodup_append'.mp hn
  have ⟨hal, _, hrem⟩ := List.nodup_append'.mp hn
  have ha : a ∉ l.reverse := by
    have := (List.nodup_cons.mp (List.nodup_reverse.mp hal)).1
    simpa using this
  have hr : ∀ op ∈ s.failedRemainder e, op ∉ l.reverse ++ s.inflight := fun op hop hin => by
    have hop : op ∈ s.preparePass.remaining := by
      unfold failedRemainder at hop
      split at hop
      · cases hop
      · exact hop
    rcases List.mem_append.mp hin with hin | hin
    · exact hrem (by simp only [List.mem_reverse, List.mem_cons] at hin ⊢; exact .inr hin) hop
    · exact hdis hin (by simp [hop])
  rw [he, failIoList_inflight, hc.inflight, hp, List.foldl_cons, List.reverse_cons, List.append_assoc,
    List.erase_append_right _ ha]
  simpa using foldl_erase_of_disjoint hr

theorem submit_failure_partition_iff (h : s.FailsSubmit e) (hd : (s.inflight ++ s.ioSources).Nodup) :
    s.Partition e (s.consumeIoTasks e).1 ↔ min s.room s.ioSources.length ≤ 1 := by
  have hlen : s.preparePass.prepared.length = min s.room s.ioSources.length := by
    simp [(preparePass_filled h.ring).prepared]
  have hin := consumeIoTasks_failed_inflight h hd
  have ⟨a, l, c, hp, hc, he⟩ := consumeIoTasks_failed h hd
  rw [← hlen, hp]
  refine ⟨fun hpart => ?_, fun hle => ?_⟩
  · have hi := hpart.inflight
    rw [hin, hp] at hi
    have := congrArg List.length hi
    simp at this ⊢
    exact this
  · obtain rfl : l = [] := by simpa using hle
    have ⟨hl, hs, _⟩ := failIoList_queues c (a :: s.failedRemainder e) e
    refine ⟨⟨(a :: s.failedRemainder e).reverse, ?_, ?_, fun op => ?_⟩, by rw [hin, hp]; rfl,
      by rw [he], ?_⟩
    · rw [he, failIoList_localCpu, hc.localCpu]
    · rw [hp]
      exact List.reverse_perm _
    · rw [he, failIoList_ops_eq, hc.ops]
      simp only [List.mem_reverse]
    · rw [he, hl, hs, hc.queues.1, hc.queues.2]
      exact (preparePass_splits h.ring).list

-- Two published operations, and a ring with room for both of them.
private def twoPublished : Context :=
  { ring := { entries := 4 }, sharedIo := [2, 1] }

-- Operation 2 stays in the inflight list and is not completed.
theorem not_partition_of_two : twoPublished.FailsSubmit (-ebusy) ∧
    (twoPublished.inflight ++ twoPublished.ioSources).Nodup ∧
    (twoPublished.consumeIoTasks (-ebusy)).1.localCpu = [1] ∧
    (twoPublished.consumeIoTasks (-ebusy)).1.inflight = [2] ∧
    ¬twoPublished.Partition (-ebusy) (twoPublished.consumeIoTasks (-ebusy)).1 :=
  ⟨by decide, by decide, by decide, by decide, fun h => absurd h.inflight (by decide)⟩

-- A ring that is full after the first of three operations.
private def onePrepared : Context :=
  { ring := { entries := 1 }, pendingIoRetry := [5], localIo := [6, 7], inflight := [3] }

theorem partition_of_one : onePrepared.FailsSubmit (-einval) ∧
    onePrepared.Partition (-einval) (onePrepared.consumeIoTasks (-einval)).1 :=
  ⟨by decide, (submit_failure_partition_iff (by decide) (by decide)).mpr (by decide)⟩

end Bnio.Uring.Context
