import Bnio.Uring.Agreement

namespace Bnio.Uring

namespace Context

variable {s s' : Context} {op : OpId} {ops new : List OpId} {answer : Int} {c : Channel} {cqe : Cqe}

-- `consume_io_tasks` prepares something and the submit for it fails.
structure FailsSubmit (s : Context) (answer : Int) : Prop where
  running : s.state = .running
  live : s.lifeState = false
  ring : s.ring.isOpen
  room : s.ring.sq.length < s.ring.entries
  sources : s.ioSources ≠ []
  failed : answer < 0

theorem failsSubmit_iff : s.FailsSubmit answer ↔ s.state = .running ∧ s.lifeState = false ∧
    s.ring.isOpen ∧ s.ring.sq.length < s.ring.entries ∧ s.ioSources ≠ [] ∧ answer < 0 :=
  ⟨fun ⟨h₁, h₂, h₃, h₄, h₅, h₆⟩ => ⟨h₁, h₂, h₃, h₄, h₅, h₆⟩,
    fun ⟨h₁, h₂, h₃, h₄, h₅, h₆⟩ => ⟨h₁, h₂, h₃, h₄, h₅, h₆⟩⟩

instance : Decidable (s.FailsSubmit answer) :=
  decidable_of_iff _ failsSubmit_iff.symm

theorem stopQueuedIo_keeps (s : Context) : Keeps s s.stopQueuedIo [] := by
  have ⟨f, h⟩ := stopQueuedIo_eq s
  rw [h]
  refine ⟨fun op => ?_, fun op => rfl⟩
  simp only [held, List.count_append, List.count_reverse, List.count_nil]
  omega

theorem preparePass_prepared_ne_nil (hp : s.preparePass.prepared ≠ []) :
    s.ring.isOpen ∧ s.ring.sq.length < s.ring.entries ∧ s.ioSources ≠ [] := by
  have h := preparePass_prepared_eq_nil.not.mp hp
  simp only [not_or, Bool.not_eq_false, room] at h
  exact ⟨h.1, by omega, h.2.2⟩

theorem not_stopping_iff :
    ¬(s.stopRequested || s.closingRequested) = true ↔ s.state = .running ∧ s.lifeState = false := by
  simp [stopRequested, closingRequested]

theorem consumeIoTasks_keeps (ha : s.Agree) (hok : ¬s.FailsSubmit answer) :
    Keeps s (s.consumeIoTasks answer).1 [] := by
  unfold consumeIoTasks
  split
  case isTrue => exact stopQueuedIo_keeps s
  case isFalse hrun =>
    have ⟨hstate, hlife⟩ := not_stopping_iff.mp hrun
    have hanswer : s.preparePass.prepared ≠ [] → 0 ≤ answer := fun hp => by
      have ⟨h₁, h₂, h₃⟩ := preparePass_prepared_ne_nil hp
      by_contra hneg
      exact hok ⟨hstate, hlife, h₁, h₂, h₃, by omega⟩
    have hkeep := (preparePass_of s).keeps (preparePass_retry s) ha hanswer
    simp only
    split
    case isTrue         => exact hkeep
    case isFalse hfound =>
      exact (preparePass_of s).keeps_of_idle (preparePass_idle (by simpa using hfound))

-- The pass pushes an operation to the CPU queue whose SQE stays in the SQ.
theorem finishPass_failed {p : Pass} (h : p.Of s) (hp : p.prepared ≠ []) (hf : answer < 0) :
    ∃ op, op ∈ (finishPass p answer).ring.named ∧ op ∈ (finishPass p answer).localCpu := by
  have ⟨op, l, hl⟩ := List.exists_cons_of_ne_nil hp
  have hopen : p.ctx.ring.isOpen := h.frame.isOpen ▸ h.opened hp
  have htrack : (p.ctx.trackPreparedBatch p.prepared).ring = p.ctx.ring := trackPreparedBatch_ring
  have hsub : p.ctx.submitAndTrackPrepared p.prepared answer =
      (p.ctx.trackPreparedBatch p.prepared, answer) := by
    rw [submitAndTrackPrepared, if_neg hp, submitRing, htrack, hopen]
    simp only [Bool.not_true, Bool.false_eq_true, if_false, Ring.submit, if_pos (Int.le_of_lt hf)]
    exact congrArg (·, answer) (by rw [← htrack]; rfl)
  have hnamed : op ∈ p.ctx.ring.named := by
    rw [← List.count_pos_iff, h.named, hl, List.count_cons_self]
    omega
  refine ⟨op, ?_⟩
  have htake : p.prepared.take 1 = [op] := by rw [hl]; rfl
  simp only [finishPass, hsub, if_pos hf, htake]
  split
  all_goals simp [failIoList_ring, failIoList_localCpu, htrack, hnamed]

theorem consumeIoTasks_of_failsSubmit (h : s.FailsSubmit answer) :
    (s.consumeIoTasks answer).2 ∧ ∃ op, op ∈ (s.consumeIoTasks answer).1.ring.named ∧
      op ∈ (s.consumeIoTasks answer).1.localCpu := by
  have hp : s.preparePass.prepared ≠ [] := by
    rw [Ne, preparePass_prepared_eq_nil]
    have := h.room
    simp only [h.ring, h.sources, room]
    simp
    omega
  have hfound : s.preparePass.foundWork := by
    by_contra hn
    exact hp (preparePass_idle (by simpa using hn)).prepared
  rw [consumeIoTasks, if_neg (not_stopping_iff.mpr ⟨h.running, h.live⟩)]
  simp only [hfound, if_true]
  exact ⟨trivial, finishPass_failed (preparePass_of s) hp h.failed⟩

theorem consumeIoTasks_held (answer : Int) (once : s.Once) (op : OpId) :
    (s.consumeIoTasks answer).1.held.count op = s.held.count op := by
  unfold consumeIoTasks
  split
  case isTrue => exact (stopQueuedIo_keeps s).held op
  case isFalse =>
    simp only
    split
    case isTrue         => exact (preparePass_of s).finish_held (preparePass_retry s) once op
    case isFalse hfound =>
      exact ((preparePass_of s).keeps_of_idle (preparePass_idle (by simpa using hfound))).held op

theorem setRing_held {ring : Ring} : (s.setRing ring).held = s.held :=
  rfl

theorem setRing_keeps {ring : Ring} (h : ∀ op, ring.named.count op = s.ring.named.count op) :
    Keeps s (s.setRing ring) [] :=
  ⟨fun _ => rfl, fun op => by simp [setRing, h op]⟩

-- `arm_wake_poll` gets to its submit.
def CanArm (s : Context) (c : Channel) : Prop :=
  s.ring.isOpen ∧ s.channelOpen c ∧ s.pollPending c = false ∧ s.state = .running ∧
    s.ring.sq.length < s.ring.entries

instance : Decidable (s.CanArm c) :=
  inferInstanceAs (Decidable (_ ∧ _))

-- What `arm_wake_poll` can do: leave the context as it is, leave its SQE in the SQ, or set the flag
-- after the kernel has consumed something.
inductive Arms (s : Context) (c : Channel) (answer : Int) : Context × Int → Prop
  | kept (r : Int) (h : r < 0 ∨ r = 1 ∧ s.pollPending c ∨ r = 0 ∧ s.stopRequested) :
    Arms s c answer (s, r)
  | queued (r : Int) (hr : r < 0) (hc : s.CanArm c) (ha : answer ≤ 0) :
    Arms s c answer (s.setRing (s.ring.queue [.wake c]), r)
  | armed (hc : s.CanArm c) (ha : 0 < answer) :
    Arms s c answer ({ s.setRing ((s.ring.queue [.wake c]).submit answer).1 with
      pollPending := Function.update s.pollPending c true }, 1)

theorem setRing_submitRing {r : Ring} (ho : r.isOpen) :
    (s.setRing r).submitRing answer = (s.setRing (r.submit answer).1, (r.submit answer).2) := by
  simp [submitRing, setRing, ho]

theorem submit_of_nonpos {r : Ring} (ha : answer ≤ 0) : r.submit answer = (r, answer) :=
  if_pos ha

theorem armWakePoll_arms : Arms s c answer (s.armWakePoll c answer) := by
  unfold armWakePoll
  split
  case isTrue => exact .kept _ (.inl (by decide))
  case isFalse hopen =>
    simp only [Bool.or_eq_true, Bool.not_eq_true', not_or, Bool.not_eq_false] at hopen
    split
    case isTrue hc => exact .kept _ (.inr (.inl ⟨rfl, hc⟩))
    case isFalse hc =>
      have hc := Bool.eq_false_iff.mpr hc
      split
      case isTrue hst => exact .kept _ (.inr (.inr ⟨rfl, by simpa [stopRequested] using hst⟩))
      case isFalse hrun =>
        unfold Ring.getSqe
        split
        case h_1 => exact .kept _ (.inl (by decide))
        case h_2 ring hring =>
          have ⟨hroom, hr⟩ := Option.ite_none_right_eq_some.mp hring
          have hcan : s.CanArm c := ⟨hopen.1, hopen.2, hc, not_not.mp hrun, hroom⟩
          cases Option.some.inj hr
          rw [setRing_submitRing (by exact hopen.1)]
          rcases Int.lt_trichotomy answer 0 with ha | ha | ha
          · rw [submit_of_nonpos (by omega)]
            simp only [if_pos ha]
            exact .queued _ ha hcan (by omega)
          · rw [submit_of_nonpos (by omega)]
            simp only [ha, Int.lt_irrefl, if_false, if_true]
            exact .queued _ (by decide) hcan (by omega)
          · have hpos : 0 < ((s.ring.queue [.wake c]).submit answer).2 := by
              rw [Ring.submit, if_neg (by omega)]
              simp only [Ring.queue, List.length_take, List.length_append, List.length_singleton]
              omega
            simp only
            rw [if_neg (by omega), if_neg (by omega)]
            exact .armed hcan ha

theorem armWakePoll_eq (s : Context) (c : Channel) (answer : Int) :
    ∃ ring pollPending, (s.armWakePoll c answer).1 = { s with ring, pollPending } := by
  have harm : Arms s c answer (s.armWakePoll c answer) := armWakePoll_arms
  generalize s.armWakePoll c answer = p at harm ⊢
  cases harm <;> exact ⟨_, _, rfl⟩

theorem armWakePoll_taken (c : Channel) (answer : Int) :
    (s.armWakePoll c answer).1.taken = s.taken := by
  have ⟨_, _, he⟩ := armWakePoll_eq s c answer
  rw [he]

theorem armWakePoll_cqeTasks (c : Channel) (answer : Int) :
    (s.armWakePoll c answer).1.cqeTasks = s.cqeTasks := by
  have ⟨_, _, he⟩ := armWakePoll_eq s c answer
  rw [he]

theorem queue_wake_named {r : Ring} (op : OpId) :
    (r.queue [.wake c]).named.count op = r.named.count op := by
  simp [Ring.named, Ring.queue]

theorem Arms.keeps {p : Context × Int} (h : Arms s c answer p) : Keeps s p.1 [] := by
  cases h
  case kept   => exact .refl
  case queued => exact setRing_keeps queue_wake_named
  case armed  =>
    have hk : Keeps s (s.setRing ((s.ring.queue [.wake c]).submit answer).1) [] :=
      setRing_keeps fun op => (Ring.submit_named ..).trans (queue_wake_named op)
    exact ⟨hk.held, hk.balance⟩

theorem Arms.batch {p : Context × Int} (h : Arms s c answer p) : p.1.batch = s.batch := by
  cases h <;> rfl

theorem Arms.inflight {p : Context × Int} (h : Arms s c answer p) : p.1.inflight = s.inflight := by
  cases h <;> rfl

theorem armWakePoll_keeps : Keeps s (s.armWakePoll c answer).1 [] :=
  armWakePoll_arms.keeps

-- The CQE of an operation is collected: its result is stored and it is not inflight any more.
def collected (s : Context) (op : OpId) (cqe : Cqe) : Context := { s with
  ops := Function.update s.ops op { s.ops op with result := cqe.result, flags := cqe.flags }
  inflight := s.inflight.erase op }

theorem enqueueCqeTask_rearm (h : cqe.result = -eagain ∧ (s.ops op).rearmOnEagain) :
    s.enqueueCqeTask op cqe = (s.collected op cqe).pushIo op := by
  simp [enqueueCqeTask, collected, removeInflight, setOp, h]

theorem enqueueCqeTask_deliver (h : ¬(cqe.result = -eagain ∧ (s.ops op).rearmOnEagain)) :
    s.enqueueCqeTask op cqe =
      { s.collected op cqe with cqeTasks := op :: s.cqeTasks } := by
  simp only [enqueueCqeTask, removeInflight, setOp, Function.update_self, Operation.rearmOnEagain_mk]
  rw [if_neg h]
  rfl

theorem enqueueCqeTask_ring : (s.enqueueCqeTask op cqe).ring = s.ring := by
  by_cases h : cqe.result = -eagain ∧ (s.ops op).rearmOnEagain
  case pos => rw [enqueueCqeTask_rearm h]; rfl
  case neg => rw [enqueueCqeTask_deliver h]; rfl

theorem enqueueCqeTask_pollPending : (s.enqueueCqeTask op cqe).pollPending = s.pollPending := by
  by_cases h : cqe.result = -eagain ∧ (s.ops op).rearmOnEagain
  case pos => rw [enqueueCqeTask_rearm h]; rfl
  case neg => rw [enqueueCqeTask_deliver h]; rfl

theorem enqueueCqeTask_inflight :
    (s.enqueueCqeTask op cqe).inflight = s.inflight.erase op := by
  by_cases h : cqe.result = -eagain ∧ (s.ops op).rearmOnEagain
  case pos => rw [enqueueCqeTask_rearm h]; rfl
  case neg => rw [enqueueCqeTask_deliver h]; rfl

theorem enqueueCqeTask_held (h : op ∈ s.inflight) (o : OpId) :
    (s.enqueueCqeTask op cqe).held.count o = s.held.count o := by
  have hc := count_erase_add h o
  by_cases h : cqe.result = -eagain ∧ (s.ops op).rearmOnEagain
  case pos =>
    rw [enqueueCqeTask_rearm h]
    simp only [held, collected, pushIo, List.count_append, List.count_cons, beq_iff_eq]
    omega
  case neg =>
    rw [enqueueCqeTask_deliver h]
    simp only [held, collected, List.count_append, List.count_cons, beq_iff_eq]
    omega

theorem advance_named {cq : List Cqe} (hcq : s.ring.cq = cqe :: cq) (o : OpId) :
    s.ring.named.count o = s.ring.advance.named.count o + (names [cqe.userData]).count o := by
  have hn : names (cqe.userData :: cq.map Cqe.userData) =
      names [cqe.userData] ++ names (cq.map Cqe.userData) := names_append (l := [_])
  simp only [Ring.named, Ring.advance, hcq, List.map_cons, hn, List.tail_cons, List.count_append]
  omega

-- Collecting the oldest completion.
theorem collectCqe_keeps {cq : List Cqe} (answer : Int) (ha : s.Agree) (hcq : s.ring.cq = cqe :: cq) :
    Keeps s ((s.setRing s.ring.advance).collectCqe cqe answer) [] := by
  have hnamed := advance_named hcq
  unfold collectCqe
  split
  case h_1 c hc =>
    simp only [hc, names_wake, names_nil, List.count_nil, Nat.add_zero] at hnamed
    have hk : Keeps s { s.setRing s.ring.advance with
        pollPending := Function.update s.pollPending c false } [] :=
      ⟨fun _ => rfl, fun op => by simp [setRing, hnamed op]⟩
    exact hk.trans armWakePoll_keeps
  case h_2 op hop =>
    have hin : op ∈ s.inflight := ha.mem_inflight <| by simp [Ring.named, hcq, hop]
    refine ⟨fun o => ?_, fun o => ?_⟩
    · rw [enqueueCqeTask_held (s := s.setRing s.ring.advance) hin, setRing_held, List.count_nil,
        Nat.add_zero]
    · have hc := count_erase_add hin o
      have hn := hnamed o
      simp only [hop, names_operation, names_nil, List.count_cons, List.count_nil, beq_iff_eq] at hn
      rw [enqueueCqeTask_ring, enqueueCqeTask_inflight]
      simp only [setRing]
      omega

theorem dispatchCqeTasks_keeps : Keeps s s.dispatchCqeTasks [] := by
  have hfold : ∀ (l acc : List OpId), l.foldl (fun l op => op :: l) acc = l.reverse ++ acc := by
    intro l
    induction l
    case nil         => simp
    case cons a l hi => simp [hi]
  unfold dispatchCqeTasks
  simp only [pushCpuList_eq, hfold]
  split
  case isTrue =>
    refine ⟨fun op => ?_, fun op => rfl⟩
    simp only [held, List.count_append, List.count_reverse, List.count_nil]
    omega
  case isFalse =>
    split
    case isTrue =>
      split
      all_goals
        refine ⟨fun op => ?_, fun op => rfl⟩
        simp only [held, List.count_append, List.count_reverse, List.count_nil]
        omega
    case isFalse =>
      refine ⟨fun op => ?_, fun op => rfl⟩
      simp only [held, List.count_append, List.count_reverse, List.count_nil]
      omega

theorem dispatchCqeTasks_eq (s : Context) : ∃ localCpu sharedCpu localTaskBudget,
    s.dispatchCqeTasks = { s with cqeTasks := [], localCpu, sharedCpu, localTaskBudget } := by
  unfold dispatchCqeTasks
  simp only [pushCpuList_eq]
  repeat' split
  all_goals exact ⟨_, _, _, rfl⟩

theorem fetchCpuTask_eq (s : Context) : ∃ localCpu sharedCpu batch,
    s.fetchCpuTask = { s with localCpu, sharedCpu, batch } := by
  unfold fetchCpuTask
  split <;> exact ⟨_, _, _, rfl⟩

theorem foldl_publishLocalIo_eq (s : Context) (l : List (OpId × OperationClass)) : ∃ ops localIo,
    l.foldl publishLocalIo s = { s with ops, localIo } := by
  induction l generalizing s
  case nil         => exact ⟨_, _, rfl⟩
  case cons p l hi =>
    have ⟨f, q, h⟩ := hi (s.publishLocalIo p)
    exact ⟨f, q, h⟩

theorem executeNext_eq (s : Context) (i : Input) : ∃ ops localIo localCpu batch executed,
    s.executeNext i = { s with ops, localIo, localCpu, batch, executed } := by
  unfold executeNext
  split
  case h_1 => exact ⟨_, _, _, _, _, rfl⟩
  case h_2 op l h =>
    have ⟨f, q, hq⟩ := foldl_publishLocalIo_eq
      (({ s with batch := l }.execute op).pushCpuList i.publishedCpu) i.publishedIo
    simp only [hq]
    rw [pushCpuList_eq]
    exact ⟨_, _, _, _, _, rfl⟩

theorem abortInflightIo_eq (s : Context) : ∃ ops localCpu, s.abortInflightIo = { s with
    ops, localCpu, inflight := [], pendingIoRetry := [], localIo := [], sharedIo := [] } := by
  have ⟨_, h⟩ := foldl_stopOperation_eq { s with inflight := [] } s.inflight
  have ⟨_, h'⟩ := stopQueuedIo_eq (s.inflight.foldl stopOperation { s with inflight := [] })
  rw [abortInflightIo, h', h]
  exact ⟨_, _, rfl⟩

theorem collectCqe_batch : (s.collectCqe cqe answer).batch = s.batch := by
  unfold collectCqe
  split
  case h_1 => exact armWakePoll_arms.batch
  case h_2 =>
    unfold enqueueCqeTask
    simp only
    split <;> rfl

theorem armWakePoll_batch : (s.armWakePoll c answer).1.batch = s.batch :=
  armWakePoll_arms.batch

theorem armWakePoll_inflight : (s.armWakePoll c answer).1.inflight = s.inflight :=
  armWakePoll_arms.inflight

theorem collectCqe_inflight_eq_nil (hi : s.inflight = []) {r : Ring} :
    ((s.setRing r).collectCqe cqe answer).inflight = [] := by
  unfold collectCqe
  split
  case h_1 => exact armWakePoll_inflight.trans hi
  case h_2 =>
    rw [enqueueCqeTask_inflight]
    simp [setRing, hi]

theorem fetchCpuTask_inflight : s.fetchCpuTask.inflight = s.inflight := by
  obtain ⟨_, _, _, h⟩ := s.fetchCpuTask_eq
  rw [h]

theorem consumeIoTasks_inflight (h : (s.consumeIoTasks answer).2 = false) :
    (s.consumeIoTasks answer).1.inflight = s.inflight := by
  unfold consumeIoTasks at *
  split at h
  case isTrue hstop =>
    have ⟨_, hq⟩ := stopQueuedIo_eq s
    simp only [hstop, if_true, hq]
  case isFalse hstop =>
    simp only [hstop] at h ⊢
    split at h
    case isTrue          => cases h
    case isFalse hfound  =>
      rw [if_neg hfound]
      exact (preparePass_of s).inflight

theorem fetchCpuTask_keeps (hb : s.batch = []) : Keeps s s.fetchCpuTask [] := by
  unfold fetchCpuTask
  split
  all_goals
    refine ⟨fun op => ?_, fun op => rfl⟩
    simp only [held, hb, List.count_append, List.count_reverse, List.count_nil]
    omega

theorem pushCpuList_keeps (s : Context) (ops : List OpId) : Keeps s (s.pushCpuList ops) ops := by
  rw [pushCpuList_eq]
  refine ⟨fun op => ?_, fun op => rfl⟩
  simp only [held, List.count_append, List.count_reverse]
  omega

theorem publishLocalIo_keeps (l : List (OpId × OperationClass)) :
    Keeps s (l.foldl publishLocalIo s) (l.map Prod.fst) := by
  induction l generalizing s
  case nil         => exact .refl
  case cons p l hi =>
    have h : Keeps s (s.publishLocalIo p) [p.1] := by
      refine ⟨fun op => ?_, fun op => rfl⟩
      simp only [held, publishLocalIo, pushIo, setOp, List.count_append, List.count_cons,
        List.count_nil, beq_iff_eq]
      omega
    exact h.trans hi

theorem executeNext_keeps {i : Input} (hb : s.batch ≠ []) :
    Keeps s (s.executeNext i) (i.publishedCpu ++ i.publishedIo.map Prod.fst) := by
  unfold executeNext
  split
  case h_1 h => exact absurd h hb
  case h_2 op l h =>
    have hx : Keeps s ({ s with batch := l }.execute op) [] := by
      refine ⟨fun o => ?_, fun o => rfl⟩
      simp only [held, execute, h, List.map_cons, List.count_append, List.count_cons,
        List.count_nil, beq_iff_eq]
      omega
    exact (hx.trans (pushCpuList_keeps ..)).trans (publishLocalIo_keeps _)

theorem abortInflightIo_held (op : OpId) : s.abortInflightIo.held.count op = s.held.count op := by
  have ⟨_, h⟩ := foldl_stopOperation_eq { s with inflight := [] } s.inflight
  have hk := (stopQueuedIo_keeps (s.inflight.foldl stopOperation { s with inflight := [] })).held op
  rw [abortInflightIo, hk, h]
  simp only [held, List.count_append, List.count_reverse, List.count_nil]
  omega

theorem abortInflightIo_keeps (hi : s.inflight = []) : Keeps s s.abortInflightIo [] := by
  have he : s.abortInflightIo = s.stopQueuedIo := by
    unfold abortInflightIo
    rw [hi, List.foldl_nil]
    exact congrArg stopQueuedIo (by rw [← hi])
  exact he ▸ stopQueuedIo_keeps s

end Context
end Bnio.Uring
