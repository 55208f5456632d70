import Bnio.Uring.Delivery

namespace Bnio.Uring

-- Nothing waits in the SQ, and the flag of a channel tells exactly whether its poll is outstanding.
structure Ring.Polled (r : Ring) (pending : Channel → Bool) : Prop where
  sq : r.sq = []
  polls : ∀ c, (r.kernel ++ r.cq.map Cqe.userData).count (.wake c) = if pending c then 1 else 0

namespace Ring

variable {r : Ring} {pending : Channel → Bool} {answer : Int} {c : Channel} {cqe : Cqe}

theorem submit_all (h : (r.sq.length : Int) ≤ answer) (hr : r.sq ≠ []) :
    (r.submit answer).1 = { r with sq := [], kernel := r.kernel ++ r.sq } := by
  have hlen := List.length_pos_iff.mpr hr
  rw [Ring.submit, if_neg (by omega)]
  simp only [List.drop_of_length_le (show r.sq.length ≤ answer.toNat by omega),
    List.take_of_length_le (show r.sq.length ≤ answer.toNat by omega)]

theorem Polled.arm (h : r.Polled pending) (hc : pending c = false) (ha : 1 ≤ answer) :
    ((r.queue [.wake c]).submit answer).1.Polled (Function.update pending c true) := by
  rw [submit_all (by simpa [queue, h.sq] using ha) (by simp [queue])]
  refine ⟨rfl, fun c' => ?_⟩
  have hp := h.polls c'
  simp only [queue, h.sq, List.nil_append, List.count_append, List.count_singleton] at hp ⊢
  by_cases hcc : c = c'
  case pos =>
    subst hcc
    simp only [hc, Bool.false_eq_true, if_false] at hp
    simp
    omega
  case neg =>
    simp only [Function.update_of_ne (Ne.symm hcc), ← hp]
    simp [hcc]

theorem Polled.submit_operations {ops : List OpId} (h : r.Polled pending) (hn : ops ≠ [])
    (ha : (ops.length : Int) ≤ answer) :
    ((r.queue (ops.map .operation)).submit answer).1.Polled pending := by
  rw [submit_all (by simpa [queue, h.sq] using ha) (by simpa [queue] using fun _ => hn)]
  refine ⟨rfl, fun c => ?_⟩
  have hz : (ops.map UserData.operation).count (.wake c) = 0 :=
    List.count_eq_zero_of_not_mem (by simp)
  rw [← h.polls c]
  simp only [queue, h.sq, List.nil_append, List.count_append, hz, Nat.add_zero]

theorem Polled.advance_wake {cq : List Cqe} (h : r.Polled pending) (hcq : r.cq = cqe :: cq)
    (hc : cqe.userData = .wake c) : r.advance.Polled (Function.update pending c false) := by
  refine ⟨h.sq, fun c' => ?_⟩
  have hp := h.polls c'
  simp only [hcq, List.map_cons, hc, List.count_append, List.count_cons, Ring.advance,
    List.tail_cons] at hp ⊢
  by_cases hcc : c = c'
  case pos =>
    subst hcc
    simp only [beq_self_eq_true, if_true, Function.update_self, Bool.false_eq_true, if_false] at hp ⊢
    split at hp <;> omega
  case neg =>
    simp only [Function.update_of_ne (Ne.symm hcc), ← hp]
    simp [hcc]

theorem Polled.advance_operation {cq : List Cqe} {op : OpId} (h : r.Polled pending)
    (hcq : r.cq = cqe :: cq) (hop : cqe.userData = .operation op) : r.advance.Polled pending := by
  refine ⟨h.sq, fun c => ?_⟩
  rw [← h.polls c]
  simp [hcq, hop, Ring.advance]

theorem Polled.complete {data : UserData} {result : Int} {flags : Nat} (h : r.Polled pending)
    (hd : data ∈ r.kernel) :
    ({ r with kernel := r.kernel.erase data
              cq := r.cq ++ [{ userData := data, result, flags }] } : Ring).Polled pending := by
  refine ⟨h.sq, fun c => ?_⟩
  rw [← h.polls c]
  simp only [List.map_append, List.map_cons, List.map_nil, List.count_append, List.count_singleton]
  by_cases hw : data = .wake c
  case pos =>
    subst hw
    have := List.count_pos_iff.mpr hd
    rw [List.count_erase_self]
    simp
    omega
  case neg =>
    rw [List.count_erase_of_ne (Ne.symm hw)]
    simp [hw]

end Ring

namespace Context

variable {s : Context} {answer : Int} {c : Channel} {cqe : Cqe}

-- The number of SQEs in the SQ when `arm_wake_poll` submits, and 0 when it does not.
def armSqes (s : Context) (c : Channel) : Nat :=
  if s.CanArm c then s.ring.sq.length + 1 else 0

-- The same for `consume_io_tasks`.
def ioSqes (s : Context) : Nat :=
  let n := min s.room s.ioSources.length
  if s.state = .running ∧ s.lifeState = false ∧ s.ring.isOpen ∧ n ≠ 0 then s.ring.sq.length + n
  else 0

-- And for the collection of a CQE.
def collectSqes (s : Context) (cqe : Cqe) : Nat :=
  match cqe.userData with
  | .wake c      => { s with pollPending := Function.update s.pollPending c false }.armSqes c
  | .operation _ => 0

def Polled (s : Context) : Prop :=
  s.ring.Polled s.pollPending

theorem armSqes_pos (hc : s.CanArm c) (ha : s.armSqes c ≠ 0 → (s.armSqes c : Int) ≤ answer) :
    1 ≤ answer := by
  rw [armSqes, if_pos hc] at ha
  have := ha (by omega)
  omega

theorem armWakePoll_polled (hp : s.Polled)
    (ha : s.armSqes c ≠ 0 → (s.armSqes c : Int) ≤ answer) : (s.armWakePoll c answer).1.Polled := by
  have h : Arms s c answer (s.armWakePoll c answer) := armWakePoll_arms
  generalize s.armWakePoll c answer = p at h
  cases h
  case kept          => exact hp
  case queued _ hc h => exact absurd (armSqes_pos hc ha) (by omega)
  case armed hc _    => exact hp.arm hc.2.2.1 (armSqes_pos hc ha)

theorem collectCqe_polled {cq : List Cqe} (hp : s.Polled) (hcq : s.ring.cq = cqe :: cq)
    (ha : (s.setRing s.ring.advance).collectSqes cqe ≠ 0 →
      ((s.setRing s.ring.advance).collectSqes cqe : Int) ≤ answer) :
    ((s.setRing s.ring.advance).collectCqe cqe answer).Polled := by
  unfold collectCqe
  split
  case h_1 c hc =>
    simp only [collectSqes, hc] at ha
    exact armWakePoll_polled (hp.advance_wake hcq hc) ha
  case h_2 op hop =>
    rw [Polled, enqueueCqeTask_ring, enqueueCqeTask_pollPending]
    exact hp.advance_operation hcq hop

theorem failsSubmit_ioSqes (h : s.FailsSubmit answer) : s.ioSqes ≠ 0 := by
  have h₁ := h.room
  have h₂ := List.length_pos_iff.mpr h.sources
  have hn : min s.room s.ioSources.length ≠ 0 := by
    unfold room
    omega
  rw [ioSqes, if_pos ⟨h.running, h.live, h.ring, hn⟩]
  omega

-- The pass submits what it has prepared, if anything.
theorem finishPass_ring {p : Pass} (h : p.Of s) (ha : p.prepared ≠ [] → 0 ≤ answer) :
    (finishPass p answer).ring =
      if p.prepared = [] then p.ctx.ring else (p.ctx.ring.submit answer).1 := by
  unfold finishPass submitAndTrackPrepared
  by_cases hp : p.prepared = []
  case pos => simp [hp]
  case neg =>
    have hopen : p.ctx.ring.isOpen := h.frame.isOpen ▸ h.opened hp
    have htrack : (p.ctx.trackPreparedBatch p.prepared).ring = p.ctx.ring := trackPreparedBatch_ring
    have hres : ¬(p.ctx.ring.submit answer).2 < 0 := by
      have := ha hp
      unfold Ring.submit
      split
      all_goals simp
      omega
    simp only [if_neg hp, submitRing, htrack, hopen, Bool.not_true, Bool.false_eq_true, if_false,
      hres, setRing]

-- The ring after the preparations of a pass.
theorem Pass.Of.ring {p : Pass} (h : p.Of s) :
    p.ctx.ring = s.ring.queue (p.prepared.reverse.map .operation) :=
  Ring.ext h.frame.isOpen h.frame.entries h.sq h.kernel h.frame.cq

theorem consumeIoTasks_polled (hp : s.Polled)
    (ha : s.ioSqes ≠ 0 → (s.ioSqes : Int) ≤ answer) : (s.consumeIoTasks answer).1.Polled := by
  have hpoll : (s.consumeIoTasks answer).1.pollPending = s.pollPending :=
    (consumeIoTasks_frame ..).pollPending
  rw [Polled, hpoll]
  have hof := preparePass_of s
  unfold consumeIoTasks
  split
  case isTrue =>
    have ⟨_, hq⟩ := stopQueuedIo_eq s
    rw [hq]
    exact hp
  case isFalse hrun =>
    have ⟨hstate, hlife⟩ := not_stopping_iff.mp hrun
    have hring : s.preparePass.ctx.ring =
        s.ring.queue (s.preparePass.prepared.reverse.map .operation) := hof.ring
    -- Everything that is prepared is consumed at once.
    have hall : s.preparePass.prepared ≠ [] → (s.preparePass.prepared.length : Int) ≤ answer := by
      intro hn
      have hlen : s.preparePass.prepared.length = min s.room s.ioSources.length := by
        rw [(preparePass_filled (preparePass_prepared_ne_nil hn).1).prepared]
        simp
      have hne : min s.room s.ioSources.length ≠ 0 := by
        rw [← hlen]
        exact fun h => hn (List.eq_nil_of_length_eq_zero h)
      rw [ioSqes, if_pos ⟨hstate, hlife, (preparePass_prepared_ne_nil hn).1, hne⟩, hp.sq] at ha
      have := ha (by omega)
      simp only [List.length_nil] at this
      omega
    have hcase : ∀ ring, (ring = if s.preparePass.prepared = [] then s.preparePass.ctx.ring
        else (s.preparePass.ctx.ring.submit answer).1) → ring.Polled s.pollPending := by
      rintro _ rfl
      split
      case isTrue hnil =>
        rw [hring, hnil]
        exact ⟨by simpa [Ring.queue] using hp.sq, hp.polls⟩
      case isFalse hn =>
        rw [hring]
        exact hp.submit_operations (by simpa using hn) (by simpa using hall hn)
    simp only
    split
    case isTrue  =>
      exact hcase _ (finishPass_ring hof fun hn => Int.le_trans (Int.natCast_nonneg _) (hall hn))
    case isFalse hfound =>
      exact hcase _ (if_pos (preparePass_idle (by simpa using hfound)).prepared).symm

end Context

namespace Worker

variable {w w' : Worker} {i : Input} {a : Action} {as : List Action}

-- The number of SQEs in the SQ when the next step of the worker calls `io_uring_submit`, and 0 when
-- it does not call it.
def sqes (w : Worker) : Nat :=
  match w.pc with
  | .enter c        => w.ctx.armSqes c
  | .rearm _        => w.ctx.armSqes .shared
  | .rearmLocal ..  => w.ctx.armSqes .worker
  | .io _           => w.ctx.ioSqes
  | .collect _ left =>
    match w.ctx.ring.isOpen, left, w.ctx.ring.cq with
    | true, _ + 1, cqe :: _ => (w.ctx.setRing w.ctx.ring.advance).collectSqes cqe
    | _, _, _               => 0
  | _               => 0

-- Every submit consumes the whole SQ.
def SubmitsAll (w : Worker) : Action → Prop
  | .work i => w.sqes ≠ 0 → w.sqes ≤ i.answer
  | _       => True

instance : Decidable (w.SubmitsAll a) :=
  match a with
  | .work i => inferInstanceAs (Decidable (w.sqes ≠ 0 → w.sqes ≤ i.answer))
  | .publishIo .. | .publishCpu _ | .takeIo | .takeCpu | .complete .. | .stop | .close => .isTrue trivial
  | .drainIo | .drainCpu | .run _ | .queueExit => .isTrue trivial

-- What the worker knows on its way to the wait.
def Waits (w : Worker) : Prop :=
  match w.pc with
  | .rearmLocal _ r => r = 1 ∧ w.ctx.pollPending .shared ∨ r = 0 ∧ w.ctx.stopRequested
  | .block _        => (∀ c, w.ctx.pollPending c) ∨ w.ctx.stopRequested ∧ w.ctx.inflight ≠ []
  | _               => True

theorem Moves.polled (h : Moves w w') (hp : w.ctx.Polled) : w'.ctx.Polled := by
  have ⟨_, _, he⟩ := h.ctx
  exact he ▸ hp

theorem Moves.waits (h : Moves w w') : w'.Waits := by
  have hp := h.plain
  unfold Waits
  generalize w'.pc = pc at hp
  cases pc
  case rearmLocal => cases hp
  case block      => cases hp
  all_goals trivial

theorem Ends.polled : Ends w w' → w.ctx.Polled → w'.ctx.Polled
  | .moves h _, hp => h.polled hp
  | .exec .., hp | .rearmLocal .., hp | .block .., hp | .abort .., hp => hp

theorem Leaf.polled {pc : Pc} {new : List OpId} {s : Context} (hp : w.pc = pc)
    (h : Leaf w.ctx i pc new s) (hpoll : w.ctx.Polled) (ha : w.SubmitsAll (.work i)) :
    s.Polled := by
  unfold SubmitsAll sqes at ha
  cases h
  case skip                => exact hpoll
  case enter               => simp only [hp] at ha; exact Context.armWakePoll_polled hpoll ha
  case rearm               => simp only [hp] at ha; exact Context.armWakePoll_polled hpoll ha
  case rearmLocal          => simp only [hp] at ha; exact Context.armWakePoll_polled hpoll ha
  case collect ho hcq      =>
    simp only [hp, ho, hcq] at ha
    exact Context.collectCqe_polled hpoll hcq ha
  case dispatch            =>
    have ⟨_, _, _, h⟩ := Context.dispatchCqeTasks_eq w.ctx
    exact h ▸ hpoll
  case fetchCpu            =>
    obtain ⟨_, _, _, h⟩ := Context.fetchCpuTask_eq w.ctx
    exact h ▸ hpoll
  case exec                =>
    have ⟨_, _, _, _, _, h⟩ := Context.executeNext_eq w.ctx i
    exact h ▸ hpoll
  case timers              => rw [Context.pushCpuList_eq]; exact hpoll
  case fetch               => rw [Context.pushCpuList_eq]; exact hpoll
  case io                  => simp only [hp] at ha; exact Context.consumeIoTasks_polled hpoll ha
  case abort               =>
    have ⟨_, _, h⟩ := Context.abortInflightIo_eq w.ctx
    exact h ▸ hpoll

theorem Steps.polled (h : Steps w i w') (hp : w.ctx.Polled) (ha : w.SubmitsAll (.work i)) :
    w'.ctx.Polled := by
  have ⟨hpc, leaf, _, ends⟩ := h
  exact ends.polled (Leaf.polled hpc leaf hp ha)

-- The result of `arm_wake_poll` tells whether the poll is pending or the context is stopping.
theorem armWakePoll_result {s : Context} {c : Channel} {answer : Int}
    (h : ¬(s.armWakePoll c answer).2 < 0) :
    (s.armWakePoll c answer).2 = 1 ∧ (s.armWakePoll c answer).1.pollPending c ∨
      (s.armWakePoll c answer).2 = 0 ∧ (s.armWakePoll c answer).1.stopRequested := by
  have ha : Context.Arms s c answer (s.armWakePoll c answer) := Context.armWakePoll_arms
  generalize s.armWakePoll c answer = p at h ha
  cases ha
  case kept hk       => exact hk.resolve_left h
  case queued hr _ _ => exact absurd hr h
  case armed         => exact .inl ⟨rfl, Function.update_self ..⟩

theorem armWakePoll_others (s : Context) (c c' : Channel) (answer : Int) :
    (s.pollPending c' → (s.armWakePoll c answer).1.pollPending c') ∧
      (s.armWakePoll c answer).1.stopRequested = s.stopRequested := by
  have ha : Context.Arms s c answer (s.armWakePoll c answer) := Context.armWakePoll_arms
  generalize s.armWakePoll c answer = p at ha
  cases ha
  case kept   => exact ⟨id, rfl⟩
  case queued => exact ⟨id, rfl⟩
  case armed  =>
    refine ⟨fun h => ?_, rfl⟩
    by_cases hc : c' = c
    case pos => subst hc; exact Function.update_self ..
    case neg => exact (Function.update_of_ne hc ..).trans h

theorem afterRearm_waits {t : Bool} {r r' : Int} (hpc : w.pc = .rearmLocal t r)
    (h : r = 1 ∧ w.ctx.pollPending .shared ∨ r = 0 ∧ w.ctx.stopRequested)
    (h' : ¬r' < 0 → r' = 1 ∧ w.ctx.pollPending .worker ∨ r' = 0 ∧ w.ctx.stopRequested) :
    (w.afterRearm t r r').Waits := by
  unfold afterRearm
  split
  case isTrue => exact (rearmFailed_moves (by rw [hpc]; rfl)).waits
  case isFalse hr =>
    split
    case isTrue => exact toFinish_moves.waits
    case isFalse hfin =>
      -- The wait is entered: both polls are pending, or something inflight ends it.
      have hstop : w.ctx.stopRequested → (r = 0 ∨ r' = 0) →
          w.ctx.stopRequested ∧ w.ctx.inflight ≠ [] := fun hs hz =>
        ⟨hs, fun hi => hfin ⟨hz, by simp [Context.shouldFinish, hs, hi]⟩⟩
      obtain ⟨hr₁, hp₁⟩ | ⟨hr₁, hs₁⟩ := h
      · obtain ⟨hr₂, hp₂⟩ | ⟨hr₂, hs₂⟩ := h' hr
        · exact .inl fun c => by cases c <;> assumption
        · exact .inr (hstop hs₂ (.inr hr₂))
      · exact .inr (hstop hs₁ (.inl hr₁))

theorem workStep_waits (hw : Working w.pc) (hs : w.Settled) (hwait : w.Waits) :
    (w.workStep i).Waits := by
  have hsteps : Steps w i (w.workStep i) := workStep_steps hw hs
  by_cases hr : ∃ t, w.pc = .rearm t
  case pos =>
    have ⟨t, hp⟩ := hr
    unfold workStep
    simp only [hp]
    split
    case isTrue     => exact (rearmFailed_moves rfl).waits
    case isFalse hn => exact armWakePoll_result hn
  case neg =>
    by_cases hl : ∃ t r, w.pc = .rearmLocal t r
    case pos =>
      have ⟨t, r, hp⟩ := hl
      simp only [Waits, hp] at hwait
      unfold workStep
      simp only [hp]
      have ⟨hpoll, hstop⟩ := armWakePoll_others w.ctx .worker .shared i.answer
      exact afterRearm_waits rfl (hwait.imp (.imp_right hpoll) (.imp_right hstop.trans))
        armWakePoll_result
    case neg =>
      generalize w.workStep i = w' at hsteps ⊢
      have ⟨_, _, _, ends⟩ := hsteps
      cases ends
      case moves h            => exact h.waits
      case exec               => trivial
      case rearmLocal t r h _ => exact absurd ⟨t, h⟩ hr
      case block t r h _      => exact absurd ⟨t, r, h⟩ hl
      case abort              => trivial

theorem outside_waits (h : step w a = some w') (hw : ∀ i, a ≠ .work i)
    (hl : w'.pc.stage = .looping) (hp : w.ctx.Polled) (hwait : w.Waits) :
    w'.ctx.Polled ∧ w'.Waits := by
  cases a
  case work i => exact absurd rfl (hw i)
  case complete data result flags =>
    obtain ⟨hg, he⟩ := Option.ite_none_right_eq_some.mp h
    exact Option.some.inj he ▸ ⟨Ring.Polled.complete hp hg.2, hwait⟩
  case stop =>
    simp only [step] at h
    split at h
    case isFalse => exact Option.some.inj h ▸ ⟨hp, hwait⟩
    case isTrue hrun =>
      have hr : w.ctx.stopRequested = false := by simp [Context.stopRequested, hrun]
      refine Option.some.inj h ▸ ⟨hp, ?_⟩
      unfold Waits at *
      split at hwait
      case h_1 _ r hpc =>
        simp only [hpc]
        exact hwait.imp_right fun h => absurd h.2 (by simp [hr])
      case h_2 _ hpc   =>
        simp only [hpc]
        exact hwait.imp_right fun h => absurd h.1 (by simp [hr])
      case h_3         => trivial
  case run enabled =>
    obtain ⟨hg, he⟩ := Option.ite_none_right_eq_some.mp h
    split at he
    all_goals exact Option.some.inj he ▸ ⟨hp, trivial⟩
  case queueExit =>
    simp only [step] at h
    split at h
    all_goals cases h
    all_goals cases hl
  all_goals
    simp only [step] at h
    repeat' split at h
    all_goals cases h
    all_goals exact ⟨hp, hwait⟩

-- Before `finish` the worker agrees with the kernel about operations and polls.
structure WaitInv (w : Worker) : Prop where
  agree : w.pc.stage = .looping → w.ctx.Agree
  polled : w.pc.stage = .looping → w.ctx.Polled
  waits : w.pc.stage = .looping → w.Waits
  settled : w.Settled

theorem SubmitsAll.submitsLooping (h : w.SubmitsAll a) : w.SubmitsLooping a := by
  unfold SubmitsLooping
  split
  case h_2 => trivial
  case h_1 site i hp =>
    intro _ hf
    simp only [SubmitsAll, sqes, hp] at h
    have h₁ := h (Context.failsSubmit_ioSqes hf)
    have h₂ := hf.failed
    omega

theorem WaitInv.step (h : w.WaitInv) (good : w.SubmitsAll a) (hs : step w a = some w') :
    w'.WaitInv := by
  have hloop := LoopingInv.step ⟨h.agree, h.settled⟩ good.submitsLooping hs
  have hnext : w'.pc.stage = .looping → w'.ctx.Polled ∧ w'.Waits := fun hl => by
    have hl' := step_looping hs h.settled hl
    by_cases hw : ∃ i, a = .work i
    case pos =>
      have ⟨i, ha⟩ := hw
      subst ha
      have ⟨hg, he⟩ := Option.ite_none_right_eq_some.mp hs
      have hwait : (w.workStep i).Waits := workStep_waits hg.1 h.settled (h.waits hl')
      exact ⟨(work_steps hs h.settled).1.polled (h.polled hl') good, Option.some.inj he ▸ hwait⟩
    case neg => exact outside_waits hs (fun i ha => hw ⟨i, ha⟩) hl (h.polled hl') (h.waits hl')
  exact ⟨hloop.agree, fun hl => (hnext hl).1, fun hl => (hnext hl).2, hloop.settled⟩

end Worker

-- The kernel holds the request, or has already posted its completion so that a wait returns.
def Ring.Holds (r : Ring) (data : UserData) : Prop :=
  data ∈ r.kernel ∨ data ∈ r.cq.map Cqe.userData

theorem Context.Polled.holds {s : Context} {c : Channel} (h : s.Polled) (hc : s.pollPending c) :
    s.ring.Holds (.wake c) := by
  have hp := h.polls c
  rw [if_pos hc] at hp
  exact List.mem_append.mp <| List.count_pos_iff.mp (by omega)

-- What a worker that enters the wait relies on.
structure Context.Awaitable (s : Context) (timeout : Bool) : Prop where
  sq : s.ring.sq = []
  inflight : ∀ op ∈ s.inflight, s.ring.Holds (.operation op)
  once : ∀ c, (s.ring.sq ++ s.ring.kernel ++ s.ring.cq.map Cqe.userData).count (.wake c) ≤ 1
  pending : ∀ c, s.pollPending c → s.ring.Holds (.wake c)
  wake : timeout = false → (∀ c, s.ring.Holds (.wake c)) ∨
    s.stopRequested ∧ ∃ op ∈ s.inflight, s.ring.Holds (.operation op)

namespace Worker

variable {w w' : Worker} {as : List Action}

def Awaited (w : Worker) : Prop :=
  ∀ t, w.pc = .block t → w.ctx.Awaitable t

theorem WaitInv.awaited (h : w.WaitInv) : w.Awaited := by
  intro t ht
  have hl : w.pc.stage = .looping := by rw [ht]; rfl
  have hp := h.polled hl
  have hin : ∀ op ∈ w.ctx.inflight, w.ctx.ring.Holds (.operation op) := fun op hop => by
    have hn : 0 < w.ctx.ring.named.count op := by
      rw [(h.agree hl).balance]
      exact List.count_pos_iff.mpr hop
    have hmem := List.count_pos_iff.mp hn
    simp only [Ring.named, hp.sq, names_nil, List.nil_append, List.mem_append, mem_names] at hmem
    exact hmem
  refine ⟨hp.sq, hin, fun c => ?_, fun c => hp.holds, fun _ => ?_⟩
  · have hpolls := hp.polls c
    rw [hp.sq, List.nil_append, hpolls]
    split <;> omega
  · have hwait := h.waits hl
    simp only [Waits, ht] at hwait
    refine hwait.imp (fun hall c => hp.holds (hall c)) fun hstop => ⟨hstop.1, ?_⟩
    obtain ⟨op, hop⟩ := List.exists_mem_of_ne_nil _ hstop.2
    exact ⟨op, hop, hin op hop⟩

-- When every submit consumes the whole SQ, the worker never enters the wait with an SQE left behind
-- or without a wake source.
theorem awaited_of_submitsAll (entries : Nat) (options : Options) (channelOpen : Channel → Bool)
    (h : System.Along step SubmitsAll (init entries options channelOpen) as) :
    System.Always step Awaited (init entries options channelOpen) as :=
  h.always WaitInv.step WaitInv.awaited
    ⟨fun _ => init_agree, fun _ => ⟨rfl, fun _ => rfl⟩, fun _ => trivial, init_settled⟩

-- Two operations are published; the kernel gives the same answer to each submit on the way to the
-- wait, the third of which is the one for both operations.
def publishTwoAndBlock (answer : Int) : List Action :=
  [.publishIo 1 .native, .publishIo 2 .native, .run 0] ++ List.replicate 19 (.work { answer })

theorem awaited_of_two_submitted :
    System.Along step SubmitsAll (init 4 {} fun _ => true) (publishTwoAndBlock 2) ∧
      System.Always step Awaited (init 4 {} fun _ => true) (publishTwoAndBlock 2) :=
  ⟨by decide, awaited_of_submitsAll 4 {} _ (by decide)⟩

-- The kernel consumes one of two SQEs, and the worker blocks with the other one in the SQ.
theorem not_awaited_of_partial_submit :
    ¬System.Always step Awaited (init 4 {} fun _ => true) (publishTwoAndBlock 1) := by
  intro always
  have ⟨w, hr, hw⟩ := Option.map_eq_some_iff.mp
    (by decide : (System.run step (init 4 {} fun _ => true) (publishTwoAndBlock 1)).map
      (fun w => (w.pc, w.ctx.ring.sq)) = some (.block false, [.operation 1]))
  simp only [Prod.mk.injEq] at hw
  have h := (always.last hr false hw.1).sq
  simp [hw.2] at h

end Worker

end Bnio.Uring
