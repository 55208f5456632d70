import Bnio.Uring.Blocking
import Bnio.Uring.Outside

namespace Bnio.Uring

namespace Pc

-- From `abort_inflight_io` on the ring may refer to operations that are not inflight.
def torn : Pc → Bool
  | .abort | .io (.drain _) | .finished | .closed => true
  | .cpu (.drain false) | .exec (.drain false) | .timers (.drain false) => true
  | .check (.drain false) => true
  | _ => false

-- The last look at the queues, and what follows it.
def late : Pc → Bool
  | .io (.drain _) | .finished => true
  | _                          => false

end Pc

-- No other worker takes operations off the shared queues.
def Action.alone : Action → Bool
  | .takeIo | .takeCpu => false
  | _                  => true

namespace Context

variable {s : Context} {p : Context.Pass} {ops : List OpId} {answer : Int}

-- Where an operation can wait for being executed; `collect_ready_cqes` has a list of its own.
def queued (s : Context) : List OpId :=
  s.sharedIo ++ s.localIo ++ s.pendingIoRetry ++ s.inflight ++ s.localCpu ++ s.sharedCpu ++ s.batch

-- What only the worker itself can get at.
def own (s : Context) : List OpId :=
  s.inflight ++ s.pendingIoRetry ++ s.localIo ++ s.cqeTasks ++ s.localCpu ++ s.batch

theorem queued_eq_nil (h : s.own = []) (hcpu : s.sharedCpu = []) (hio : s.sharedIo = []) :
    s.queued = [] ∧ s.cqeTasks = [] := by
  simp_all [own, queued]

section NotFound

theorem Pass.prepare_not_found (h : (p.prepare ops).foundWork = false) :
    p.foundWork = false ∧ ops = [] := by
  unfold Pass.prepare at h
  split at h
  case isTrue ho => exact ⟨h, ho⟩
  case isFalse   => cases h

theorem Pass.prepare_nil : p.prepare [] = p :=
  if_pos rfl

theorem Pass.takeLocal_not_found (h : p.takeLocal.foundWork = false) :
    p.foundWork = false ∧ (p.remaining = [] → p.ctx.localIo = [] ∧
      p.takeLocal = { p with ctx := { p.ctx with localIo := [] } }) := by
  unfold Pass.takeLocal at *
  split at h
  case isTrue hr  =>
    have ⟨hf, ho⟩ := Pass.prepare_not_found h
    exact ⟨hf, fun _ => ⟨ho, by rw [if_pos hr, ho, Pass.prepare_nil]⟩⟩
  case isFalse hr => exact ⟨h, fun h => absurd h hr⟩

theorem Pass.takeShared_not_found (h : p.takeShared.foundWork = false) :
    p.foundWork = false ∧ (p.remaining = [] → p.ctx.sharedIo = [] ∧
      p.takeShared = { p with ctx := { p.ctx with sharedIo := [] } }) := by
  unfold Pass.takeShared at *
  split at h
  case isTrue hr  =>
    have ⟨hf, ho⟩ := Pass.prepare_not_found h
    exact ⟨hf, fun _ => ⟨ho, by rw [if_pos hr, ho, Pass.prepare_nil]⟩⟩
  case isFalse hr => exact ⟨h, fun h => absurd h hr⟩

theorem preparePass_not_found (h : s.preparePass.foundWork = false) :
    s.ioSources = [] ∧ s.preparePass.ctx = s := by
  have ⟨hl, hshared⟩ := Pass.takeShared_not_found h
  have ⟨hr, hlocal⟩ := Pass.takeLocal_not_found hl
  have ⟨_, hretry⟩ := Pass.prepare_not_found hr
  rw [hretry, Pass.prepare_nil] at hshared hlocal
  have ⟨hlocal, he⟩ := hlocal rfl
  rw [he] at hshared
  have ⟨hshared, he'⟩ := hshared rfl
  simp only at hlocal hshared
  refine ⟨by simp [ioSources, hretry, hlocal, hshared], ?_⟩
  rw [preparePass, hretry, Pass.prepare_nil, he, he']
  cases s
  simp_all

-- `consume_io_tasks` that finds nothing has looked into every queue.
theorem consumeIoTasks_not_found (h : (s.consumeIoTasks answer).2 = false) :
    s.ioSources = [] ∧ (s.consumeIoTasks answer).1 = s := by
  unfold consumeIoTasks at *
  split at h
  case isTrue hstop =>
    simp only [Bool.not_eq_false', Bool.and_eq_true, List.isEmpty_iff] at h
    refine ⟨by simp [ioSources, h], ?_⟩
    rw [if_pos hstop, stopQueuedIo]
    cases s
    simp_all [drainIoListCompleteStopped]
  case isFalse hstop =>
    simp only at h
    split at h
    case isTrue       => cases h
    case isFalse hf =>
      have hnot := preparePass_not_found (Bool.eq_false_iff.mpr hf)
      simp only [hstop, hf]
      exact hnot

end NotFound

end Context

namespace Worker

variable {w w' : Worker} {i : Input} {a : Action} {site : Site} {b : Bool} {pc : Pc}
  {new : List OpId} {s : Context}

section Leaf

theorem Leaf.taken (h : Leaf w.ctx i pc new s) : s.taken = w.ctx.taken := by
  cases h
  case skip => rfl
  case enter | rearm | rearmLocal => exact Context.armWakePoll_taken ..
  case collect => exact (Context.collectCqe_collects ..).taken
  case dispatch =>
    have ⟨_, _, _, hd⟩ := Context.dispatchCqeTasks_eq w.ctx
    rw [hd]
  case fetchCpu =>
    obtain ⟨_, _, _, hf⟩ := Context.fetchCpuTask_eq w.ctx
    rw [hf]
  case exec =>
    have ⟨_, _, _, _, _, he⟩ := Context.executeNext_eq w.ctx i
    rw [he]
  case timers | fetch => rw [Context.pushCpuList_eq]
  case io => exact (Context.consumeIoTasks_frame ..).taken
  case abort =>
    have ⟨_, _, ha⟩ := Context.abortInflightIo_eq w.ctx
    rw [ha]

theorem Leaf.cqeTasks (h : Leaf w.ctx i pc new s) (hn : ∀ site left, pc ≠ .collect site left) :
    s.cqeTasks = w.ctx.cqeTasks := by
  cases h
  case skip => rfl
  case enter | rearm | rearmLocal => exact Context.armWakePoll_cqeTasks ..
  case collect | dispatch => exact absurd rfl (hn _ _)
  case fetchCpu =>
    obtain ⟨_, _, _, hf⟩ := Context.fetchCpuTask_eq w.ctx
    rw [hf]
  case exec =>
    have ⟨_, _, _, _, _, he⟩ := Context.executeNext_eq w.ctx i
    rw [he]
  case timers | fetch => rw [Context.pushCpuList_eq]
  case io => exact (Context.consumeIoTasks_frame ..).cqeTasks
  case abort =>
    have ⟨_, _, ha⟩ := Context.abortInflightIo_eq w.ctx
    rw [ha]

-- After the abort no completion is collected, so the ring does not matter.
theorem Leaf.held_of_torn (h : Leaf w.ctx i w.pc new s) (ht : w.pc.torn) (hs : w.Settled)
    (once : w.ctx.Once) (op : OpId) : s.held.count op = w.ctx.held.count op + new.count op := by
  unfold Settled at hs
  generalize w.pc = pc at *
  cases h
  case skip               => rfl
  case enter              => cases ht
  case rearm              => cases ht
  case rearmLocal         => cases ht
  case collect            => cases ht
  case dispatch           => cases ht
  case fetchCpu           => exact (Context.fetchCpuTask_keeps (hs (by simp))).held op
  case exec hb            => exact (Context.executeNext_keeps hb).held op
  case timers             => exact (Context.pushCpuList_keeps ..).held op
  case fetch              => exact (Context.pushCpuList_keeps ..).held op
  case io                 => exact Context.consumeIoTasks_held i.answer once op
  case abort              => exact Context.abortInflightIo_held op

end Leaf

section Late

theorem toSpin_late {r : Nat} : (w.toSpin r).pc.late = false := by
  unfold toSpin
  split <;> rfl

theorem afterCollect_late : (w.afterCollect b site).pc.late = false := by
  cases site <;> cases b <;> rfl

theorem afterTimers_late : (w.afterTimers b site).pc.late = false := by
  cases site <;> cases b <;> rfl

theorem afterCheck_late : (w.afterCheck b site).pc.late = false := by
  cases site <;> cases b
  all_goals first
    | rfl
    | exact toSpin_late

theorem afterEnter_late {c : Channel} {r : Int} : (w.afterEnter c r).pc.late = false := by
  unfold afterEnter
  split
  case isTrue  => rfl
  case isFalse => cases c <;> rfl

theorem rearmFailed_late {r : Int} : (w.rearmFailed r).pc.late = false := by
  unfold rearmFailed
  split <;> rfl

theorem afterRearm_late {t : Bool} {r r' : Int} : (w.afterRearm t r r').pc.late = false := by
  unfold afterRearm
  split
  case isTrue  => exact rearmFailed_late
  case isFalse => split <;> rfl

theorem afterBlock_late {t : Bool} {r : Int} : (w.afterBlock t r).pc.late = false := by
  unfold afterBlock
  split <;> rfl

theorem collectStep_late {left : Nat} {answer : Int} :
    (w.collectStep site left answer).pc.late = false := by
  unfold collectStep
  simp only
  split
  case h_1 => rfl
  case h_2 => split <;> exact afterCollect_late

-- The last look at the I/O queues follows a look at the CPU queues that found both of them empty, and
-- `finish` ends with a look at the I/O queues that finds nothing.
theorem workStep_late (hw : Working w.pc) (h : (w.workStep i).pc.late) :
    w.ctx.localCpu = [] ∧ w.ctx.sharedCpu = [] ∧ w.pc = .cpu (.drain false) ∧
        w.workStep i = w.goto (.io (.drain false)) ∨
      ∃ b, w.pc = .io (.drain b) ∧ w.ctx.ioSources = [] ∧
        w.workStep i = ⟨{ w.ctx with state := .finished }, .finished⟩ := by
  unfold workStep at h ⊢
  simp only at h ⊢
  cases hp : w.pc <;> simp only [hp] at h ⊢
  case enter       => simp [afterEnter_late] at h
  case collect     => simp [collectStep_late] at h
  case cpu site    =>
    split at h
    case isFalse => simp [Pc.late] at h
    case isTrue hq  =>
      cases site
      case drain d =>
        cases d
        case false => exact .inl ⟨hq.1, hq.2, rfl, if_pos hq⟩
        case true  => simp [afterCpu, goto, Pc.late] at h
      all_goals simp [afterCpu, goto, Pc.late] at h
  case exec site   =>
    split at h
    case isFalse => simp [Pc.late] at h
    case isTrue  =>
      cases site
      case drain d => cases d <;> simp [afterCpu, toFinish, goto, Pc.late] at h
      all_goals simp [afterCpu, toReady, goto, Pc.late] at h
  case timers      => split at h <;> simp [afterTimers_late] at h
  case io site     =>
    cases site
    case drain d =>
      cases hc : (w.ctx.consumeIoTasks i.answer).2
      case false =>
        obtain ⟨hsrc, he⟩ := Context.consumeIoTasks_not_found hc
        exact .inr ⟨d, rfl, hsrc, by simp [he, afterIo]⟩
      case true  => simp [hc, afterIo, goto, Pc.late] at h
    case spin => simp [afterIo, goto, Pc.late] at h
    all_goals
      simp only [afterIo] at h
      split at h <;> simp [toReady, goto, Pc.late] at h
  case check       => simp [afterCheck_late] at h
  case resume      => split at h <;> simp [toReady, toFinish, goto, Pc.late] at h
  case fetch       => repeat' (first | split at h | simp [goto, Pc.late] at h)
  case rearm       =>
    split at h
    case isTrue  => simp [rearmFailed_late] at h
    case isFalse => simp [goto, Pc.late] at h
  case rearmLocal  => simp [afterRearm_late] at h
  case block       => simp [afterBlock_late] at h
  case abort       => simp [Pc.late] at h
  all_goals simp [hp, Working] at hw

end Late

theorem workStep_torn (ht : w.pc.torn) : (w.workStep i).pc.torn := by
  unfold workStep
  cases hp : w.pc <;> rw [hp] at ht <;> simp only
  case cpu site =>
    cases site
    case drain d =>
      cases d
      case true  => cases ht
      case false => split <;> rfl
    all_goals cases ht
  case exec site =>
    cases site
    case drain d =>
      cases d
      case true  => cases ht
      case false =>
        split
        case isTrue  => rfl
        case isFalse => rfl
    all_goals cases ht
  case timers site =>
    cases site
    case drain d =>
      cases d
      case true  => cases ht
      case false => split <;> rfl
    all_goals cases ht
  case io site =>
    cases site
    case drain d => cases (w.ctx.consumeIoTasks i.answer).2 <;> rfl
    all_goals cases ht
  case check site =>
    cases site
    case drain d =>
      cases d
      case true  => cases ht
      case false => rfl
    all_goals cases ht
  case abort    => rfl
  case finished => rw [hp]; rfl
  case closed   => rw [hp]; rfl
  all_goals cases ht

-- What the loop leaves behind `collect_ready_cqes` is on a queue.
theorem workStep_collected (hw : Working w.pc) (hs : w.Settled)
    (h : (∀ site left, w.pc ≠ .collect site left) → w.ctx.cqeTasks = [])
    (hn : ∀ site left, (w.workStep i).pc ≠ .collect site left) :
    (w.workStep i).ctx.cqeTasks = [] := by
  by_cases hc : ∃ site left, w.pc = .collect site left
  case neg =>
    simp only [not_exists] at hc
    obtain ⟨hp, leaf, _, ends⟩ := workStep_steps (i := i) hw hs
    obtain ⟨_, _, he⟩ := ends.ctx
    rw [he]
    exact (leaf.cqeTasks fun site left => hp ▸ hc site left).trans (h hc)
  case pos =>
    obtain ⟨site, left, hp⟩ := hc
    have hstep : w.workStep i = w.collectStep site left i.answer := by rw [workStep, hp]
    have hst : ∀ v : Worker, v.pc = w.pc → v.pc.stage = site.stage := fun v hv => by
      rw [hv, hp]
      rfl
    have hm : ∀ (v : Worker) (b : Bool), v.pc = w.pc → v.ctx.cqeTasks = [] →
        (v.afterCollect b site).ctx.cqeTasks = [] := fun v b hv hq => by
      obtain ⟨_, _, he⟩ := (afterCollect_moves (b := b) (hst v hv)).ctx
      rw [he]
      exact hq
    rw [hstep] at hn ⊢
    unfold collectStep at hn ⊢
    simp only at hn ⊢
    split at hn
    case h_1 => exact absurd rfl (hn _ _)
    case h_2 =>
      split
      case isTrue ht => exact hm _ _ rfl ht
      case isFalse   =>
        refine hm { w with ctx := w.ctx.dispatchCqeTasks } _ rfl ?_
        obtain ⟨_, _, _, hd⟩ := Context.dispatchCqeTasks_eq w.ctx
        rw [hd]

-- As long as the ring is in use it refers to the inflight operations only.
structure Conserving (w : Worker) : Prop where
  settled : w.Settled
  once : w.ctx.Once
  agree : ¬w.pc.torn → w.ctx.Agree
  inflight : w.pc.stage = .aborted → w.ctx.inflight = []
  collected : (∀ site left, w.pc ≠ .collect site left) → w.ctx.cqeTasks = []

theorem init_conserving {entries : Nat} {options : Options} {channelOpen : Channel → Bool} :
    (init entries options channelOpen).Conserving :=
  ⟨init_settled, init_agree.once, fun _ => init_agree, fun _ => rfl, fun _ => rfl⟩

theorem SubmitsLooping.orderly (h : w.SubmitsLooping (.work i)) (ht : ¬w.pc.torn) :
    w.Orderly i := by
  unfold Orderly
  unfold SubmitsLooping at h
  split
  case h_1 site hp =>
    rw [hp] at h ht
    refine h ?_
    cases site
    case drain => exact absurd rfl ht
    all_goals rfl
  case h_2 hp => exact absurd (by rw [hp]; rfl) ht
  case h_3    => trivial

theorem Conserving.work (h : w.Conserving) (good : w.SubmitsLooping (.work i))
    (hs : step w (.work i) = some w') : w'.Conserving ∧
      ∀ op, w'.ctx.held.count op = w.ctx.held.count op + (w.publishes (.work i)).count op := by
  have ⟨hg, he⟩ := Option.ite_none_right_eq_some.mp hs
  have ⟨steps, fresh⟩ := work_steps hs h.settled
  have hheld : ∀ op, w'.ctx.held.count op =
      w.ctx.held.count op + (w.publishes (.work i)).count op := fun op => by
    have ⟨hp, leaf, published, ends⟩ := steps
    have ⟨_, _, hctx⟩ := ends.ctx
    rw [hctx, ← published]
    subst hp
    by_cases ht : w.pc.torn
    case pos => exact leaf.held_of_torn ht h.settled h.once op
    case neg => exact (leaf.keeps h.settled (h.agree ht) (good.orderly ht)).held op
  refine ⟨⟨step_settled hs h.settled, h.once.start (publishes_fresh fresh) hheld, fun ht => ?_,
    step_aborted hs h.settled h.inflight, ?_⟩, hheld⟩
  · have ht' : ¬w.pc.torn := fun h => ht (Option.some.inj he ▸ workStep_torn h)
    exact steps.agree h.settled (h.agree ht') (good.orderly ht') fresh
  · exact Option.some.inj he ▸ workStep_collected hg.1 h.settled h.collected

theorem Conserving.outside (h : w.Conserving) (hs : step w a = some w') (hw : ∀ i, a ≠ .work i) :
    w'.Conserving ∧ ∀ op, w'.ctx.held.count op = w.ctx.held.count op + (w.publishes a).count op := by
  have ⟨fresh, hheld⟩ := outside_held hs hw
  refine ⟨⟨step_settled hs h.settled, h.once.start fresh hheld, fun ht => ?_,
    step_aborted hs h.settled h.inflight, fun hn => ?_⟩, hheld⟩
  · have ht' : ¬w.pc.torn := by
      by_cases hi : w.pc = .idle
      case pos => rw [hi]; exact Bool.false_ne_true
      case neg =>
        rcases outside_pc hs hw hi with hp | hp
        · exact hp ▸ ht
        · exact absurd (by rw [hp]; rfl) ht
    have ⟨_, keeps⟩ := outside_keeps hs hw fun _ hp => absurd (by rw [hp]; rfl) ht'
    exact keeps.agree (h.agree ht') fresh
  · rw [(outside_apart hs hw).cqeTasks]
    refine h.collected fun site left hp => ?_
    have hpc := (outside_apart_working hs hw (by rw [hp]; rfl)).pc
    exact hn site left (hpc.trans hp)

theorem Conserving.step (h : w.Conserving) (good : w.SubmitsLooping a)
    (hs : Worker.step w a = some w') : w'.Conserving ∧
      ∀ op, w'.ctx.held.count op = w.ctx.held.count op + (w.publishes a).count op := by
  by_cases hw : ∃ i, a = .work i
  case pos =>
    have ⟨i, ha⟩ := hw
    subst ha
    exact h.work good hs
  case neg => exact h.outside hs fun i ha => hw ⟨i, ha⟩

theorem mem_queued_of_held {op : OpId} (h : op ∈ s.held) : op ∈ s.queued ∨ op ∈ s.cqeTasks ∨
    op ∈ s.executed.map Delivery.op ∨ op ∈ s.taken := by
  simp only [Context.held, Context.queued, List.mem_append] at h ⊢
  tauto

theorem step_taken (hs : step w a = some w') (hset : w.Settled) (ha : a.alone) :
    w'.ctx.taken = w.ctx.taken := by
  cases a
  case work i =>
    have ⟨⟨hp, leaf, _, ends⟩, _⟩ := work_steps hs hset
    have ⟨_, _, he⟩ := ends.ctx
    rw [he]
    exact leaf.taken
  case takeIo  => cases ha
  case takeCpu => cases ha
  case run enabled =>
    have ⟨_, he⟩ := Option.ite_none_right_eq_some.mp hs
    split at he <;> exact Option.some.inj he ▸ rfl
  case queueExit =>
    simp only [step] at hs
    split at hs
    case h_3 => cases hs
    all_goals exact Option.some.inj hs ▸ rfl
  all_goals
    simp only [step] at hs
    repeat' split at hs
    all_goals cases hs
    all_goals rfl

-- What everything but the worker does leaves alone what the worker holds.
theorem outside_own (hs : step w a = some w') (hw : ∀ i, a ≠ .work i) : w'.ctx.own = w.ctx.own := by
  cases a
  case work i => exact absurd rfl (hw i)
  all_goals
    simp only [step] at hs
    repeat' split at hs
    all_goals cases hs
    all_goals rfl

theorem outside_late (hs : Worker.step w a = some w') (hw : ∀ i, a ≠ .work i)
    (hl : w'.pc.late) : w'.pc = w.pc := by
  have hstage : w'.pc.stage = .aborted := by
    generalize w'.pc = pc at hl
    cases pc
    case io site => cases site <;> first | rfl | cases hl
    case finished => rfl
    all_goals cases hl
  have hab := ((outside_stage hs hw).2 hstage).1
  have hi : w.pc ≠ .idle := fun hp => by rw [hp] at hab; cases hab
  exact (outside_pc hs hw hi).resolve_right fun hp => by rw [hp] at hl; cases hl

section Ending

-- The last look at the I/O queues comes after one at the CPU queues that has found nothing, so the
-- worker holds nothing at the end of `finish`.
structure Ending (w : Worker) : Prop where
  conserving : w.Conserving
  last : ∀ b, w.pc = .io (.drain b) → w.ctx.localCpu = []
  finished : w.pc = .finished → w.ctx.own = []

theorem init_ending {entries : Nat} {options : Options} {channelOpen : Channel → Bool} :
    (init entries options channelOpen).Ending :=
  ⟨init_conserving, by simp [init], by simp [init]⟩

theorem Ending.work (h : w.Ending) (hw : Working w.pc) (hc : (w.workStep i).Conserving) :
    (w.workStep i).Ending := by
  by_cases hl : (w.workStep i).pc.late
  case neg => exact ⟨hc, fun _ hp => absurd (by rw [hp]; rfl) hl, fun hp => absurd (by rw [hp]; rfl) hl⟩
  case pos =>
    refine ⟨hc, ?_, ?_⟩ <;> obtain ⟨hcpu, -, -, he⟩ | ⟨b, hp, hsrc, he⟩ := workStep_late hw hl <;> rw [he]
    · exact fun _ _ => hcpu
    · simp
    · simp [goto]
    · intro _
      have hcpu := h.last b hp
      have hin := h.conserving.inflight (by rw [hp]; rfl)
      have htasks := h.conserving.collected (by simp [hp])
      have hb := h.conserving.settled (by simp [hp])
      simp only [Context.ioSources, List.append_eq_nil_iff] at hsrc
      simp [Context.own, hin, htasks, hb, hcpu, hsrc]

theorem Ending.step (h : w.Ending) (good : w.SubmitsLooping a) (hs : Worker.step w a = some w') :
    w'.Ending := by
  obtain ⟨hc, -⟩ := h.conserving.step good hs
  by_cases hw : ∃ i, a = .work i
  case pos =>
    obtain ⟨i, rfl⟩ := hw
    obtain ⟨hg, he⟩ := Option.ite_none_right_eq_some.mp hs
    cases Option.some.inj he
    exact h.work hg.1 hc
  case neg =>
    have hw : ∀ i, a ≠ .work i := fun i ha => hw ⟨i, ha⟩
    refine ⟨hc, fun b hp => ?_, fun hp => ?_⟩
    · have hpc := outside_late hs hw (by rw [hp]; rfl)
      exact (outside_apart hs hw).localCpu.trans (h.last b (hpc.symm.trans hp))
    · have hpc := outside_late hs hw (by rw [hp]; rfl)
      exact (outside_own hs hw).trans (h.finished (hpc.symm.trans hp))

end Ending

-- `l` are I/O operations that have been published. From the last look of `finish` at the I/O queues on
-- the shared CPU queue holds none of them.
structure Accounted (w : Worker) (l : List OpId) : Prop where
  ending : w.Ending
  taken : w.ctx.taken = []
  held : l ⊆ w.ctx.held
  sharedCpu : w.pc.late → ∀ op ∈ l, op ∉ w.ctx.sharedCpu
  sharedIo : w.pc = .finished → w.ctx.sharedIo = []

theorem Accounted.executed {l : List OpId} (h : w.Accounted l) (hp : w.pc = .finished) :
    l ⊆ w.ctx.executed.map Delivery.op := fun op hop => by
  have hown := h.ending.finished hp
  have hmem := h.held hop
  have hcpu := h.sharedCpu (by rw [hp]; rfl) op hop
  simp only [Context.own, List.append_eq_nil_iff] at hown
  simpa [Context.held, hown, h.taken, h.sharedIo hp, hcpu] using hmem

theorem Accounted.late_work {l : List OpId} (h : w.Accounted l) (hw : Working w.pc)
    (hl : (w.workStep i).pc.late) : w.publishesIo (.work i) = [] ∧
      (∀ op ∈ l, op ∉ (w.workStep i).ctx.sharedCpu) ∧
      ((w.workStep i).pc = .finished → (w.workStep i).ctx.sharedIo = []) := by
  rcases workStep_late hw hl with ⟨_, hshared, hp, he⟩ | ⟨b, hp, hsrc, he⟩ <;> rw [he]
  · exact ⟨by simp [publishesIo, hp], fun op _ => by simp [goto, hshared], by simp [goto]⟩
  · simp only [Context.ioSources, List.append_eq_nil_iff] at hsrc
    exact ⟨by simp [publishesIo, hp], h.sharedCpu (by rw [hp]; rfl), fun _ => hsrc.2⟩

-- Foreign threads publish new operations only.
theorem Accounted.late_outside {l : List OpId} (h : w.Accounted l) (hs : Worker.step w a = some w')
    (hw : ∀ i, a ≠ .work i) (ha : a.alone) (hp : w.pc = .io (.drain b)) :
    ∀ op ∈ l ++ w.publishesIo a, op ∉ w'.ctx.sharedCpu := by
  have hshared := h.sharedCpu (by rw [hp]; rfl)
  have hcpu : ∀ {o}, o ∈ w.ctx.sharedCpu → o ∈ w.ctx.held := fun ho => by
    simp [Context.held, ho]
  have hsame : ∀ {l' : List OpId}, l' = [] → ∀ op ∈ l ++ l', op ∉ w.ctx.sharedCpu := fun he op hop =>
    hshared op (by simpa [he] using hop)
  cases a
  case work i => exact absurd rfl (hw i)
  case takeIo  => cases ha
  case takeCpu => cases ha
  case publishIo o r =>
    obtain ⟨hg, he⟩ := Option.ite_none_right_eq_some.mp hs
    cases Option.some.inj he
    intro op hop hm
    rcases List.mem_append.mp hop with hop | hop
    · exact hshared op hop hm
    · exact hg.2.2 op hop (hcpu hm)
  case publishCpu o =>
    obtain ⟨hg, he⟩ := Option.ite_none_right_eq_some.mp hs
    cases Option.some.inj he
    intro op hop hm
    have hop : op ∈ l := by simpa [publishesIo] using hop
    rcases List.mem_cons.mp hm with ho | hm
    · exact hg.2.2 o (by simp) (ho ▸ h.held hop)
    · exact hshared op hop hm
  case run | queueExit | drainIo | drainCpu =>
    simp only [Worker.step, hp, Working] at hs
    repeat' split at hs
    all_goals simp_all
  all_goals
    simp only [Worker.step] at hs
    repeat' split at hs
    all_goals cases hs
    all_goals exact hsame rfl

theorem Accounted.step {l : List OpId} (h : w.Accounted l)
    (good : w.SubmitsLooping a ∧ a.alone ∧ w.pc ≠ .finished) (hs : Worker.step w a = some w') :
    w'.Accounted (l ++ w.publishesIo a) := by
  have hend := h.ending.step good.1 hs
  have ⟨_, hheld⟩ := h.ending.conserving.step good.1 hs
  have hsub : l ++ w.publishesIo a ⊆ w'.ctx.held := fun op hop => by
    rw [← List.count_pos_iff, hheld]
    rcases List.mem_append.mp hop with hop | hop
    · exact Nat.add_pos_left (List.count_pos_iff.mpr (h.held hop)) _
    · exact Nat.add_pos_right _ (List.count_pos_iff.mpr (List.mem_append_right _ hop))
  have htaken := (step_taken hs h.ending.conserving.settled good.2.1).trans h.taken
  by_cases hl : w'.pc.late
  case neg => exact ⟨hend, htaken, hsub, (absurd · hl), fun hp => absurd (by rw [hp]; rfl) hl⟩
  case pos =>
    by_cases hw : ∃ i, a = .work i
    case pos =>
      have ⟨i, ha⟩ := hw
      subst ha
      have ⟨hg, he⟩ := Option.ite_none_right_eq_some.mp hs
      cases Option.some.inj he
      have ⟨hnil, hcpu, hio⟩ := h.late_work hg.1 hl
      rw [hnil, List.append_nil] at hsub ⊢
      exact ⟨hend, htaken, hsub, fun _ => hcpu, hio⟩
    case neg =>
      have hw : ∀ i, a ≠ .work i := fun i ha => hw ⟨i, ha⟩
      have hpc := outside_late hs hw hl
      have ⟨b, hp⟩ : ∃ b, w.pc = .io (.drain b) := by
        rw [hpc] at hl
        unfold Pc.late at hl
        split at hl
        case h_1 b hp => exact ⟨b, hp⟩
        case h_2 hp   => exact absurd hp good.2.2
        case h_3      => cases hl
      exact ⟨hend, htaken, hsub, fun _ => h.late_outside hs hw good.2.1 hp,
        fun hf => absurd (hpc.symm.trans hf) good.2.2⟩

theorem init_accounted {entries : Nat} {options : Options} {channelOpen : Channel → Bool} :
    (init entries options channelOpen).Accounted [] :=
  ⟨init_ending, rfl, by simp, by simp, fun _ => rfl⟩

-- One worker, from entering the loop to the end of `finish`, while every submit consumes the whole SQ:
-- what has been published is in one place, or executed, and nothing else is; the list of
-- `collect_ready_cqes` is empty outside of it; and `finish` ends with every I/O operation executed
-- once. The last look at the I/O queues is the end of `finish`.
theorem io_conserved (entries : Nat) (options : Options) (channelOpen : Channel → Bool)
    (as : List Action)
    (along : System.Along step (fun w a => w.SubmitsAll a ∧ a.alone ∧ w.pc ≠ .finished)
      (init entries options channelOpen) as)
    (hr : System.run step (init entries options channelOpen) as = some w) :
    (∀ op, (w.ctx.queued ++ w.ctx.cqeTasks ++ w.ctx.executed.map Delivery.op).count op =
        (System.gathered step publishes (init entries options channelOpen) as).count op) ∧
      (System.gathered step publishes (init entries options channelOpen) as).Nodup ∧
      ((∀ site left, w.pc ≠ .collect site left) → w.ctx.cqeTasks = []) ∧
      (w.pc = .finished →
        ∀ op ∈ System.gathered step publishesIo (init entries options channelOpen) as,
          (w.ctx.executed.map Delivery.op).count op = 1) := by
  have hkeep : w.Conserving ∧ ∀ op, w.ctx.held.count op =
      ([] ++ System.gathered step publishes (init entries options channelOpen) as).count op := by
    refine along.gathered_invariant
      (J := fun w l => w.Conserving ∧ ∀ op, w.ctx.held.count op = l.count op)
      (fun h good hs => ?_) ⟨init_conserving, fun _ => rfl⟩ hr
    have ⟨hc, hheld⟩ := h.1.step good.1.submitsLooping hs
    exact ⟨hc, fun op => by rw [hheld, h.2, List.count_append]⟩
  have hacc : w.Accounted ([] ++ System.gathered step publishesIo _ as) :=
    along.gathered_invariant (J := Accounted)
      (fun h good hs => h.step ⟨good.1.submitsLooping, good.2⟩ hs) init_accounted hr
  rw [List.nil_append] at hkeep hacc
  have ⟨hc, hheld⟩ := hkeep
  refine ⟨fun op => ?_, List.nodup_iff_count_le_one.mpr fun op => hheld op ▸ hc.once op, hc.collected,
    fun hp op hop => Nat.le_antisymm ?_ ?_⟩
  · rw [← hheld]
    simp only [Context.held, Context.queued, hacc.taken, List.append_nil, List.count_append]
    omega
  · have := hc.once op
    simp only [Context.held, List.count_append] at this
    omega
  · exact List.count_pos_iff.mpr (hacc.executed hp hop)

-- A read is submitted, completed by the kernel and executed; the worker is stopped and finishes.
def readAndStop : List Action :=
  [.publishIo 0 .native, .run 0, .work { answer := 1 }, .work { answer := 1 }, .work {}, .work {},
    .work {}, .work { answer := 1 }, .complete (.operation 0) 5 0, .stop] ++
    List.replicate 17 (.work {})

theorem io_conserved_readAndStop :
    ∃ w, System.run step (init 4 {} fun _ => true) readAndStop = some w ∧ w.pc = .finished ∧
      (w.ctx.executed.map Delivery.op).count 0 = 1 := by
  have ⟨w, hr, hp⟩ := Option.map_eq_some_iff.mp (by decide +kernel :
    (System.run step (init 4 {} fun _ => true) readAndStop).map Worker.pc = some .finished)
  have ⟨_, _, _, hfin⟩ := io_conserved 4 {} (fun _ => true) readAndStop (by decide +kernel) hr
  have hg : System.gathered step publishesIo (init 4 {} fun _ => true) readAndStop = [0] := by
    decide +kernel
  exact ⟨w, hr, hp, hfin hp 0 (by rw [hg]; exact List.mem_singleton_self 0)⟩

end Worker
end Bnio.Uring
