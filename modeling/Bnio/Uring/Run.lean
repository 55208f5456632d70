import Bnio.Uring.Ownership

namespace Bnio.Uring

-- How far the worker has got: in its loop, in `finish` or `queue_exit` up to `abort_inflight_io`, and
-- after that call.
inductive Stage
  | looping | draining | aborted
  deriving DecidableEq, Repr

def Site.stage : Site → Stage
  | .drain true  => .draining
  | .drain false => .aborted
  | _            => .looping

def Pc.stage : Pc → Stage
  | .collect site _ | .cpu site | .exec site | .timers site | .check site => site.stage
  | .io (.drain _) => .aborted
  | .abort => .draining
  | .finished | .closed => .aborted
  | .idle | .enter _ | .io _ | .resume | .fetch | .rearm _ | .rearmLocal .. | .block _ => .looping

-- The positions that are reached in one way only: in `execute_tasks`, and from
-- `rearm_wake_polls_for_wait` on to the wait.
def Pc.plain : Pc → Bool
  | .exec _ | .rearmLocal .. | .block _ => false
  | _                                   => true

namespace Worker

variable {w w' : Worker} {i : Input} {a : Action} {site : Site} {b : Bool} {op : OpId}

-- Outside of `execute_tasks` there is no batch.
def Settled (w : Worker) : Prop :=
  (∀ site, w.pc ≠ .exec site) → w.ctx.batch = []

-- What choosing the next phase does: it may reset the budget or set the state, and nothing else.
structure Moves (w w' : Worker) : Prop where
  ctx : ∃ budget state, w'.ctx = { w.ctx with localTaskBudget := budget, state }
  plain : w'.pc.plain
  looping : w'.pc.stage = .looping → w.pc.stage = .looping
  aborted : w'.pc.stage = .aborted → w.pc.stage = .aborted

theorem Moves.agree (h : Moves w w') (ha : w.ctx.Agree) : w'.ctx.Agree := by
  have ⟨_, _, he⟩ := h.ctx
  exact he ▸ ⟨ha.once, ha.balance⟩

theorem Moves.settled (h : Moves w w') (hb : w.ctx.batch = []) : w'.Settled := fun _ => by
  have ⟨_, _, he⟩ := h.ctx
  simp [he, hb]

theorem Moves.inflight (h : Moves w w') : w'.ctx.inflight = w.ctx.inflight := by
  have ⟨_, _, he⟩ := h.ctx
  rw [he]

section Moves

theorem goto_moves {pc : Pc} (hp : pc.plain) (hs : w.pc.stage = pc.stage) :
    Moves w (w.goto pc) :=
  ⟨⟨_, _, rfl⟩, hp, hs.trans, hs.trans⟩

theorem goto_abort_moves : Moves w (w.goto .abort) :=
  ⟨⟨_, _, rfl⟩, rfl, by simp [goto, Pc.stage], by simp [goto, Pc.stage]⟩

theorem toReady_moves (hs : w.pc.stage = .looping) : Moves w w.toReady :=
  ⟨⟨_, _, rfl⟩, rfl, fun _ => hs, by simp [toReady, Pc.stage, Site.stage]⟩

theorem toFinish_moves : Moves w w.toFinish :=
  ⟨⟨_, _, rfl⟩, rfl, by simp [toFinish, goto, Pc.stage, Site.stage],
    by simp [toFinish, goto, Pc.stage, Site.stage]⟩

theorem toSpin_moves {r : Nat} (hs : w.pc.stage = .looping) : Moves w (w.toSpin r) := by
  unfold toSpin
  split
  all_goals exact goto_moves rfl hs

theorem afterCollect_moves (h : w.pc.stage = site.stage) : Moves w (w.afterCollect b site) := by
  cases site <;> cases b
  all_goals first
    | exact toReady_moves h
    | exact goto_moves rfl h

theorem afterCpu_moves (h : w.pc.stage = site.stage) : Moves w (w.afterCpu b site) := by
  cases site
  case drain d =>
    cases b <;> cases d
    all_goals first
      | exact toFinish_moves
      | exact goto_abort_moves
      | exact goto_moves rfl h
  all_goals
    cases b
    all_goals first
      | exact toReady_moves h
      | exact goto_moves rfl h

theorem afterTimers_moves (h : w.pc.stage = site.stage) : Moves w (w.afterTimers b site) := by
  cases site <;> cases b
  all_goals first
    | exact toReady_moves h
    | exact goto_moves rfl h

theorem afterIo_moves (h : w.pc.stage = (Pc.io site).stage) : Moves w (w.afterIo b site) := by
  cases site
  case drain =>
    cases b
    case false => exact ⟨⟨_, _, rfl⟩, rfl, by simp [afterIo, Pc.stage], fun _ => h⟩
    case true  => exact goto_abort_moves
  case post t =>
    cases b <;> cases t
    all_goals first
      | exact toReady_moves h
      | exact goto_moves rfl h
  all_goals
    cases b
    all_goals first
      | exact toReady_moves h
      | exact goto_moves rfl h

theorem afterCheck_moves (h : w.pc.stage = site.stage) : Moves w (w.afterCheck b site) := by
  cases site <;> cases b
  all_goals first
    | exact toFinish_moves
    | exact toSpin_moves h
    | exact goto_moves rfl h

theorem rearmFailed_moves {r : Int} (h : w.pc.stage = .looping) : Moves w (w.rearmFailed r) := by
  unfold rearmFailed
  split
  case isTrue  => exact toReady_moves h
  case isFalse => exact toFinish_moves

theorem afterBlock_moves {t : Bool} {r : Int} (h : w.pc.stage = .looping) :
    Moves w (w.afterBlock t r) := by
  unfold afterBlock
  split
  case isTrue  => exact toFinish_moves
  case isFalse => exact goto_moves rfl h

theorem afterEnter_moves {c : Channel} {r : Int} (h : w.pc.stage = .looping) :
    Moves w (w.afterEnter c r) := by
  unfold afterEnter
  split
  case isTrue =>
    exact ⟨⟨_, _, rfl⟩, rfl, fun _ => h,
      by simp [toFinish, goto, Pc.stage, Site.stage]⟩
  case isFalse =>
    cases c
    case shared => exact goto_moves rfl h
    case worker => exact toReady_moves h

end Moves

-- The effect of one step of a worker on its context, before the next phase is chosen.
inductive Leaf (s : Context) (i : Input) : Pc → List OpId → Context → Prop
  | skip (pc : Pc) : Leaf s i pc [] s
  | enter (c : Channel) : Leaf s i (.enter c) [] (s.armWakePoll c i.answer).1
  | rearm (t : Bool) : Leaf s i (.rearm t) [] (s.armWakePoll .shared i.answer).1
  | rearmLocal (t : Bool) (r : Int) : Leaf s i (.rearmLocal t r) [] (s.armWakePoll .worker i.answer).1
  | collect (site : Site) (left : Nat) {cqe : Cqe} {cq : List Cqe} (ho : s.ring.isOpen)
    (h : s.ring.cq = cqe :: cq) :
    Leaf s i (.collect site (left + 1)) [] ((s.setRing s.ring.advance).collectCqe cqe i.answer)
  | dispatch (site : Site) (left : Nat) : Leaf s i (.collect site left) [] s.dispatchCqeTasks
  | fetchCpu (site : Site) : Leaf s i (.cpu site) [] s.fetchCpuTask
  | exec (site : Site) (h : s.batch ≠ []) :
    Leaf s i (.exec site) (i.publishedCpu ++ i.publishedIo.map Prod.fst) (s.executeNext i)
  | timers (site : Site) : Leaf s i (.timers site) i.timers (s.pushCpuList i.timers)
  | fetch : Leaf s i .fetch i.timers (s.pushCpuList i.timers)
  | io (site : Site) : Leaf s i (.io site) [] (s.consumeIoTasks i.answer).1
  | abort : Leaf s i .abort [] s.abortInflightIo

-- The worker chooses the next phase, `execute_tasks` goes on, the worker gets closer to the wait or
-- the abort is over.
inductive Ends (w : Worker) : Worker → Prop
  | moves {w' : Worker} (h : Moves w w') (hb : w.ctx.batch = []) : Ends w w'
  | exec (site : Site) (h : w.pc.stage = site.stage) : Ends w (w.goto (.exec site))
  | rearmLocal (t : Bool) (r : Int) (h : w.pc = .rearm t) (hb : w.ctx.batch = []) :
    Ends w (w.goto (.rearmLocal t r))
  | block (t : Bool) (r : Int) (h : w.pc = .rearmLocal t r) (hb : w.ctx.batch = []) :
    Ends w (w.goto (.block t))
  | abort (h : w.pc = .abort) (hb : w.ctx.batch = []) (hi : w.ctx.inflight = []) :
    Ends w (w.goto (.timers (.drain false)))

theorem afterRearm_ends {t : Bool} {r r' : Int} (h : w.pc = .rearmLocal t r)
    (hb : w.ctx.batch = []) : Ends w (w.afterRearm t r r') := by
  unfold afterRearm
  split
  case isTrue => exact .moves (rearmFailed_moves (by rw [h]; rfl)) hb
  case isFalse =>
    split
    case isTrue  => exact .moves toFinish_moves hb
    case isFalse => exact .block t r h hb

theorem Ends.ctx : Ends w w' → ∃ budget state, w'.ctx = { w.ctx with localTaskBudget := budget, state }
  | .moves h _ => h.ctx
  | .exec .. | .rearmLocal .. | .block .. | .abort .. => ⟨_, _, rfl⟩

theorem Ends.settled : Ends w w' → w'.Settled
  | .moves h hb   => h.settled hb
  | .exec site _  => fun hn => absurd rfl (hn site)
  | .rearmLocal _ _ _ hb | .block _ _ _ hb | .abort _ hb _ => fun _ => hb

theorem Ends.agree : Ends w w' → w.ctx.Agree → w'.ctx.Agree
  | .moves h _, ha         => h.agree ha
  | .exec .., ha | .rearmLocal .., ha | .block .., ha | .abort .., ha => ha

theorem Ends.looping : Ends w w' → w'.pc.stage = .looping → w.pc.stage = .looping
  | .moves h _, hl => h.looping hl
  | .exec _ h, hl  => h.trans hl
  | .rearmLocal _ _ h _, _ | .block _ _ h _, _ => by rw [h]; rfl

theorem Ends.aborted : Ends w w' → (w.pc.stage = .aborted → w.ctx.inflight = []) →
    w'.pc.stage = .aborted → w'.ctx.inflight = []
  | .moves h _, hi, hs    => h.inflight.trans (hi (h.aborted hs))
  | .exec _ h, hi, hs     => hi (h.trans hs)
  | .abort _ _ hi, _, _   => hi

-- A step of the worker has one effect and ends in one choice.
inductive Steps (w : Worker) (i : Input) : Worker → Prop
  | at {pc : Pc} {new : List OpId} {s : Context} {w' : Worker} (hp : w.pc = pc)
    (leaf : Leaf w.ctx i pc new s) (published : new = w.publishes (.work i))
    (ends : Ends { w with ctx := s } w') : Steps w i w'

theorem Steps.skip (h : Moves w w') (hb : w.ctx.batch = []) (hn : w.publishes (.work i) = []) :
    Steps w i w' :=
  .at rfl (.skip _) hn.symm (.moves h hb)

theorem fresh_nil {s : Context} : s.Fresh [] :=
  ⟨List.nodup_nil, by simp⟩

-- Receivers publish while they run; fetched timers are published at two positions.
theorem publishes_work : w.publishes (.work i) =
    match w.pc with
    | .exec _            =>
      if w.ctx.batch = [] then [] else i.publishedCpu ++ i.publishedIo.map Prod.fst
    | .timers _ | .fetch => if i.fetched then i.timers else []
    | _                  => [] := by
  unfold publishes publishesCpu publishesIo
  cases w.pc
  case exec =>
    simp only
    split <;> rfl
  all_goals simp

theorem publishes_fresh (h : w.ctx.Fresh (w.started i)) : w.ctx.Fresh (w.publishes (.work i)) := by
  unfold started at h
  rw [publishes_work]
  generalize w.pc = pc at h ⊢
  cases pc
  case exec =>
    simp only
    split
    case isTrue  => exact fresh_nil
    case isFalse => exact h
  case timers | fetch =>
    simp only
    split
    case isTrue  => exact h
    case isFalse => exact fresh_nil
  all_goals exact fresh_nil

theorem collectStep_steps {left : Nat} (hp : w.pc = .collect site left) (hb : w.ctx.batch = []) :
    Steps w i (w.collectStep site left i.answer) := by
  have hf : w.pc.stage = site.stage := by rw [hp]; rfl
  unfold collectStep
  simp only
  split
  case h_1 left' cqe cq _ _ ho hcq =>
    exact .at hp (.collect site _ ho hcq) (by rw [publishes_work, hp]) <|
      .moves ⟨⟨_, _, rfl⟩, rfl, hf.trans, hf.trans⟩ (Context.collectCqe_batch.trans hb)
  case h_2 =>
    split
    case isTrue  => exact .skip (afterCollect_moves hf) hb (by rw [publishes_work, hp])
    case isFalse =>
      have ⟨_, _, _, hd⟩ := Context.dispatchCqeTasks_eq w.ctx
      exact .at hp (.dispatch site _) (by rw [publishes_work, hp]) <|
        .moves (afterCollect_moves hf) (by simp only [hd, hb])

theorem workStep_steps (hw : Working w.pc) (hs : w.Settled) :
    Steps w i (w.workStep i) := by
  have hbatch : (∀ site, w.pc ≠ .exec site) → w.ctx.batch = [] := hs
  unfold workStep
  simp only
  split
  case h_1 c hp =>
    have hb := hbatch (by simp [hp])
    exact .at hp (.enter c) (by rw [publishes_work, hp]) <|
      .moves (afterEnter_moves (by simp only [hp]; rfl)) (Context.armWakePoll_batch.trans hb)
  case h_2 site left hp => exact collectStep_steps hp (hbatch (by simp [hp]))
  case h_3 site hp =>
    split
    case isTrue  =>
      exact .skip (afterCpu_moves (by rw [hp]; rfl)) (hbatch (by simp [hp])) (by rw [publishes_work, hp])
    case isFalse =>
      exact .at hp (.fetchCpu site) (by rw [publishes_work, hp])
        (.exec (w := { w with ctx := w.ctx.fetchCpuTask }) site (by simp only [hp]; rfl))
  case h_4 site hp =>
    split
    case isTrue hb  =>
      exact .skip (afterCpu_moves (by rw [hp]; rfl)) hb (by simp [publishes_work, hp, hb])
    case isFalse hb =>
      have he := Ends.exec (w := { w with ctx := w.ctx.executeNext i }) site (by simp only [hp]; rfl)
      rw [goto, ← hp] at he
      exact .at hp (.exec site hb) (by simp [publishes_work, hp, hb]) he
  case h_5 site hp =>
    have hb := hbatch (by simp [hp])
    split
    case isTrue hf  =>
      exact .at hp (.timers site) (by simp [publishes_work, hp, hf.1]) <|
        .moves (afterTimers_moves (by simp only [hp]; rfl)) (by rw [Context.pushCpuList_eq]; exact hb)
    case isFalse hf =>
      refine .skip (afterTimers_moves (by rw [hp]; rfl)) hb ?_
      simp only [publishes_work, hp]
      split
      case isTrue hi  => exact not_not.mp fun ht => hf ⟨hi, ht⟩
      case isFalse    => rfl
  case h_6 site hp =>
    have hb := hbatch (by simp [hp])
    exact .at hp (.io site) (by rw [publishes_work, hp]) <|
      .moves (afterIo_moves (by simp only [hp])) ((Context.consumeIoTasks_frame ..).batch.trans hb)
  case h_7 site hp =>
    exact .skip (afterCheck_moves (by rw [hp]; rfl)) (hbatch (by simp [hp])) (by rw [publishes_work, hp])
  case h_8 hp =>
    have hb := hbatch (by simp [hp])
    split
    case isTrue  => exact .skip toFinish_moves hb (by rw [publishes_work, hp])
    case isFalse => exact .skip (toReady_moves (by rw [hp]; rfl)) hb (by rw [publishes_work, hp])
  case h_9 hp =>
    have hb := hbatch (by simp [hp])
    split
    case isTrue hf =>
      exact .skip (goto_moves rfl (by rw [hp]; rfl)) hb (by simp_all [publishes_work])
    case isFalse hf =>
      split
      case isTrue ht  =>
        exact .at hp .fetch (by simp_all [publishes_work]) <|
          .moves (goto_moves rfl (by simp only [hp]; rfl))
            (by rw [Context.pushCpuList_eq]; exact hb)
      case isFalse ht =>
        exact .skip (goto_moves rfl (by rw [hp]; rfl)) hb (by simp_all [publishes_work])
  case h_10 t hp =>
    have hb := hbatch (by simp [hp])
    refine .at hp (.rearm t) (by rw [publishes_work, hp]) ?_
    split
    case isTrue  =>
      exact .moves (rearmFailed_moves (by simp only [hp]; rfl)) (Context.armWakePoll_batch.trans hb)
    case isFalse => exact .rearmLocal t _ hp (Context.armWakePoll_batch.trans hb)
  case h_11 t r hp =>
    have hb := hbatch (by simp [hp])
    exact .at hp (.rearmLocal t r) (by rw [publishes_work, hp]) <|
      afterRearm_ends hp (Context.armWakePoll_batch.trans hb)
  case h_12 t hp =>
    exact .skip (afterBlock_moves (by rw [hp]; rfl)) (hbatch (by simp [hp])) (by rw [publishes_work, hp])
  case h_13 hp =>
    have ⟨_, _, ha⟩ := Context.abortInflightIo_eq w.ctx
    exact .at hp .abort (by rw [publishes_work, hp]) <|
      Ends.abort (w := { w with ctx := w.ctx.abortInflightIo }) hp
      (by simp only [ha, hbatch (by simp [hp])]) (by simp only [ha])
  all_goals
    next hp => simp [hp, Working] at hw

-- The steps that take an operation off the inflight list while the ring refers to it: a failed
-- submit of `consume_io_tasks` and `abort_inflight_io` with a non-empty list.
def Orderly (w : Worker) (i : Input) : Prop :=
  match w.pc with
  | .io _  => ¬w.ctx.FailsSubmit i.answer
  | .abort => w.ctx.inflight = []
  | _      => True

theorem Leaf.keeps {new : List OpId} {s : Context} (h : Leaf w.ctx i w.pc new s) (hs : w.Settled)
    (ha : w.ctx.Agree) (ho : w.Orderly i) : Context.Keeps w.ctx s new := by
  unfold Orderly at ho
  unfold Settled at hs
  generalize w.pc = pc at *
  cases h
  case skip              => exact .refl
  case enter             => exact Context.armWakePoll_keeps
  case rearm             => exact Context.armWakePoll_keeps
  case rearmLocal        => exact Context.armWakePoll_keeps
  case collect hcq       => exact Context.collectCqe_keeps _ ha hcq
  case dispatch          => exact Context.dispatchCqeTasks_keeps
  case fetchCpu          => exact Context.fetchCpuTask_keeps (hs (by simp))
  case exec hb           => exact Context.executeNext_keeps hb
  case timers            => exact Context.pushCpuList_keeps ..
  case fetch             => exact Context.pushCpuList_keeps ..
  case io                => exact Context.consumeIoTasks_keeps ha ho
  case abort             => exact Context.abortInflightIo_keeps ho

theorem Steps.settled : Steps w i w' → w'.Settled
  | .at _ _ _ ends => ends.settled

theorem Steps.looping : Steps w i w' → w'.pc.stage = .looping → w.pc.stage = .looping
  | .at _ _ _ ends => ends.looping

theorem Steps.agree (h : Steps w i w') (hs : w.Settled) (ha : w.ctx.Agree) (ho : w.Orderly i)
    (hf : w.ctx.Fresh (w.started i)) : w'.ctx.Agree := by
  have ⟨hp, leaf, published, ends⟩ := h
  exact ends.agree <| (Leaf.keeps (hp ▸ leaf) hs ha ho).agree ha (published ▸ publishes_fresh hf)

section Outside

theorem complete_named {r : Ring} {data : UserData} {result : Int} {flags : Nat}
    (h : data ∈ r.kernel) (op : OpId) :
    ({ r with kernel := r.kernel.erase data
              cq := r.cq ++ [{ userData := data, result, flags }] } : Ring).named.count op =
      r.named.count op := by
  simp only [Ring.named, List.map_append, List.map_cons, List.map_nil, names_append,
    List.count_append, count_names, List.count_cons, List.count_nil]
  by_cases hd : data = .operation op
  case pos =>
    subst hd
    have := List.count_pos_iff.mpr h
    rw [List.count_erase_self]
    simp
    omega
  case neg =>
    rw [List.count_erase_of_ne (Ne.symm hd)]
    simp [hd]

-- What everything but the worker does to the operations.
theorem outside_keeps (h : step w a = some w') (hw : ∀ i, a ≠ .work i)
    (hx : a = .queueExit → w.pc = .finished → w.ctx.Agree ∧ w.ctx.inflight = []) :
    w.ctx.Fresh (w.publishes a) ∧ Context.Keeps w.ctx w'.ctx (w.publishes a) := by
  cases a
  case work i => exact absurd rfl (hw i)
  case publishIo op rearm =>
    obtain ⟨hg, he⟩ := Option.ite_none_right_eq_some.mp h
    refine ⟨hg.2, Option.some.inj he ▸ ⟨fun o => ?_, fun _ => rfl⟩⟩
    simp only [publishes, publishesCpu, publishesIo, Context.held, Context.setOp, List.count_append,
      List.count_cons, List.count_nil]
    omega
  case publishCpu op =>
    obtain ⟨hg, he⟩ := Option.ite_none_right_eq_some.mp h
    refine ⟨hg.2, Option.some.inj he ▸ ⟨fun o => ?_, fun _ => rfl⟩⟩
    simp only [publishes, publishesCpu, publishesIo, Context.held, List.count_append,
      List.count_cons, List.count_nil]
    omega
  case takeIo =>
    refine ⟨fresh_nil, Option.some.inj h ▸ ⟨fun o => ?_, fun _ => rfl⟩⟩
    simp only [publishes, publishesCpu, publishesIo, Context.held, List.count_append,
      List.count_nil]
    omega
  case takeCpu =>
    refine ⟨fresh_nil, Option.some.inj h ▸ ⟨fun o => ?_, fun _ => rfl⟩⟩
    simp only [publishes, publishesCpu, publishesIo, Context.held, List.count_append,
      List.count_nil]
    omega
  case complete data result flags =>
    obtain ⟨hg, he⟩ := Option.ite_none_right_eq_some.mp h
    exact ⟨fresh_nil, Option.some.inj he ▸ Context.setRing_keeps (complete_named hg.2)⟩
  case stop =>
    simp only [step] at h
    split at h
    all_goals exact ⟨fresh_nil, Option.some.inj h ▸ ⟨fun _ => rfl, fun _ => rfl⟩⟩
  case close => exact ⟨fresh_nil, Option.some.inj h ▸ ⟨fun _ => rfl, fun _ => rfl⟩⟩
  case drainIo =>
    simp only [step] at h
    split at h
    case h_1 => cases h
    case h_2 op l hl =>
      obtain ⟨hg, he⟩ := Option.ite_none_right_eq_some.mp h
      refine ⟨fresh_nil, Option.some.inj he ▸ ⟨fun o => ?_, fun _ => rfl⟩⟩
      simp only [publishes, publishesCpu, publishesIo, Context.held, Context.execute,
        Context.completeSubmitStopped, Context.setOp, hl, List.map_cons, List.count_append,
        List.count_cons, List.count_nil]
      omega
  case drainCpu =>
    simp only [step] at h
    split at h
    case h_1 => cases h
    case h_2 op l hl =>
      obtain ⟨hg, he⟩ := Option.ite_none_right_eq_some.mp h
      refine ⟨fresh_nil, Option.some.inj he ▸ ⟨fun o => ?_, fun _ => rfl⟩⟩
      simp only [publishes, publishesCpu, publishesIo, Context.held, Context.execute, hl,
        List.map_cons, List.count_append, List.count_cons, List.count_nil]
      omega
  case run enabled =>
    obtain ⟨hg, he⟩ := Option.ite_none_right_eq_some.mp h
    split at he
    all_goals exact ⟨fresh_nil, Option.some.inj he ▸ ⟨fun _ => rfl, fun _ => rfl⟩⟩
  case queueExit =>
    simp only [step] at h
    split at h
    case h_1 => exact ⟨fresh_nil, Option.some.inj h ▸ ⟨fun _ => rfl, fun _ => rfl⟩⟩
    case h_2 hp =>
      obtain ⟨ha, hi⟩ := hx rfl hp
      refine ⟨fresh_nil, Option.some.inj h ▸ ⟨fun _ => rfl, fun op => ?_⟩⟩
      have hb := ha.balance op
      simp only [hi, List.count_nil] at hb ⊢
      rw [hb]
      rfl
    case h_3 => cases h

theorem outside_settled (h : step w a = some w') (hw : ∀ i, a ≠ .work i) (hs : w.Settled) :
    w'.Settled := by
  unfold Settled at *
  cases a
  case work i => exact absurd rfl (hw i)
  case run enabled =>
    have ⟨hg, he⟩ := Option.ite_none_right_eq_some.mp h
    have hb := hs (by simp [hg.1])
    split at he <;> exact Option.some.inj he ▸ fun _ => hb
  case queueExit =>
    simp only [step] at h
    split at h
    case h_1 hp => exact Option.some.inj h ▸ fun _ => hs (by simp [hp])
    case h_2 hp => exact Option.some.inj h ▸ fun _ => hs (by simp [hp])
    case h_3    => cases h
  all_goals
    simp only [step] at h
    repeat' split at h
    all_goals cases h
    all_goals exact hs

theorem outside_stage (h : step w a = some w') (hw : ∀ i, a ≠ .work i) :
    (w'.pc.stage = .looping → w.pc.stage = .looping) ∧
      (w'.pc.stage = .aborted → w.pc.stage = .aborted ∧ w'.ctx.inflight = w.ctx.inflight) := by
  cases a
  case work i => exact absurd rfl (hw i)
  case run enabled =>
    have ⟨hg, he⟩ := Option.ite_none_right_eq_some.mp h
    split at he
    all_goals
      cases he
      exact ⟨fun _ => by rw [hg.1]; rfl, fun h => by cases h⟩
  case queueExit =>
    simp only [step] at h
    split at h
    case h_1    => exact Option.some.inj h ▸ ⟨fun h => (by cases h), fun h => (by cases h)⟩
    case h_2 hp =>
      exact Option.some.inj h ▸ ⟨fun h => (by cases h), fun _ => ⟨(by rw [hp]; rfl), rfl⟩⟩
    case h_3    => cases h
  all_goals
    simp only [step] at h
    repeat' split at h
    all_goals cases h
    all_goals exact ⟨id, fun h => ⟨h, rfl⟩⟩

end Outside

theorem work_steps (h : step w (.work i) = some w') (hs : w.Settled) :
    Steps w i w' ∧ w.ctx.Fresh (w.started i) := by
  have ⟨hg, he⟩ := Option.ite_none_right_eq_some.mp h
  exact ⟨Option.some.inj he ▸ workStep_steps hg.1 hs, hg.2⟩

theorem step_settled (h : step w a = some w') (hs : w.Settled) : w'.Settled := by
  by_cases hw : ∃ i, a = .work i
  case pos =>
    have ⟨i, ha⟩ := hw
    subst ha
    exact (work_steps h hs).1.settled
  case neg => exact outside_settled h (fun i hi => hw ⟨i, hi⟩) hs

theorem step_looping (h : step w a = some w') (hs : w.Settled) (hl : w'.pc.stage = .looping) :
    w.pc.stage = .looping := by
  by_cases hw : ∃ i, a = .work i
  case pos =>
    have ⟨i, ha⟩ := hw
    subst ha
    exact (work_steps h hs).1.looping hl
  case neg => exact (outside_stage h fun i hi => hw ⟨i, hi⟩).1 hl

theorem step_agree (h : step w a = some w') (hs : w.Settled) (ha : w.ctx.Agree)
    (ho : ∀ i, a = .work i → w.Orderly i)
    (hx : a = .queueExit → w.pc = .finished → w.ctx.inflight = []) : w'.ctx.Agree := by
  by_cases hw : ∃ i, a = .work i
  case pos =>
    have ⟨i, he⟩ := hw
    subst he
    have ⟨steps, fresh⟩ := work_steps h hs
    exact steps.agree hs ha (ho i rfl) fresh
  case neg =>
    have ⟨fresh, keeps⟩ := outside_keeps h (fun i hi => hw ⟨i, hi⟩) fun he hp => ⟨ha, hx he hp⟩
    exact keeps.agree ha fresh

end Worker
end Bnio.Uring
