import Bnio.Uring.Run

namespace Bnio.Uring

namespace Context

variable {s : Context}

-- The operations that have been handed to a CPU queue, here or on another worker.
def handed (s : Context) : List OpId :=
  s.cqeTasks ++ s.localCpu ++ s.sharedCpu ++ s.batch ++ s.executed.map Delivery.op ++ s.taken

-- The SQ, the kernel and the CQ refer to inflight operations only, none of which was handed over,
-- and no operation is executed twice.
structure Owned (s : Context) : Prop where
  inflight : ∀ op ∈ s.ring.named, op ∈ s.inflight
  handed : ∀ op ∈ s.ring.named, op ∉ s.handed
  once : (s.executed.map Delivery.op ++ s.taken).Nodup

theorem Agree.not_mem_handed (h : s.Agree) {op : OpId} (hop : op ∈ s.inflight) :
    op ∉ s.handed := by
  have h₁ := h.once op
  have h₂ := List.count_pos_iff.mpr hop
  rw [← List.count_pos_iff]
  simp only [held, Context.handed, List.count_append] at *
  omega

theorem Agree.owned (h : s.Agree) : s.Owned where
  inflight _ hop := h.mem_inflight hop
  handed _ hop := h.not_mem_handed (h.mem_inflight hop)
  once := List.nodup_iff_count_le_one.mpr fun op => by
    have := h.once op
    simp only [held, List.count_append] at *
    omega

end Context

namespace Worker

variable {w w' : Worker} {a : Action} {as : List Action}

-- A worker no thread has run yet, with any capacity of the SQ, any options and any outcome of
-- opening the wake channels.
def init (entries : Nat) (options : Options) (channelOpen : Channel → Bool) : Worker where
  ctx := { ring := { entries }, options, channelOpen }

theorem init_agree {entries : Nat} {options : Options} {channelOpen : Channel → Bool} :
    (init entries options channelOpen).ctx.Agree :=
  ⟨by simp [init, Context.held], by simp [init, Ring.named]⟩

theorem init_settled {entries : Nat} {options : Options} {channelOpen : Channel → Bool} :
    (init entries options channelOpen).Settled :=
  fun _ => rfl

section Looping

-- Up to `finish`.
def OwnedLooping (w : Worker) : Prop :=
  w.pc.stage = .looping → w.ctx.Owned

-- No submit of `consume_io_tasks` fails while the worker is in its loop.
def SubmitsLooping (w : Worker) (a : Action) : Prop :=
  match w.pc, a with
  | .io site, .work i => (Pc.io site).stage = .looping → ¬w.ctx.FailsSubmit i.answer
  | _, _              => True

instance : Decidable (w.SubmitsLooping a) := by
  unfold SubmitsLooping
  split <;> infer_instance

structure LoopingInv (w : Worker) : Prop where
  agree : w.pc.stage = .looping → w.ctx.Agree
  settled : w.Settled

theorem LoopingInv.step (h : w.LoopingInv) (good : w.SubmitsLooping a)
    (hs : step w a = some w') : w'.LoopingInv where
  settled := step_settled hs h.settled
  agree hl := by
    have hl' := step_looping hs h.settled hl
    refine step_agree hs h.settled (h.agree hl') (fun i ha => ?_) fun _ hp => ?_
    · unfold Orderly
      split
      case h_1 site hp =>
        simp only [SubmitsLooping, ha, hp] at good
        exact good (hp ▸ hl')
      case h_2 hp      => simp [hp, Pc.stage] at hl'
      case h_3         => trivial
    · simp [hp, Pc.stage] at hl'

theorem afterIo_of_looping (w : Worker) {site : Site} (h : (Pc.io site).stage = .looping) :
    ∃ budget, (w.afterIo true site).ctx = { w.ctx with localTaskBudget := budget } ∧
      (w.afterIo true site).pc.stage = .looping := by
  cases site
  case drain => simp [Pc.stage] at h
  all_goals exact ⟨_, rfl, rfl⟩

-- A failed submit is seen at once.
theorem submitsLooping_of_owned (hs : step w a = some w') (ho : w'.OwnedLooping) :
    w.SubmitsLooping a := by
  unfold SubmitsLooping
  split
  case h_2 => trivial
  case h_1 site i hp =>
    intro hl hf
    have ⟨_, he⟩ := Option.ite_none_right_eq_some.mp hs
    have ⟨hfound, op, hnamed, hcpu⟩ := Context.consumeIoTasks_of_failsSubmit hf
    have hw : { w with ctx := (w.ctx.consumeIoTasks i.answer).1 }.afterIo true site = w' := by
      rw [← Option.some.inj he, workStep, hp]
      simp only [hfound]
    have ⟨_, hctx, hstage⟩ := afterIo_of_looping { w with ctx := (w.ctx.consumeIoTasks i.answer).1 } hl
    rw [hw] at hctx hstage
    have hnot := (ho hstage).handed op (by rw [hctx]; exact hnamed)
    exact hnot (by simp [hctx, Context.handed, hcpu])

-- The worker and the kernel agree in every state up to `finish` exactly in the runs in which no
-- submit of `consume_io_tasks` fails.
theorem owned_looping_iff_submits (entries : Nat) (options : Options)
    (channelOpen : Channel → Bool) (h : System.run step (init entries options channelOpen) as = some w) :
    System.Always step OwnedLooping (init entries options channelOpen) as ↔
      System.Along step SubmitsLooping (init entries options channelOpen) as :=
  System.always_iff_along LoopingInv.step (fun h hl => (h.agree hl).owned)
    (fun _ hs => submitsLooping_of_owned hs) ⟨fun _ => init_agree, init_settled⟩ h

-- An operation is published, the worker enters its loop and gets to `consume_io_tasks`, where the
-- kernel answers the submit.
def publishAndSubmit (answer : Int) : List Action :=
  [.publishIo 1 .native, .run 0, .work { answer := 1 }, .work { answer := 1 }, .work {}, .work {},
   .work {}, .work { answer }]

theorem owned_looping_of_submitted : ∃ w,
    System.run step (init 4 {} fun _ => true) (publishAndSubmit 1) = some w ∧
      System.Always step OwnedLooping (init 4 {} fun _ => true) (publishAndSubmit 1) :=
  have ⟨w, h⟩ := Option.isSome_iff_exists.mp
    (by decide : (System.run step (init 4 {} fun _ => true) (publishAndSubmit 1)).isSome)
  ⟨w, h, (owned_looping_iff_submits 4 {} _ h).mpr (by decide)⟩

-- The submit fails: the operation is in the CPU queue and its SQE is still in the SQ.
theorem not_owned_looping_of_failed_submit :
    ¬System.Always step OwnedLooping (init 4 {} fun _ => true) (publishAndSubmit (-enomem)) := by
  intro always
  have ⟨w, hr, hw⟩ := Option.map_eq_some_iff.mp
    (by decide : (System.run step (init 4 {} fun _ => true) (publishAndSubmit (-enomem))).map
      (fun w => (w.pc.stage, w.ctx.ring.named, w.ctx.localCpu)) = some (.looping, [1], [1]))
  simp only [Prod.mk.injEq] at hw
  have ho := always.last hr hw.1
  exact ho.handed 1 (by simp [hw]) (by simp [Context.handed, hw])

end Looping

section Handback

-- No SQE, kernel request or pending completion refers to an operation whose receiver was called.
def HandedBack (w : Worker) : Prop :=
  ∀ d ∈ w.ctx.executed, d.op ∉ w.ctx.ring.named

-- No submit of `consume_io_tasks` fails, and `abort_inflight_io` finds nothing inflight.
def Patient (w : Worker) : Action → Prop
  | .work i => w.Orderly i
  | _       => True

instance : Decidable (w.Patient a) := by
  unfold Patient Orderly
  repeat' split
  all_goals infer_instance

structure HandbackInv (w : Worker) : Prop where
  agree : w.ctx.Agree
  settled : w.Settled
  aborted : w.pc.stage = .aborted → w.ctx.inflight = []

theorem HandbackInv.handedBack (h : w.HandbackInv) : w.HandedBack := by
  intro d hd hop
  refine h.agree.owned.handed d.op hop ?_
  simp only [Context.handed, List.mem_append, List.mem_map]
  exact .inl (.inr ⟨d, hd, rfl⟩)

-- Only `consume_io_tasks` tracks operations.
theorem Leaf.inflight_eq_nil {s s' : Context} {i : Input} {pc : Pc} {new : List OpId}
    (h : Leaf s i pc new s') (hio : ∀ site, pc ≠ .io site) (hi : s.inflight = []) :
    s'.inflight = [] := by
  cases h
  case skip            => exact hi
  case enter           => exact Context.armWakePoll_inflight.trans hi
  case rearm           => exact Context.armWakePoll_inflight.trans hi
  case rearmLocal      => exact Context.armWakePoll_inflight.trans hi
  case collect hcq     => exact Context.collectCqe_inflight_eq_nil hi
  case dispatch        =>
    have ⟨_, _, _, h⟩ := Context.dispatchCqeTasks_eq s
    rw [h, hi]
  case fetchCpu        => exact Context.fetchCpuTask_inflight.trans hi
  case exec            =>
    have ⟨_, _, _, _, _, h⟩ := Context.executeNext_eq s i
    rw [h, hi]
  case timers          => rw [Context.pushCpuList_eq, hi]
  case fetch           => rw [Context.pushCpuList_eq, hi]
  case io site         => exact absurd rfl (hio site)
  case abort           =>
    have ⟨_, _, h⟩ := Context.abortInflightIo_eq s
    rw [h]

theorem work_aborted {i : Input} (h : step w (.work i) = some w') (hs : w.Settled)
    (hi : w.pc.stage = .aborted → w.ctx.inflight = []) (ha : w'.pc.stage = .aborted) :
    w'.ctx.inflight = [] := by
  have ⟨⟨hp, leaf, _, ends⟩, _⟩ := work_steps h hs
  subst hp
  by_cases hio : ∃ site, w.pc = .io site
  case neg =>
    exact ends.aborted (fun hst => leaf.inflight_eq_nil (fun site hp => hio ⟨site, hp⟩) (hi hst)) ha
  case pos =>
    have ⟨site, hp⟩ := hio
    have ⟨_, he⟩ := Option.ite_none_right_eq_some.mp h
    have hw : { w with ctx := (w.ctx.consumeIoTasks i.answer).1 }.afterIo
        (w.ctx.consumeIoTasks i.answer).2 site = w' := by
      rw [← Option.some.inj he, workStep, hp]
    have moves := afterIo_moves (w := { w with ctx := (w.ctx.consumeIoTasks i.answer).1 })
      (b := (w.ctx.consumeIoTasks i.answer).2) (by rw [← hp])
    rw [hw] at moves
    rw [moves.inflight]
    cases hfound : (w.ctx.consumeIoTasks i.answer).2
    case false => exact (Context.consumeIoTasks_inflight hfound).trans (hi (moves.aborted ha))
    case true  =>
      -- New work sends the worker back to `abort_inflight_io`.
      rw [hfound] at hw
      subst hw
      cases site
      case drain => cases ha
      all_goals exact absurd (moves.aborted ha) (by simp [hp, Pc.stage])

theorem step_aborted (h : step w a = some w') (hs : w.Settled)
    (hi : w.pc.stage = .aborted → w.ctx.inflight = []) (ha : w'.pc.stage = .aborted) :
    w'.ctx.inflight = [] := by
  by_cases hw : ∃ i, a = .work i
  case pos =>
    have ⟨i, he⟩ := hw
    subst he
    exact work_aborted h hs hi ha
  case neg =>
    have ⟨hst, heq⟩ := (outside_stage h fun i he => hw ⟨i, he⟩).2 ha
    exact heq.trans (hi hst)

theorem HandbackInv.step (h : w.HandbackInv) (good : w.Patient a) (hs : step w a = some w') :
    w'.HandbackInv where
  settled := step_settled hs h.settled
  aborted := step_aborted hs h.settled h.aborted
  agree := by
    refine step_agree hs h.settled h.agree (fun i ha => ?_) fun _ hp => h.aborted (by rw [hp]; rfl)
    subst ha
    exact good

-- In a run in which every submit succeeds and every abort finds an empty inflight list, no receiver
-- is called before the kernel has let go of the operation, and it never gets hold of it again.
theorem handedBack_of_patient (entries : Nat) (options : Options) (channelOpen : Channel → Bool)
    (h : System.Along step Patient (init entries options channelOpen) as) :
    System.Always step HandedBack (init entries options channelOpen) as :=
  h.always HandbackInv.step HandbackInv.handedBack ⟨init_agree, init_settled, fun _ => rfl⟩

-- The kernel completes the operation before the context is stopped.
def completeAndStop : List Action :=
  publishAndSubmit 1 ++ [.complete (.operation 1) 7 0, .close] ++ List.replicate 17 (.work {})

theorem handedBack_of_completed :
    System.Along step Patient (init 4 {} fun _ => true) completeAndStop ∧
      System.Always step HandedBack (init 4 {} fun _ => true) completeAndStop :=
  ⟨by decide, handedBack_of_patient 4 {} _ (by decide)⟩

-- The context is stopped while the kernel holds the operation. Its receiver is called with
-- `operation_canceled`, and the kernel holds it still.
theorem not_handedBack_of_stop : ¬System.Always step HandedBack (init 4 {} fun _ => true)
    (publishAndSubmit 1 ++ [.close] ++ List.replicate 12 (.work {})) := by
  intro always
  have ⟨w, hr, hw⟩ := Option.map_eq_some_iff.mp
    (by decide : (System.run step (init 4 {} fun _ => true)
        (publishAndSubmit 1 ++ [.close] ++ List.replicate 12 (.work {}))).map
      (fun w => (w.ctx.executed, w.ctx.ring.kernel)) =
        some ([⟨1, .stopped, -ecanceled, 0⟩], [.wake .shared, .wake .worker, .operation 1]))
  simp only [Prod.mk.injEq] at hw
  exact always.last hr _ (hw.1 ▸ List.mem_singleton_self _) (by simp [Ring.named, hw])

end Handback

end Worker
end Bnio.Uring
