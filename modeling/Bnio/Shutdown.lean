import Bnio.Kqueue.Shutdown
import Bnio.Uring.Shutdown

namespace Bnio

-- On io_uring from every state the worker can reach while no submit of `consume_io_tasks` fails, and on
-- kqueue from every state it can reach: once `finish` has been called, or `queue_exit` on a context
-- that has not finished, the worker gets to the end, leaves nothing behind and executes everything
-- once, whatever the receivers publish on the way.
theorem shutdown_drains (entries : Nat) (options : Uring.Options) (channelOpen : Uring.Channel → Bool)
    (as bs : List Uring.Action) (w w' : Uring.Worker) (kqueueOptions : Kqueue.Options)
    (hasShared : Bool) (cs ds : List Kqueue.WorkerAction) (v v' : Kqueue.Worker) :
    (System.Along Uring.Worker.step Uring.Worker.SubmitsLooping
        (Uring.Worker.init entries options channelOpen) as →
      System.run Uring.Worker.step (Uring.Worker.init entries options channelOpen) as = some w →
      w.EntersShutdown → System.Along Uring.Worker.step Uring.Worker.Undisturbed w bs →
      System.run Uring.Worker.step w bs = some w' → w.ShutsDown bs w') ∧
    (System.run Kqueue.Worker.step (Kqueue.Worker.init kqueueOptions hasShared) cs = some v →
      v.EntersShutdown → System.Along Kqueue.Worker.step Kqueue.Worker.Undisturbed v ds →
      System.run Kqueue.Worker.step v ds = some v' → v.ShutsDown ds v') := by
  constructor
  · intro submits reach enters along hr
    have hc : w.Conserving := submits.invariant (fun h good hs => (h.step good hs).1)
      Uring.Worker.init_conserving reach
    exact (hc.tears enters).shutsDown along hr
  · intro reach enters along hr
    have hk : v.Kept := System.invariant (fun h hs => (h.next hs).1)
      (Kqueue.Worker.init_kept kqueueOptions hasShared) reach
    exact (hk.tears enters).shutsDown along hr

namespace Uring.Worker

-- The context is stopped while an operation is inflight. `finish` aborts it, and its receiver starts an
-- I/O operation and a CPU task.
def stopInflight : List Action :=
  publishAndSubmit 1 ++ [.close] ++ List.replicate 5 (.work {})

def abortAndPublish : List Action :=
  List.replicate 6 (.work {}) ++ [.work { publishedIo := [(2, .native)], publishedCpu := [3] }] ++
    List.replicate 16 (.work {})

end Uring.Worker

namespace Kqueue.Worker

-- The same on kqueue.
def stopInflight : List WorkerAction :=
  [.publishIo 0 (.poll 3 0x5), .run, .work {}, .work {}, .work {}, .close] ++
    List.replicate 6 (.work {})

def abortAndPublish : List WorkerAction :=
  List.replicate 8 (.work {}) ++ [.work { publishedIo := [(2, .poll 4 0x1)], publishedCpu := [3] }] ++
    List.replicate 16 (.work {})

end Kqueue.Worker

theorem shutdown_drains_abortAndPublish :
    ∃ w w' v v', System.run Uring.Worker.step (Uring.Worker.init 4 {} fun _ => true)
        Uring.Worker.stopInflight = some w ∧
      System.run Uring.Worker.step w Uring.Worker.abortAndPublish = some w' ∧ w'.pc = .finished ∧
      System.run Kqueue.Worker.step (Kqueue.Worker.init {} true) Kqueue.Worker.stopInflight = some v ∧
      System.run Kqueue.Worker.step v Kqueue.Worker.abortAndPublish = some v' ∧ v'.pc = .finished ∧
      w.ShutsDown Uring.Worker.abortAndPublish w' ∧ v.ShutsDown Kqueue.Worker.abortAndPublish v' := by
  obtain ⟨w, hw, hp⟩ := Option.any_eq_true .. |>.mp (by decide +kernel :
    (System.run Uring.Worker.step (Uring.Worker.init 4 {} fun _ => true)
      Uring.Worker.stopInflight).any fun w => w.EntersShutdown ∧
        System.Along Uring.Worker.step Uring.Worker.Undisturbed w Uring.Worker.abortAndPublish ∧
        (System.run Uring.Worker.step w Uring.Worker.abortAndPublish).map Uring.Worker.pc =
          some .finished)
  obtain ⟨v, hv, hq⟩ := Option.any_eq_true .. |>.mp (by decide +kernel :
    (System.run Kqueue.Worker.step (Kqueue.Worker.init {} true) Kqueue.Worker.stopInflight).any
      fun v => v.EntersShutdown ∧
        System.Along Kqueue.Worker.step Kqueue.Worker.Undisturbed v Kqueue.Worker.abortAndPublish ∧
        (System.run Kqueue.Worker.step v Kqueue.Worker.abortAndPublish).map Kqueue.Worker.pc =
          some .finished)
  obtain ⟨ew, aw, fw⟩ := of_decide_eq_true hp
  obtain ⟨ev, av, fv⟩ := of_decide_eq_true hq
  obtain ⟨w', hw', pw⟩ := Option.map_eq_some_iff.mp fw
  obtain ⟨v', hv', pv⟩ := Option.map_eq_some_iff.mp fv
  obtain ⟨uring, kqueue⟩ := shutdown_drains 4 {} (fun _ => true) Uring.Worker.stopInflight
    Uring.Worker.abortAndPublish w w' {} true Kqueue.Worker.stopInflight
    Kqueue.Worker.abortAndPublish v v'
  exact ⟨w, w', v, v', hw, hw', pw, hv, hv', pv, uring (by decide +kernel) hw ew aw hw',
    kqueue hv ev av hv'⟩

namespace Uring.Worker

-- A submit fails just before the context is stopped: the operation is in the CPU queue, and its SQE is
-- still in the SQ.
def failAndStop : List Action :=
  [.run 0, .work { answer := 1 }, .work { answer := 1 }] ++ List.replicate 8 (.work {}) ++
    [.publishIo 1 .native, .work { answer := -enomem }, .close, .work {}]

-- In `finish` the poll of the wake channel is armed again, and its submit hands the SQE to the kernel.
def rearmAndFinish : List Action :=
  [.complete (.wake .shared) 1 0, .work { answer := 2 }, .complete (.operation 1) 5 0] ++
    List.replicate 18 (.work {})

-- The operation is executed twice.
theorem not_shutsDown_of_failed_submit :
    ∃ w w', System.run step (init 4 {} fun _ => true) failAndStop = some w ∧ w.EntersShutdown ∧
      System.Along step Undisturbed w rearmAndFinish ∧ System.run step w rearmAndFinish = some w' ∧
      w'.pc = .finished ∧ w.ctx.localCpu = [1] ∧ w'.ctx.executed.map Delivery.op = [1, 1] ∧
      ¬w.ShutsDown rearmAndFinish w' := by
  obtain ⟨w, hr, hp⟩ := Option.any_eq_true .. |>.mp (by decide +kernel :
    (System.run step (init 4 {} fun _ => true) failAndStop).any fun w => w.EntersShutdown ∧
      System.Along step Undisturbed w rearmAndFinish ∧ w.ctx.localCpu = [1] ∧
      (System.run step w rearmAndFinish).map
        (fun w => (w.pc, w.ctx.executed.map Delivery.op, w.ctx.taken)) = some (.finished, [1, 1], []))
  obtain ⟨he, ha, hl, hf⟩ := of_decide_eq_true hp
  obtain ⟨w', hr', hw⟩ := Option.map_eq_some_iff.mp hf
  simp only [Prod.mk.injEq] at hw
  refine ⟨w, w', hr, he, ha, hr', hw.1, hl, hw.2.1, fun h => ?_⟩
  have hone := h.once hw.1 1 (by simp [Context.queued, hl]) (by simp [hw])
  rw [hw.2.1] at hone
  exact absurd hone (by decide)

end Uring.Worker
end Bnio
