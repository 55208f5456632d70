import Bnio.Kqueue.Serving
import Bnio.Posix.ClosedLoop
import Bnio.Uring.Serving

namespace Bnio

open Posix.ClosedLoop

variable {τ κ : Type} [DecidableEq τ] [DecidableEq κ]

-- The workers of both backends in the loop of publishers and stop. On io_uring from every state the
-- worker can reach while no submit of `consume_io_tasks` fails, and on kqueue from every state it can
-- reach: a step of the worker is a run of the loop in which only its own thread makes moves, and at
-- the end of `finish` its native context holds nothing.
theorem workers_follow (entries : Nat) (options : Uring.Options) (channelOpen : Uring.Channel → Bool)
    (as : List Uring.Action) (w w' : Uring.Worker) (i : Uring.Input) (kqueueOptions : Kqueue.Options)
    (hasShared : Bool) (bs : List Kqueue.WorkerAction) (v v' : Kqueue.Worker) (j : Kqueue.Input)
    (c : κ) (t : τ) (s : State τ κ Nat) (hs : s.Serving c t) :
    (System.Along Uring.Worker.step Uring.Worker.SubmitsLooping
        (Uring.Worker.init entries options channelOpen) as →
      System.run Uring.Worker.step (Uring.Worker.init entries options channelOpen) as = some w →
      (w.SubmitsLooping (.work i) → Uring.Worker.step w (.work i) = some w' → s.Holds t w.ctx.custody →
        s.Fresh (w.publishes (.work i)) → s.Works c t w.ctx.custody w'.ctx.custody) ∧
      (w.pc = .finished → w.ctx.custody.held = 0)) ∧
    (System.run Kqueue.Worker.step (Kqueue.Worker.init kqueueOptions hasShared) bs = some v →
      (Kqueue.Worker.step v (.work j) = some v' → s.Holds t v.custody →
        s.Fresh (v.publishes (.work j)) → s.Works c t v.custody v'.custody) ∧
      (v.pc = .finished → v.custody.held = 0)) := by
  constructor
  · intro submits reach
    have hend : w.Ending := submits.invariant (fun h good hs => h.step good hs)
      Uring.Worker.init_ending reach
    refine ⟨fun good hstep hk hf => ?_, fun hp => Multiset.coe_eq_zero _ |>.mpr (hend.finished hp)⟩
    exact hk.works hs (hend.conserving.serves good hstep) hf
  · intro reach
    have hclose : v.Closing := System.invariant (fun h hs => h.step hs)
      (Kqueue.Worker.init_closing kqueueOptions hasShared) reach
    refine ⟨fun hstep hk hf => ?_, hclose.finished⟩
    exact hk.works hs (hclose.kept.serves hstep) hf

-- A worker (thread 1) is in its loop, and another thread has published an operation.
def publishToWorker : List (Action Nat Nat Nat) :=
  [.elect (.callRun 1 0), .elect (.canStartRun 1 false), .elect (.openNative 1 false false),
    .publish 2 .cpu 7, .lockSubmit 2, .checkLifeState 2, .push 2]

namespace Uring.Worker

-- The worker is about to fetch it.
def publishAndRun : List Action :=
  [.publishCpu 7, .run 0, .work { answer := 1 }, .work { answer := 1 }, .work {}]

end Uring.Worker

namespace Kqueue.Worker

def publishAndRun : List WorkerAction :=
  [.publishCpu 7, .run]

end Kqueue.Worker

theorem workers_follow_publishAndRun :
    ∃ s w w' v v', System.run (State.step 0) {} publishToWorker = some s ∧
      System.run Uring.Worker.step (Uring.Worker.init 4 {} fun _ => true) Uring.Worker.publishAndRun =
        some w ∧ Uring.Worker.step w (.work {}) = some w' ∧
      System.run Kqueue.Worker.step (Kqueue.Worker.init {} true) Kqueue.Worker.publishAndRun = some v ∧
      Kqueue.Worker.step v (.work {}) = some v' ∧
      s.Works 0 1 w.ctx.custody w'.ctx.custody ∧ s.Works 0 1 v.custody v'.custody := by
  obtain ⟨s, hs, hp⟩ := Option.any_eq_true .. |>.mp (by decide +kernel :
    (System.run (State.step 0) {} publishToWorker).any fun s =>
      s.Serving 0 1 ∧ s.Holds 1 { sharedCpu := [7] })
  obtain ⟨w, hw, hq⟩ := Option.any_eq_true .. |>.mp (by decide +kernel :
    (System.run Uring.Worker.step (Uring.Worker.init 4 {} fun _ => true) Uring.Worker.publishAndRun).any
      fun w => w.SubmitsLooping (.work {}) ∧ (Uring.Worker.step w (.work {})).isSome ∧
        w.publishes (.work {}) = [] ∧ w.ctx.custody = { sharedCpu := [7] })
  obtain ⟨v, hv, hr⟩ := Option.any_eq_true .. |>.mp (by decide +kernel :
    (System.run Kqueue.Worker.step (Kqueue.Worker.init {} true) Kqueue.Worker.publishAndRun).any
      fun v => (Kqueue.Worker.step v (.work {})).isSome ∧
        v.publishes (.work {}) = [] ∧ v.custody = { sharedCpu := [7] })
  obtain ⟨hserv, hholds⟩ := of_decide_eq_true hp
  obtain ⟨hsub, hstep, hpub, hk⟩ := of_decide_eq_true hq
  obtain ⟨hstep', hpub', hk'⟩ := of_decide_eq_true hr
  obtain ⟨w', hw'⟩ := Option.isSome_iff_exists.mp hstep
  obtain ⟨v', hv'⟩ := Option.isSome_iff_exists.mp hstep'
  have hfresh : s.Fresh [] := ⟨.nil, by simp⟩
  obtain ⟨uring, kqueue⟩ := workers_follow 4 {} (fun _ => true) Uring.Worker.publishAndRun w w' {} {} true
    Kqueue.Worker.publishAndRun v v' {} 0 1 s hserv
  exact ⟨s, w, w', v, v', hs, hw, hw', hv, hv',
    (uring (by decide +kernel) hw).1 hsub hw' (hk ▸ hholds) (by rw [hpub]; exact hfresh),
    (kqueue hv).1 hv' (hk' ▸ hholds) (by rw [hpub']; exact hfresh)⟩

end Bnio
