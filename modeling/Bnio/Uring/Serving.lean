import Bnio.Posix.Custody
import Bnio.Uring.Conservation

-- The io_uring worker does what a worker may do: each of its steps is a sequence of moves, and at the end
-- of `finish` it holds nothing.
namespace Bnio.Uring

open Posix (Custody)

namespace Context

variable {s s' : Context} {new : List OpId} {answer : Int} {cqe : Cqe}

-- What the native context holds.
def custody (s : Context) : Custody OpId where
  sharedCpu := s.sharedCpu
  sharedIo  := s.sharedIo
  held      := s.own
  executed  := s.executed.map Delivery.op

theorem custody_total (h : ∀ op, s'.held.count op = s.held.count op + new.count op)
    (ht : s'.taken = s.taken) : s'.custody.total = s.custody.total + new := by
  ext op
  have := h op
  simp only [held, ht, List.count_append] at this
  simp only [custody, own, Custody.total, Multiset.count_add, Multiset.coe_count, List.count_append]
  omega

theorem serves_receive (hcpu : s'.sharedCpu = s.sharedCpu) (hio : s'.sharedIo = s.sharedIo)
    (hx : s'.executed = s.executed) (ht : s'.custody.total = s.custody.total + new) :
    s.custody.Serves new s'.custody :=
  .receive hcpu hio (by simp only [custody, hx]) ht

theorem trackPreparedBatch_sharedIo {ops : List OpId} :
    (s.trackPreparedBatch ops).sharedIo = s.sharedIo := by
  induction ops generalizing s
  case nil          => rfl
  case cons op l hi =>
    have h : (s.addInflight op).sharedIo = s.sharedIo := by
      unfold addInflight
      split <;> rfl
    exact (hi (s := s.addInflight op)).trans h

theorem finishPass_sharedIo {p : Pass} : (finishPass p answer).sharedIo = p.ctx.sharedIo := by
  have hs : (p.ctx.submitAndTrackPrepared p.prepared answer).1.sharedIo = p.ctx.sharedIo := by
    unfold submitAndTrackPrepared submitRing
    repeat' split
    all_goals first | rfl | exact trackPreparedBatch_sharedIo
  have hf : ∀ (t : Context) ops result, (t.failIoList ops result).sharedIo = t.sharedIo := by
    intro t ops result
    obtain ⟨f, h⟩ := failIoList_eq t ops result
    rw [h]
  unfold finishPass
  generalize p.ctx.submitAndTrackPrepared p.prepared answer = r at hs ⊢
  simp only
  split
  case isFalse => exact hs
  case isTrue  =>
    split
    case isTrue  => exact (hf ..).trans hs
    case isFalse => rw [hf, hf, hs]

-- The shared I/O queue is taken as a whole or left alone.
theorem consumeIoTasks_sharedIo (s : Context) (answer : Int) :
    (s.consumeIoTasks answer).1.sharedIo = s.sharedIo ∨ (s.consumeIoTasks answer).1.sharedIo = [] := by
  have hp : s.preparePass.ctx.sharedIo = s.sharedIo ∨ s.preparePass.ctx.sharedIo = [] := by
    simp only [preparePass]
    unfold Pass.takeShared
    split
    case isTrue  => exact .inr (Pass.prepare_queues ..).2.2
    case isFalse => exact .inl ((Pass.takeLocal_queues _).2.trans (Pass.prepare_queues ..).2.2)
  unfold consumeIoTasks
  split
  case isTrue  => exact .inr rfl
  case isFalse =>
    simp only
    split
    case isTrue  => exact finishPass_sharedIo.symm ▸ hp
    case isFalse => exact hp

theorem collectCqe_sharedIo : (s.collectCqe cqe answer).sharedIo = s.sharedIo := by
  unfold collectCqe
  split
  case h_1 c _ =>
    obtain ⟨_, _, he⟩ := armWakePoll_eq
      { s with pollPending := Function.update s.pollPending c false } c answer
    rw [he]
  case h_2 =>
    unfold enqueueCqeTask
    simp only
    split <;> rfl

theorem armWakePoll_serves (c : Channel)
    (ht : (s.armWakePoll c answer).1.custody.total = s.custody.total + new) :
    s.custody.Serves new (s.armWakePoll c answer).1.custody := by
  obtain ⟨_, _, he⟩ := armWakePoll_eq s c answer
  rw [he] at ht ⊢
  exact serves_receive rfl rfl rfl ht

-- `dispatch_cqe_tasks` keeps the tasks or spills all of them.
theorem dispatchCqeTasks_serves (ht : s.dispatchCqeTasks.custody.total = s.custody.total + new) :
    s.custody.Serves new s.dispatchCqeTasks.custody := by
  have hpush :
      s.cqeTasks.foldl (fun l op => op :: l) s.sharedCpu = s.cqeTasks.reverse ++ s.sharedCpu := by
    simp
  have hle : (s.cqeTasks : Multiset OpId) ≤ s.custody.held := Multiset.le_iff_count.mpr fun op => by
    simp only [custody, own, Multiset.coe_count, List.count_append]
    omega
  unfold dispatchCqeTasks at ht ⊢
  simp only [pushCpuList_eq] at ht ⊢
  split at ht
  case isTrue h =>
    rw [if_pos h]
    exact serves_receive rfl rfl rfl ht
  case isFalse h =>
    rw [if_neg h]
    split at ht
    case isTrue h =>
      rw [if_pos h]
      split at ht
      case isTrue h  => exact (if_pos h).symm ▸ serves_receive rfl rfl rfl ht
      case isFalse h => exact (if_neg h).symm ▸ serves_receive rfl rfl rfl ht
    case isFalse h =>
      rw [if_neg h]
      exact .after (m := .spill s.cqeTasks) (if_pos hle) rfl hpush rfl rfl ht

theorem fetchCpuTask_serves (ht : s.fetchCpuTask.custody.total = s.custody.total + new) :
    s.custody.Serves new s.fetchCpuTask.custody := by
  unfold fetchCpuTask at ht ⊢
  split at ht
  case isTrue h  => exact (if_pos h).symm ▸ serves_receive rfl rfl rfl ht
  case isFalse h =>
    rw [if_neg h]
    exact .after (m := .takeCpu) rfl rfl rfl rfl rfl ht

theorem executeNext_serves {i : Input} (hb : s.batch ≠ [])
    (ht : (s.executeNext i).custody.total = s.custody.total + new) :
    s.custody.Serves new (s.executeNext i).custody := by
  obtain ⟨op, l, h⟩ := List.exists_cons_of_ne_nil hb
  obtain ⟨_, _, he, -⟩ := executeNext_cons (i := i) h
  rw [he] at ht ⊢
  have hop : op ∈ s.custody.held := by simp [custody, own, h]
  exact .after (m := .execute op) (if_pos hop) rfl rfl rfl (by simp [custody]) ht

end Context

namespace Worker

variable {w w' : Worker} {i : Input} {a : Action} {new : List OpId} {s : Context} {pc : Pc}

theorem Leaf.serves (h : Leaf w.ctx i pc new s) (ht : s.custody.total = w.ctx.custody.total + new) :
    w.ctx.custody.Serves new s.custody := by
  cases h
  case skip => exact Context.serves_receive rfl rfl rfl ht
  case enter | rearm | rearmLocal => exact Context.armWakePoll_serves _ ht
  case collect ho hcq =>
    have hc := Context.collectCqe_collects (w.ctx.setRing w.ctx.ring.advance)
    exact Context.serves_receive (hc ..).sharedCpu Context.collectCqe_sharedIo (hc ..).executed ht
  case dispatch => exact Context.dispatchCqeTasks_serves ht
  case fetchCpu => exact Context.fetchCpuTask_serves ht
  case exec hb => exact Context.executeNext_serves hb ht
  case timers | fetch =>
    rw [Context.pushCpuList_eq] at ht ⊢
    exact Context.serves_receive rfl rfl rfl ht
  case io =>
    have hf := Context.consumeIoTasks_frame w.ctx i.answer
    obtain hio | hio := Context.consumeIoTasks_sharedIo w.ctx i.answer
    · exact Context.serves_receive hf.sharedCpu hio hf.executed ht
    · exact .after (m := .takeIo) rfl rfl hf.sharedCpu hio
        (by simp only [Context.custody, hf.executed]) ht
  case abort =>
    obtain ⟨_, _, ha⟩ := Context.abortInflightIo_eq w.ctx
    rw [ha] at ht ⊢
    exact .after (m := .takeIo) rfl rfl rfl rfl rfl ht

theorem Conserving.serves (h : w.Conserving) (good : w.SubmitsLooping (.work i))
    (hs : Worker.step w (.work i) = some w') :
    w.ctx.custody.Serves (w.publishes (.work i)) w'.ctx.custody := by
  obtain ⟨-, hheld⟩ := h.work good hs
  obtain ⟨⟨hp, leaf, published, ends⟩, -⟩ := work_steps hs h.settled
  obtain ⟨_, _, he⟩ := ends.ctx
  have htaken : w'.ctx.taken = w.ctx.taken := by
    rw [he]
    exact leaf.taken
  have ht := Context.custody_total hheld htaken
  rw [he, ← published] at ht
  rw [he, ← published]
  exact leaf.serves ht

end Worker

end Bnio.Uring
