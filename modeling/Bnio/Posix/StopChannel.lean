import Bnio.Lib.Transition
import Bnio.Posix.Timers
import Bnio.Posix.Worker

namespace Bnio.Posix.StopChannel

-- The operations of an `io_context`. Polling is `native_io_operation` without an immediate step on
-- io_uring and `native_poll_operation` on kqueue.
inductive Family
  | schedule (dispatch : Bool)
  | io
  | poll
  | resolve
  | timerWait
  deriving DecidableEq

-- The resolves and the timer waits read the stop token in `start()`, the other operations in the
-- function that makes the receiver call.
def Family.late : Family → Bool
  | resolve | timerWait => false
  | _                   => true

-- The error code and the payload of a `set_value`; payloads that are not there are 0.
inductive Call
  | setValue (ec : Int) (payload : Int)
  | setStopped
  deriving DecidableEq

def operationCanceled : Int := 125

-- The staged completion of the native operations.
inductive NativeCompletion
  | value | valueWithEc | stopped
  deriving DecidableEq

-- Where an operation is. In `delivering` its function has decided on the receiver call and not yet
-- made it.
inductive Place
  | fresh | cpu | io | inflight | slot | ready | delivering (call : Call) | done
  deriving DecidableEq

def Place.isDelivering : Place → Bool
  | delivering _ => true
  | _            => false

@[simp]
theorem Place.isDelivering_delivering (c : Call) : (delivering c).isDelivering = true :=
  rfl

structure Operation where
  family : Family
  backend : Backend
  completion : NativeCompletion := .value
  error : Int := 0
  result : Int := 0
  canceled : Bool := false
  timerCompletion : CompletionKind := .value
  place : Place := .fresh
  calls : List Call := []
  deriving DecidableEq

-- One operation, the stop token of its receiver and the life state of its context. `observed` is the
-- token as the operation has read it for its decision, and `aborted` whether the stop of the context
-- has ended it without a result.
structure Arbitration where
  op : Operation
  token : Bool := false
  lifeState : Bool := false
  observed : Bool := false
  aborted : Bool := false
  deriving DecidableEq

-- What the slot of a timer wait looks like: `timer_context_` was null at the connect, the slot does not
-- belong to that context any more, it has expired, or it is in the heap.
inductive WaitSlot
  | unregistered | foreign | inactive | active
  deriving DecidableEq

-- The immediate step of a native operation: not made, would block, or completed.
inductive Probe
  | skipped
  | wouldBlock (result : Int)
  | completed (result : Int)
  deriving DecidableEq

inductive ChannelAction
  | cancelToken
  | stop
  -- `onWorker`: the calling thread runs a worker of the context, and publishes to its local queues
  | start (onWorker : Bool) (probe : Probe) (slot : WaitSlot)
  | submit
  | submitError (result : Int)
  | complete (result : Int)
  | resubmit
  -- `drain_io_list_complete_stopped` and `abort_inflight_io` of a worker
  | abort
  -- `drain_io_stopped` of the stopping thread
  | drain
  | expire
  | cancelTimer
  | abortTimer
  -- the run loop or a drain executes the operation; a resolver that is run gives `ec` and `count`
  | execute (ec : Int) (count : Nat)
  | call
  deriving DecidableEq

namespace Operation

variable (op : Operation)

def errnoResult (result : Int) : Int :=
  if result < 0 then -result else 0

-- The payload that the model or request makes of a result. Polls clamp it, byte counts as well; the
-- descriptor of an accept is handed on as it is.
def payload (result : Int) : Int :=
  match op.family with
  | .poll => max 0 result
  | _     => result

def completeSubmitError (result : Int) : Operation :=
  { op with completion := .valueWithEc, error := errnoResult result, result }

def completeSubmitStopped : Operation :=
  { op with completion := .stopped }

-- `execute` of the native operations.
def executeNative (stopRequested : Bool) : Call :=
  match op.completion with
  | .value       => .setValue (errnoResult op.result) (op.payload op.result)
  | .valueWithEc => .setValue op.error (op.payload op.result)
  | .stopped     => if stopRequested then .setStopped else .setValue operationCanceled (op.payload (-1))

-- `complete` of the schedule operations.
def completeSchedule (stopRequested isStopped : Bool) : Call :=
  if stopRequested then .setStopped
  else if isStopped then .setValue operationCanceled 0
  else .setValue 0 0

def executeResolve (isStopped : Bool) (ec : Int) (count : Nat) : Call :=
  if op.canceled then .setStopped
  else if isStopped then .setValue operationCanceled 0
  else .setValue ec count

def executeTimerWait : Call :=
  match op.timerCompletion with
  | .stopped  => .setStopped
  | .canceled => .setValue operationCanceled 0
  | .value    => .setValue 0 0

end Operation

namespace Arbitration

variable (s : Arbitration)

-- The operation's function runs up to its receiver call.
def deliver (ec : Int) (count : Nat) : Arbitration :=
  match s.op.family with
  | .schedule _ =>
    { s with
      op := { s.op with place := .delivering (Operation.completeSchedule s.token s.lifeState) }
      observed := s.token
      aborted := s.lifeState }
  | .io | .poll =>
    { s with
      op := { s.op with place := .delivering (s.op.executeNative s.token) }
      observed := s.token }
  | .resolve =>
    { s with
      op := { s.op with place := .delivering (s.op.executeResolve s.lifeState ec count) }
      aborted := s.lifeState }
  | .timerWait =>
    { s with op := { s.op with place := .delivering s.op.executeTimerWait } }

-- `publish_cpu` and `publish_io`: a worker of the context is always served.
def publishes (onWorker : Bool) : Bool :=
  onWorker || !s.lifeState

def publishCpuOrCompleteInline (onWorker : Bool) : Arbitration :=
  if s.publishes onWorker then { s with op := { s.op with place := .cpu } } else s.deliver 0 0

def publishIoOrCompleteStopped (onWorker : Bool) : Arbitration :=
  let s := { s with op := { s.op with completion := .value } }
  if s.publishes onWorker then { s with op := { s.op with place := .io } }
  else deliver { s with op := s.op.completeSubmitStopped, aborted := true } 0 0

-- `start` of the schedule operations; `inContext` is asked only for a dispatch.
def startSchedule (dispatch onWorker : Bool) : Arbitration :=
  if dispatch && onWorker then s.deliver 0 0 else s.publishCpuOrCompleteInline onWorker

def startNative (onWorker : Bool) (probe : Probe) : Arbitration :=
  if s.token then
    publishCpuOrCompleteInline { s with op := { s.op with completion := .stopped, result := 0 } } onWorker
  else match probe with
    | .skipped           => s.publishIoOrCompleteStopped onWorker
    | .wouldBlock result => match s.op.backend with
      | .uring  => s.publishIoOrCompleteStopped onWorker
      | .kqueue => publishIoOrCompleteStopped { s with op := { s.op with result } } onWorker
    | .completed result =>
      if result < 0 then
        publishCpuOrCompleteInline { s with op := s.op.completeSubmitError result } onWorker
      else publishCpuOrCompleteInline { s with op := { s.op with completion := .value, result } } onWorker

def startResolve (onWorker : Bool) : Arbitration :=
  publishCpuOrCompleteInline { s with op := { s.op with canceled := s.token }, observed := s.token }
    onWorker

-- `queue_timer_completion` and the locked part of the timer calls.
def stage (kind : CompletionKind) : Arbitration :=
  { s with op := { s.op with timerCompletion := kind, place := .ready } }

def startTimerWait (slot : WaitSlot) : Arbitration :=
  let s := { s with observed := s.token }
  if s.token then
    match slot with
    | .unregistered => { s with op := { s.op with place := .delivering .setStopped } }
    | _             => s.stage .stopped
  else match slot with
    | .unregistered => { s with
        op := { s.op with place := .delivering (.setValue operationCanceled 0) }, aborted := true }
    | .foreign      => stage { s with aborted := true } .canceled
    | .inactive     => s.stage .value
    | .active       => { s with op := { s.op with place := .slot } }

def start (onWorker : Bool) (probe : Probe) (slot : WaitSlot) : Arbitration :=
  match s.op.family with
  | .schedule dispatch => s.startSchedule dispatch onWorker
  | .io                => s.startNative onWorker probe
  | .poll              => s.startNative onWorker .skipped
  | .resolve           => s.startResolve onWorker
  | .timerWait         => s.startTimerWait slot

def step (a : ChannelAction) : Option Arbitration :=
  match a, s.op.place with
  | .cancelToken, _ => some { s with token := true }
  | .stop,        _ => some { s with lifeState := true }
  | .start onWorker probe slot, .fresh => some (s.start onWorker probe slot)
  | .submit, .io => some { s with op := { s.op with place := .inflight } }
  | .submitError result, .io =>
    some { s with op := { s.op.completeSubmitError result with place := .cpu } }
  | .complete result, .inflight => some { s with op := { s.op with result, place := .cpu } }
  | .resubmit, .inflight => some { s with op := { s.op with place := .io } }
  | .abort, .io | .abort, .inflight =>
    some { s with
      op := { s.op.completeSubmitStopped with result := -operationCanceled, place := .cpu }
      aborted := true }
  | .drain, .io =>
    some (deliver { s with
      op := { s.op.completeSubmitStopped with result := -operationCanceled }
      aborted := true } 0 0)
  | .expire,      .slot => some (s.stage .value)
  | .cancelTimer, .slot => some (s.stage .canceled)
  | .abortTimer,  .slot => some (stage { s with aborted := true } .canceled)
  | .execute ec count, .cpu | .execute ec count, .ready => some (s.deliver ec count)
  | .call, .delivering c => some { s with op := { s.op with place := .done, calls := s.op.calls ++ [c] } }
  | _, _ => none

-- The operation reads the token its decision is based on.
def reads (s s' : Arbitration) : Bool :=
  if s.op.family.late then s'.op.place.isDelivering && !s.op.place.isDelivering
  else s.op.place = .fresh && s'.op.place ≠ .fresh

-- `observed` is the token at that moment.
def Reads (s : Arbitration) (a : ChannelAction) : Prop :=
  ∀ s', s.step a = some s' → s'.observed = if s.reads s' then s.token else s.observed

-- What a receiver call says about the token `t` and about a stop of the context.
structure Decided (s : Arbitration) (t : Bool) (c : Call) : Prop where
  stopped : c = .setStopped → s.token = true
  wins : s.aborted = true → t = true → c = .setStopped
  value : s.aborted = true → t = false → ∃ payload, c = .setValue operationCanceled payload

variable {s} {s' : Arbitration} {a : ChannelAction} {ec : Int} {count : Nat}

-- The operation can be executed.
def Queued (s : Arbitration) : Prop :=
  match s.op.family with
  | .schedule _  => True
  | .io | .poll  => s.aborted = true → s.op.completion = .stopped
  | .resolve     => s.op.canceled = s.observed
  | .timerWait   => (s.op.timerCompletion = .stopped → s.observed = true) ∧ (s.aborted = true →
    s.op.timerCompletion = if s.observed then .stopped else .canceled)

-- The operation is native I/O that nothing has completed.
def Native (s : Arbitration) : Prop :=
  (s.op.family = .io ∨ s.op.family = .poll) ∧ s.aborted = false

def Located (s : Arbitration) : Place → Prop
  | .fresh         => s.aborted = false ∧ s.observed = false
  | .cpu | .ready  => s.Queued
  | .io | .inflight => s.Native
  | .slot          => s.op.family = .timerWait ∧ s.aborted = false ∧ s.observed = false
  | .delivering c  => s.Decided s.observed c
  | .done          => True

structure Inv (s : Arbitration) : Prop where
  seen : s.observed = true → s.token = true
  located : s.Located s.op.place

theorem Queued.deliver (h : s.Queued) (hs : s.observed = true → s.token = true) (ec : Int) (count : Nat) :
    (s.deliver ec count).Inv := by
  unfold Queued at h
  unfold Arbitration.deliver
  cases hf : s.op.family <;> simp only [hf] at h ⊢
  case schedule =>
    refine ⟨id, ?_, ?_, ?_⟩ <;> cases ht : s.token <;> cases hl : s.lifeState <;>
      simp_all [Operation.completeSchedule]
  case io | poll =>
    refine ⟨id, ?_, ?_, ?_⟩ <;> unfold Operation.executeNative <;> split <;> simp_all
  case resolve =>
    refine ⟨hs, ?_, ?_, ?_⟩ <;> cases hc : s.observed <;> cases hl : s.lifeState <;>
      simp_all [Operation.executeResolve]
  case timerWait =>
    refine ⟨hs, ?_, ?_, ?_⟩ <;> unfold Operation.executeTimerWait <;> cases hc : s.observed <;> split <;>
      simp_all

theorem publishCpuOrCompleteInline_inv (h : s.Queued) (hs : s.observed = true → s.token = true)
    (onWorker : Bool) : (s.publishCpuOrCompleteInline onWorker).Inv := by
  unfold publishCpuOrCompleteInline
  split
  case isTrue  => exact ⟨hs, h⟩
  case isFalse => exact h.deliver hs 0 0

-- What completes native I/O without aborting it leaves it queued, and so does an abort.
theorem Native.queued (h : s.Native) {op : Operation} (hop : op.family = s.op.family) :
    Queued { s with op } := by
  obtain ⟨hf | hf, ha⟩ := h <;> simp [Queued, hop, hf, ha]

theorem Native.queued_aborted (h : s.Native) {op : Operation} (hop : op.family = s.op.family)
    (hc : op.completion = .stopped) : Queued { s with op, aborted := true } := by
  obtain ⟨hf | hf, ha⟩ := h <;> simp [Queued, hop, hf, hc]

theorem Native.publishIoOrCompleteStopped (h : s.Native) (hs : s.observed = true → s.token = true)
    (onWorker : Bool) : (s.publishIoOrCompleteStopped onWorker).Inv := by
  unfold Arbitration.publishIoOrCompleteStopped
  dsimp only
  split
  case isTrue  => exact ⟨hs, h⟩
  case isFalse =>
    refine Queued.deliver ?_ ?_ 0 0
    · exact h.queued_aborted rfl rfl
    · exact hs

theorem Native.startNative (h : s.Native) (hs : s.observed = true → s.token = true) (onWorker : Bool)
    (probe : Probe) : (s.startNative onWorker probe).Inv := by
  have hq : ∀ op : Operation, op.family = s.op.family →
      (publishCpuOrCompleteInline { s with op } onWorker).Inv := fun op hop => by
    refine publishCpuOrCompleteInline_inv ?_ ?_ onWorker
    · exact h.queued hop
    · exact hs
  unfold Arbitration.startNative
  split
  case isTrue  => exact hq _ rfl
  case isFalse =>
    cases probe
    case skipped => exact h.publishIoOrCompleteStopped hs _
    case wouldBlock result =>
      cases s.op.backend
      case uring  => exact h.publishIoOrCompleteStopped hs _
      case kqueue =>
        have hn : Native { s with op := { s.op with result } } := h
        exact hn.publishIoOrCompleteStopped hs _
    case completed result =>
      dsimp only
      split
      case isTrue  => exact hq _ rfl
      case isFalse => exact hq _ rfl

theorem startTimerWait_inv (hf : s.op.family = .timerWait) (ha : s.aborted = false) (slot : WaitSlot) :
    (s.startTimerWait slot).Inv := by
  unfold startTimerWait
  cases ht : s.token <;> cases slot <;> refine ⟨by simp [stage], ?_⟩
  case false.unregistered => exact ⟨nofun, nofun, fun _ _ => ⟨0, rfl⟩⟩
  case true.unregistered  => exact ⟨fun _ => rfl, fun _ _ => rfl, nofun⟩
  case false.active       => exact ⟨hf, ha, rfl⟩
  all_goals simp [Located, Queued, stage, hf, ha]

theorem start_inv (hs : s.observed = true → s.token = true) (ha : s.aborted = false) (onWorker : Bool)
    (probe : Probe) (slot : WaitSlot) : (s.start onWorker probe slot).Inv := by
  unfold start
  cases hf : s.op.family
  case schedule dispatch =>
    have hq : s.Queued := by simp [Queued, hf]
    simp only [startSchedule]
    split
    case isTrue  => exact hq.deliver hs 0 0
    case isFalse => exact publishCpuOrCompleteInline_inv hq hs _
  case io   => exact Native.startNative ⟨.inl hf, ha⟩ hs _ _
  case poll => exact Native.startNative ⟨.inr hf, ha⟩ hs _ _
  case resolve =>
    refine publishCpuOrCompleteInline_inv ?_ ?_ onWorker
    · simp [Queued, hf]
    · exact id
  case timerWait => exact startTimerWait_inv hf ha slot

theorem Located.cancelToken {p : Place} (h : s.Located p) : Located { s with token := true } p := by
  cases p
  case delivering c => exact ⟨fun _ => rfl, h.wins, h.value⟩
  all_goals exact h

theorem Located.stop {p : Place} (h : s.Located p) : Located { s with lifeState := true } p := by
  cases p
  case delivering c => exact ⟨h.stopped, h.wins, h.value⟩
  all_goals exact h

theorem stage_queued (hf : s.op.family = .timerWait) (ho : s.observed = false) (kind : CompletionKind)
    (hk : kind ≠ .stopped) (ha : s.aborted = true → kind = .canceled) : (s.stage kind).Queued := by
  simpa [Queued, stage, hf, ho, hk] using ha

theorem Inv.step (hi : s.Inv) (h : s.step a = some s') : s'.Inv := by
  have ⟨hs, hl⟩ := hi
  unfold Arbitration.step at h
  split at h <;> cases h
  -- cancelToken, stop
  case h_1 => exact ⟨fun _ => rfl, hl.cancelToken⟩
  case h_2 => exact ⟨hs, hl.stop⟩
  all_goals (rename_i hp; rw [hp] at hl)
  -- start
  case h_3 => exact start_inv hs hl.1 ..
  -- submit, submitError, complete, resubmit
  case h_4 => exact ⟨hs, hl⟩
  case h_5 => exact ⟨hs, hl.queued rfl⟩
  case h_6 => exact ⟨hs, hl.queued rfl⟩
  case h_7 => exact ⟨hs, hl⟩
  -- abort
  case h_8 => exact ⟨hs, hl.queued_aborted rfl rfl⟩
  case h_9 => exact ⟨hs, hl.queued_aborted rfl rfl⟩
  -- drain
  case h_10 =>
    refine Queued.deliver ?_ ?_ 0 0
    · exact hl.queued_aborted rfl rfl
    · exact hs
  -- expire, cancelTimer, abortTimer
  case h_11 => exact ⟨hs, stage_queued hl.1 hl.2.2 _ nofun (by simp [hl.2.1])⟩
  case h_12 => exact ⟨hs, stage_queued hl.1 hl.2.2 _ nofun fun _ => rfl⟩
  case h_13 =>
    refine ⟨hs, stage_queued ?_ ?_ _ nofun fun _ => rfl⟩
    · exact hl.1
    · exact hl.2.2
  -- execute
  case h_14 => exact Queued.deliver hl hs ..
  case h_15 => exact Queued.deliver hl hs ..
  -- call
  case h_16 => exact ⟨hs, trivial⟩

end Arbitration
end Bnio.Posix.StopChannel
