import Bnio.Lib.Transition
import Bnio.Posix.Suspend
import Bnio.Posix.Worker

namespace Bnio.Posix

inductive Channel
  | shared | worker
  deriving DecidableEq, Repr

inductive Queue
  | cpu | io
  deriving DecidableEq, Repr

-- A thread inside `run`. `wake` tells whether its own wake channel is signalled, `timeout` is the
-- timespec it waits with; `begun` and `ended` count its calls of `begin_wait` and `end_wait`.
structure Worker where
  pc : Pc := .start
  wake : Bool := false
  timeout : TimePoint := ⊤
  begun : Nat := 0
  ended : Nat := 0

-- A locked call of the timer interface.
inductive TimerCall
  | register (s : SlotId)
  | unregister (s : SlotId)
  | cancel (s : SlotId)
  | setExpiry (s : SlotId) (expiry : TimePoint)
  | expiry (s : SlotId)
  | startWait (op : OpId) (s : SlotId)
  -- queue_timer_completion
  | complete (op : OpId) (kind : CompletionKind)
  deriving DecidableEq, Repr

-- The steps of `wake_one_sleeping_locked`. The two counters are read one after the other, in an
-- order the language leaves open.
inductive Wake
  | life
  | counters
  | haveAwake (awake : Int)
  | haveRunning (running : Int)
  | directed
  | shared
  deriving DecidableEq, Repr

-- Where a thread outside of the group is.
inductive Call
  | idle
  -- publish_cpu or publish_io, before and after it takes the submit lock
  | publish (q : Queue) (op : OpId)
  | push (q : Queue) (op : OpId)
  -- A timer call before and after it takes timers_.mutex, with the clock it has read.
  | timer (c : TimerCall) (now : Nat)
  | locked (c : TimerCall) (now : Nat)
  -- wake_one_if_all_workers_sleeping, before and after it takes the submit lock
  | wakeIfAll
  | allSleeping
  -- wake_one_sleeping_locked
  | wake (w : Wake)
  deriving DecidableEq, Repr

structure Group where
  loop : Loop
  workers : List Worker := []
  suspend : WorkerStateList := {}
  awakeWorkers : Int := 0
  runningWorkers : Int := 0
  sharedWake : Bool := false
  sharedCpu : List OpId := []
  sharedIo : List OpId := []
  lifeState : Bool := false
  -- The submit lock and timers_.mutex, as far as threads outside of the group hold them.
  submitLock : Option Nat := none
  mutex : Option Nat := none
  -- Whether a worker is in the locked section of its fetch, and timeout_fetching.
  fetchLocked : Bool := false
  fetching : Bool := false
  timers : Timers := {}
  calls : Nat → Call := fun _ => .idle

-- How a native call of a worker goes.
inductive Outcome
  | ok | again | fatal
  deriving DecidableEq, Repr

-- What a step of a worker depends on besides the group: what `collect` finds, whether there is work
-- in the worker's own queues, whether the SQ is full before the shared queue is reached, the clock
-- and the outcome of a native call.
structure Input where
  drained : Option Channel := none
  spilled : List OpId := []
  found : Bool := false
  full : Bool := false
  now : Nat := 0
  outcome : Outcome := .ok

inductive Action
  -- A thread calls `run`.
  | run
  | work (i : Nat) (input : Input)
  -- A thread outside of the group makes a call, or its next step.
  | publish (t : Nat) (q : Queue) (op : OpId)
  | timer (t : Nat) (c : TimerCall) (now : Nat)
  -- The order of the two loads in `wake_one_sleeping_locked` is `awakeFirst`.
  | client (t : Nat) (awakeFirst : Bool)
  -- A slot that does not belong to this context changes.
  | foreign (s : SlotId) (v : Slot)
  -- `begin_stop` publishes the stopping state.
  | close

def Site.waiting : Site → Bool
  | .pre | .fetched _ | .woken _ => true
  | _                            => false

namespace TimerCall

-- The locked section; the flag says whether `wake_one_if_all_workers_sleeping` follows.
def apply (t : Timers) (now : Nat) : TimerCall → Timers × Bool
  | .register s       => t.registerTimerLocked s now
  | .unregister s     => t.unregisterTimerLocked s
  | .cancel s         => ((t.cancelTimerLocked s).1, (t.cancelTimerLocked s).2.2)
  | .setExpiry s e    => ((t.setTimerExpiryLocked s e now).1, (t.setTimerExpiryLocked s e now).2.2)
  | .expiry _         => (t, false)
  | .startWait op s   => t.startTimerWaitLocked op s
  | .complete op kind => (t.enqueueTimerOperations [op] kind, true)

end TimerCall

-- The time left until the deadline. Without a deadline there is no timespec.
def computeWaitTimespec (deadline : TimePoint) (now : Nat) : TimePoint :=
  deadline.map (· - now)

namespace Worker

variable (w : Worker)

-- The end of `prepare_wait_timeout` (`compute_io_wait_timeout`). The clock stands still from here to the
-- wait.
def prepareTimeout (now : Nat) : Site → Worker
  | .fetched deadline => { w with timeout := computeWaitTimespec deadline now }
  | _                 => w

-- The kevent call is made again with the same timespec.
def waitAgain (bound : TimePoint) (now : Nat) : Worker :=
  { w with pc := .block (if bound = ⊤ then ⊤ else now + w.timeout) }

end Worker

namespace Group

variable (s : Group)

def setWorker (i : Nat) (w : Worker) : Group :=
  { s with workers := s.workers.set i w }

def setCall (t : Nat) (c : Call) : Group :=
  { s with calls := Function.update s.calls t c }

def shouldFinish : Bool :=
  s.lifeState

-- `consume_io_tasks`; the flag says whether it found work.
def consumeIo (input : Input) : Group × Bool :=
  let skips := !s.lifeState && input.found && (s.loop.backend = .kqueue || input.full)
  if skips then (s, true) else ({ s with sharedIo := [] }, input.found || s.sharedIo ≠ [])

-- A step of `try_fetch_timeout_operations`.
def fetchStep (w : Worker) (caller : Caller) (now : Nat) : Fetch → Group × Worker
  | .gate =>
    if s.fetching then (s, { w with pc := s.loop.afterFetch none caller })
    else ({ s with fetching := true }, { w with pc := .fetch caller .tryLock })
  | .tryLock =>
    if s.mutex ≠ none then (s, { w with pc := .fetch caller .failed })
    else ({ s with fetchLocked := true }, { w with pc := .fetch caller .locked })
  | .locked =>
    let (timers, bound, ops) := s.timers.fetchTimeoutOperations now
    ({ s with timers, fetchLocked := false }, { w with pc := .fetch caller (.release bound ops) })
  | .failed => ({ s with fetching := false }, { w with pc := s.loop.afterFetch none caller })
  | .release bound ops =>
    ({ s with fetching := false }, { w with pc := s.loop.afterFetch (some (bound, ops)) caller })

-- The wait of `block` may return at any time: an event, the timeout or a signal ends it. On kqueue
-- `collect_event_tasks` waits again after a signal (-EINTR).
def workStep (i : Nat) (w : Worker) (input : Input) : Option (Group × Worker) :=
  match w.pc with
  | .start => some (s, { w with pc := if s.lifeState then .refused else .open })
  | .open =>
    if input.outcome ≠ .ok then some (s, { w with pc := .refused })
    else some (s, { w with pc := if s.lifeState then .abort false else .enter })
  | .enter =>
    if s.loop.backend = .uring ∧ input.outcome ≠ .ok then
      some (s, { w with pc := .collect (.drain true false) })
    else some ({ s with awakeWorkers := s.awakeWorkers + 1 }, { w with pc := .arm })
  | .arm =>
    if s.loop.backend = .uring ∧ input.outcome ≠ .ok then some (s, { w with pc := Loop.toFinish })
    else some (s, { w with pc := Loop.toReady })
  | .collect site =>
    match input.drained, input.spilled with
    | some .shared, _ => some ({ s with sharedWake := false }, w)
    | some .worker, _ => some (s, { w with wake := false })
    | none, []        => some (s, { w with pc := Loop.afterCollect input.found site })
    | none, ops       => some ({ s with sharedCpu := ops ++ s.sharedCpu }, { w with pc := .notify site })
  | .notify site =>
    -- notify_one_waiter signals the shared channel under the submit lock.
    if !site.waiting then some (s, { w with pc := Loop.afterCollect true site })
    else if s.submitLock ≠ none then none
    else some ({ s with sharedWake := true }, { w with pc := Loop.afterCollect true site })
  | .cpu site =>
    if input.found then some (s, { w with pc := .exec site })
    else if s.sharedCpu ≠ [] then some ({ s with sharedCpu := [] }, { w with pc := .exec site })
    else some (s, { w with pc := s.loop.afterCpu false site })
  | .exec site => some (s, { w with pc := s.loop.afterCpu true site })
  | .fetch caller f => some (s.fetchStep w caller input.now f)
  | .io site =>
    let (s, found) := s.consumeIo input
    some (s, { w with pc := s.loop.afterIo found site })
  | .check site =>
    some (s, { w.prepareTimeout input.now site with pc := s.loop.afterCheck s.shouldFinish site })
  | .link =>
    some ({ s with suspend := s.suspend.linkLocalState i }, { w with pc := .sub, begun := w.begun + 1 })
  | .sub => some ({ s with awakeWorkers := s.awakeWorkers - 1 }, { w with pc := .collect .pre })
  | .rearm bound =>
    match input.outcome with
    | .ok    => some (s, { w with pc := .rearmLocal bound })
    | .again => some (s, { w with pc := .unlink .ready })
    | .fatal => some (s, { w with pc := .unlink .finish })
  | .rearmLocal bound =>
    match input.outcome with
    | .ok    => some (s, { w with pc := .block bound })
    | .again => some (s, { w with pc := .unlink .ready })
    | .fatal => some (s, { w with pc := .unlink .finish })
  | .block bound =>
    match s.loop.backend with
    | .uring  => some (s, { w with pc := .unlink (.waited (bound ≠ ⊤) (input.outcome = .fatal)) })
    | .kqueue =>
      if input.outcome = .again ∧ !s.shouldFinish then some (s, w.waitAgain bound input.now)
      else some (s, { w with pc := .collect (.woken bound) })
  | .conclude => some (s, { w with pc := .unlink (if s.shouldFinish then .finish else .ready) })
  | .unlink next =>
    some ({ s with suspend := s.suspend.unlinkLocalState i },
      { w with pc := .add next, ended := w.ended + 1 })
  | .add next =>
    some ({ s with awakeWorkers := s.awakeWorkers + 1 },
      { w with pc := Loop.afterWait s.shouldFinish next })
  | .resume => some (s, { w with pc := if s.shouldFinish then Loop.toFinish else Loop.toReady })
  | .abort counted =>
    some ({ s with sharedIo := [] }, { w with pc := .fetch (.consume (.drain false counted)) .gate })
  | .unregister counted =>
    let suspend :=
      if s.suspend.localStateInList i then s.suspend.unlinkLocalState i else s.suspend
    some ({ s with suspend }, { w with pc := .leave counted })
  | .leave counted =>
    let awakeWorkers := if counted then s.awakeWorkers - 1 else s.awakeWorkers
    some ({ s with awakeWorkers }, { w with pc := .release })
  | .release => some ({ s with runningWorkers := s.runningWorkers - 1 }, { w with pc := .left })
  | .refused => some ({ s with runningWorkers := s.runningWorkers - 1 }, { w with pc := .gone })
  | .left | .gone => none

-- The thread returns and gives the submit lock back.
def unlock (t : Nat) : Group :=
  { s.setCall t .idle with submitLock := none }

def push (q : Queue) (op : OpId) : Group :=
  match q with
  | .cpu => { s with sharedCpu := op :: s.sharedCpu }
  | .io  => { s with sharedIo := op :: s.sharedIo }

-- Writes to the wake channel of the worker `i`.
def signal (i : Nat) : Group :=
  match s.workers[i]? with
  | none   => s
  | some w => s.setWorker i { w with wake := true }

-- Signals the worker `wake_one_sleeping` picks; the flag is its result.
def wakeOneSleeping : Group × Bool :=
  let result := s.suspend.wakeOneSleeping s.workers.length
  let s := { s with suspend := result.1 }
  match result.2 with
  | none   => (s, false)
  | some i => (s.signal i, true)

def wakeStep (t : Nat) (awakeFirst : Bool) : Wake → Group
  | .life => if s.lifeState then s.unlock t else s.setCall t (.wake .counters)
  | .counters =>
    if awakeFirst then s.setCall t (.wake (.haveAwake s.awakeWorkers))
    else s.setCall t (.wake (.haveRunning s.runningWorkers))
  | .haveAwake awake =>
    if awake ≥ s.runningWorkers then s.unlock t else s.setCall t (.wake .directed)
  | .haveRunning running =>
    if s.awakeWorkers ≥ running then s.unlock t else s.setCall t (.wake .directed)
  | .directed =>
    let (s, woken) := s.wakeOneSleeping
    if woken then s.unlock t else s.setCall t (.wake .shared)
  | .shared => if s.lifeState then s.unlock t else { s.unlock t with sharedWake := true }

def clientStep (t : Nat) (awakeFirst : Bool) : Option Group :=
  match s.calls t with
  | .idle => none
  | .publish q op =>
    if s.submitLock ≠ none then none
    else some { s.setCall t (.push q op) with submitLock := some t }
  | .push q op =>
    if s.lifeState then some (s.unlock t) else some ((s.push q op).setCall t (.wake .life))
  | .timer c now =>
    if s.mutex ≠ none ∨ s.fetchLocked then none
    else some { s.setCall t (.locked c now) with mutex := some t }
  | .locked c now =>
    let (timers, wake) := c.apply s.timers now
    some { s.setCall t (if wake then .wakeIfAll else .idle) with timers, mutex := none }
  | .wakeIfAll =>
    if s.submitLock ≠ none then none
    else some { s.setCall t .allSleeping with submitLock := some t }
  | .allSleeping =>
    if s.awakeWorkers ≠ 0 then some (s.unlock t) else some (s.setCall t (.wake .life))
  | .wake w => some (s.wakeStep t awakeFirst w)

def step : Action → Option Group
  | .run =>
    some { s with workers := s.workers ++ [{}], runningWorkers := s.runningWorkers + 1 }
  | .work i input => do
    let w ← s.workers[i]?
    let (s, w) ← s.workStep i w input
    some (s.setWorker i w)
  | .publish t q op => if s.calls t = .idle then some (s.setCall t (.publish q op)) else none
  | .timer t c now => if s.calls t = .idle then some (s.setCall t (.timer c now)) else none
  | .client t awakeFirst => s.clientStep t awakeFirst
  | .foreign r v =>
    if (s.timers.slots r).context ≠ some .this ∧ v.context ≠ some .this ∧
        (v.context = none → v.active = false ∧ v.submitted = []) then
      some { s with timers := s.timers.setSlot r v }
    else none
  | .close => if s.submitLock = none then some { s with lifeState := true } else none

end Group
end Bnio.Posix
