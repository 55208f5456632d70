import Bnio.Posix.Timers

namespace Bnio.Posix

inductive Backend
  | uring | kqueue
  deriving DecidableEq, Repr

-- Where in the loop `collect_ready_cqes` (`collect_ready_events`), `run_cpu_batch`,
-- `consume_timeout_operations`, `consume_io_tasks` or `should_finish` is called.
inductive Site
  -- handle_run_ready_tasks
  | ready
  -- spin_for_work, in the given round
  | spin (round : Nat)
  -- wait_for_io_work after begin_wait
  | pre
  -- prepare_wait_timeout (compute_io_wait_timeout) after a fetch with this deadline
  | fetched (bound : TimePoint)
  -- the blocking kevent call
  | woken (bound : TimePoint)
  -- wait_for_io_work after the wait, which may have had a timeout
  | post (timed : Bool)
  -- finish and queue_exit; `counted` tells whether enter_run has incremented awake_workers.
  | drain (events counted : Bool)
  deriving DecidableEq, Repr

-- The steps of `try_fetch_timeout_operations`: the exchange on `timeout_fetching`, the attempt to
-- lock `timers_.mutex`, the locked section, and the two stores that open the gate again.
inductive Fetch
  | gate
  | tryLock
  | locked
  | failed
  | release (bound : TimePoint) (ops : List Staged)
  deriving DecidableEq, Repr

inductive Caller
  -- consume_timeout_operations
  | consume (site : Site)
  -- prepare_wait_timeout (compute_io_wait_timeout)
  | wait
  deriving DecidableEq, Repr

-- How `wait_for_io_work` goes on after `end_wait`.
inductive Next
  -- `should_finish() ? finish_drain : run_ready_tasks`
  | resume
  | ready
  | finish
  -- The io_uring wait has returned, possibly with a fatal error.
  | waited (timed fatal : Bool)
  -- The blocking kevent call has returned.
  | collected (found timed : Bool)
  deriving DecidableEq, Repr

inductive Pc
  -- run has incremented running_workers.
  | start
  -- run_native_loop constructs the native context.
  | «open»
  -- enter_run, before and after it increments awake_workers
  | enter
  | arm
  | collect (site : Site)
  -- push_cpu_tasks has pushed; notify_one_waiter is next.
  | notify (site : Site)
  | cpu (site : Site)
  -- execute_tasks walks through a batch.
  | exec (site : Site)
  | fetch (caller : Caller) (f : Fetch)
  | io (site : Site)
  | check (site : Site)
  -- begin_wait: the insertion into the suspend list and the decrement of awake_workers
  | link
  | sub
  -- rearm_wake_polls_for_wait, for the shared and the local channel
  | rearm (bound : TimePoint)
  | rearmLocal (bound : TimePoint)
  | block (bound : TimePoint)
  -- The end of prepare_wait_timeout when there is work.
  | conclude
  -- end_wait: the removal from the suspend list and the increment of awake_workers
  | unlink (next : Next)
  | add (next : Next)
  | resume
  -- finish and queue_exit call abort_inflight_io.
  | abort (counted : Bool)
  -- The end of run: unregister_local_state, the decrement of awake_workers and of running_workers.
  | unregister (counted : Bool)
  | leave (counted : Bool)
  | release
  | left
  -- run returns without having entered the loop.
  | refused
  | gone
  deriving DecidableEq, Repr

-- What the control flow of a worker depends on.
structure Loop where
  backend : Backend
  waitSpinCount : Nat

namespace Loop

variable (l : Loop)

def toReady : Pc :=
  .collect .ready

def toFinish : Pc :=
  .collect (.drain true true)

def toSpin (round : Nat) : Pc :=
  if round < l.waitSpinCount then .collect (.spin round) else .link

def toBlock (bound : TimePoint) : Pc :=
  match l.backend with
  | .uring  => .rearm bound
  | .kqueue => .block bound

-- There is work between the fetch and the wait: io_uring looks at `should_finish` before `end_wait`.
def toConclude : Pc :=
  match l.backend with
  | .uring  => .conclude
  | .kqueue => .unlink .resume

-- What follows each of the calls. A site that does not make the call stays where it is.
def afterCollect (found : Bool) : Site → Pc
  | .ready     => .cpu .ready
  | .spin r    => if found then toReady else .cpu (.spin r)
  | .pre       => if found then .unlink .resume else .cpu .pre
  | .fetched b => .collect (.fetched b)
  | .woken b   => .unlink (.collected found (b ≠ ⊤))
  | .post t    => if found then toReady else .cpu (.post t)
  | .drain e c => .fetch (.consume (.drain e c)) .gate

def afterCpu (ran : Bool) : Site → Pc
  | .ready     => if ran then toReady else .fetch (.consume .ready) .gate
  | .spin r    => if ran then toReady else .fetch (.consume (.spin r)) .gate
  | .pre       => if ran then .unlink .resume else .fetch (.consume .pre) .gate
  | .fetched b => if ran then l.toConclude else .io (.fetched b)
  | .woken b   => .cpu (.woken b)
  | .post t    => if ran then toReady else .fetch (.consume (.post t)) .gate
  | .drain true c =>
    if ran then .collect (.drain true c)
    else match l.backend with
      | .uring  => .abort c
      | .kqueue => .io (.drain true c)
  | .drain false c => if ran then .fetch (.consume (.drain false c)) .gate else .io (.drain false c)

-- `consume_timeout_operations` returns.
def afterConsume (got : Bool) : Site → Pc
  | .ready     => if got then toReady else .io .ready
  | .spin r    => if got then toReady else .check (.spin r)
  | .pre       => if got then .unlink .resume else .io .pre
  | .fetched b => .fetch (.consume (.fetched b)) .gate
  | .woken b   => .fetch (.consume (.woken b)) .gate
  | .post t    => if got then toReady else .io (.post t)
  | .drain e c => .cpu (.drain e c)

-- `try_fetch_timeout_operations` returns the deadline and the operations, or nothing.
def afterFetch (result : Option (TimePoint × List Staged)) : Caller → Pc
  | .consume site => afterConsume (result.any (·.2 ≠ [])) site
  | .wait         =>
    match result with
    | none          => l.toBlock ⊤
    | some (b, ops) => if ops ≠ [] then l.toConclude else .cpu (.fetched b)

def afterIo (found : Bool) : Site → Pc
  | .ready     => if found then toReady else .check .ready
  | .spin r    => .io (.spin r)
  | .pre       => if found then .unlink .resume else .check .pre
  | .fetched b => if found then l.toConclude else .check (.fetched b)
  | .woken b   => .io (.woken b)
  | .post t    => if found || t then toReady else .check (.post t)
  | .drain true c  => if found then .collect (.drain true c) else .abort c
  | .drain false c => if found then .abort c else .unregister c

def afterCheck (finish : Bool) : Site → Pc
  | .ready     => if finish then toFinish else l.toSpin 0
  | .spin r    => if finish then toFinish else l.toSpin (r + 1)
  | .pre       => if finish then .unlink .resume else .fetch .wait .gate
  | .fetched b => if finish then l.toConclude else l.toBlock b
  | .woken b   => .check (.woken b)
  | .post _    => if finish then toFinish else l.toSpin 0
  | .drain e c => .check (.drain e c)

-- `end_wait` returns; `finish` is what `should_finish` says.
def afterWait (finish : Bool) : Next → Pc
  | .resume            => .resume
  | .ready             => toReady
  | .finish            => toFinish
  | .waited timed fatal => if fatal && !finish then toFinish else .collect (.post timed)
  | .collected found timed => if found || timed then toReady else .cpu (.post false)

end Loop
end Bnio.Posix
