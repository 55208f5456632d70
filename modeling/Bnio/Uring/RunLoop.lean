import Bnio.Lib.Transition
import Bnio.Uring.Context

namespace Bnio.Uring

-- Where in the loop `collect_ready_cqes`, `run_cpu_batch`, `consume_timeout_operations`,
-- `consume_io_tasks` or `should_finish` is called.
inductive Site
  -- handle_run_ready_tasks
  | ready
  -- spin_for_work, in the given round
  | spin (round : Nat)
  -- wait_for_io_work after begin_wait
  | pre
  -- prepare_wait_timeout, once the fetch has told whether there is a deadline
  | fetched (deadline : Bool)
  -- wait_for_io_work after the wait, which may have had a timeout
  | post (timeout : Bool)
  -- drain_local_tasks, with or without CQEs
  | drain (includeCqe : Bool)
  deriving DecidableEq, Repr

inductive Pc
  | idle
  -- enter_run arms the poll of a channel.
  | enter (c : Channel)
  -- collect_ready_cqes may take `left` more entries.
  | collect (site : Site) (left : Nat)
  | cpu (site : Site)
  -- execute_tasks walks through the batch.
  | exec (site : Site)
  | timers (site : Site)
  | io (site : Site)
  | check (site : Site)
  -- `should_finish() ? finish_drain : run_ready_tasks`
  | resume
  -- prepare_wait_timeout
  | fetch
  -- rearm_wake_polls_for_wait; `shared` is the result for the shared channel.
  | rearm (timeout : Bool)
  | rearmLocal (timeout : Bool) (shared : Int)
  | block (timeout : Bool)
  -- abort_and_deliver_completions calls abort_inflight_io.
  | abort
  | finished
  | closed
  deriving DecidableEq, Repr

structure Worker where
  ctx : Context := {}
  pc : Pc := .idle

-- What the outside does during one step of the worker: the answer to `io_uring_submit`, the result
-- of `try_fetch_timeout_operations` and what it hands out, the work the receiver of an executed
-- operation publishes from this thread and the result of the wait.
structure Input where
  answer : Int := 0
  fetched : Bool := false
  timers : List OpId := []
  deadline : Bool := false
  publishedCpu : List OpId := []
  publishedIo : List (OpId × OperationClass) := []
  waitResult : Int := 0

inductive Action
  -- A foreign thread publishes to a shared queue.
  | publishIo (op : OpId) (kind : OperationClass)
  | publishCpu (op : OpId)
  -- Another worker empties a shared queue.
  | takeIo
  | takeCpu
  -- The kernel completes a request.
  | complete (data : UserData) (result : Int) (flags : Nat)
  -- `io_uring_context::stop`
  | stop
  -- `io_context::stop` publishes the stopping state.
  | close
  -- The stopping thread delivers what is left in a shared queue.
  | drainIo
  | drainCpu
  -- A thread enters `run` and enables the ring.
  | run (enabled : Int)
  | queueExit
  -- The worker makes a step.
  | work (i : Input)

namespace Context

-- Every operation the worker, the shared queues or the past hold.
def held (s : Context) : List OpId :=
  s.inflight ++ s.pendingIoRetry ++ s.localIo ++ s.sharedIo ++ s.cqeTasks ++ s.localCpu ++
    s.sharedCpu ++ s.batch ++ s.executed.map Delivery.op ++ s.taken

-- Operations are started once.
def Fresh (s : Context) (ops : List OpId) : Prop :=
  ops.Nodup ∧ ∀ op ∈ ops, op ∉ s.held

instance (s : Context) (ops : List OpId) : Decidable (s.Fresh ops) :=
  inferInstanceAs (Decidable (_ ∧ _))

-- `publish_io` from the worker's own thread.
def publishLocalIo (s : Context) (p : OpId × OperationClass) : Context :=
  (s.setOp p.1 { kind := p.2 }).pushIo p.1

-- The next operation of the batch is executed; its receiver publishes work.
def executeNext (s : Context) (i : Input) : Context :=
  match s.batch with
  | []      => s
  | op :: l =>
    let s := { s with batch := l }.execute op
    i.publishedIo.foldl publishLocalIo (s.pushCpuList i.publishedCpu)

end Context

namespace Worker

variable (w : Worker)

def goto (pc : Pc) : Worker :=
  { w with pc }

def window : Nat :=
  w.ctx.options.window

def toReady : Worker where
  ctx := { w.ctx with localTaskBudget := w.ctx.options.localQueueThreshold }
  pc  := .collect .ready w.window

def toFinish : Worker :=
  w.goto (.collect (.drain true) w.window)

def toSpin (round : Nat) : Worker :=
  if round < w.ctx.options.waitSpinCount then w.goto (.collect (.spin round) w.window)
  else w.goto (.collect .pre w.window)

def afterCollect (found : Bool) : Site → Worker
  | .ready     => w.goto (.cpu .ready)
  | .spin r    => if found then w.toReady else w.goto (.cpu (.spin r))
  | .pre       => if found then w.goto .resume else w.goto (.cpu .pre)
  | .post t    => if found then w.toReady else w.goto (.cpu (.post t))
  | .drain b   => w.goto (.timers (.drain b))
  | .fetched d => w.goto (.cpu (.fetched d))

def afterCpu (ran : Bool) : Site → Worker
  | .ready     => if ran then w.toReady else w.goto (.timers .ready)
  | .spin r    => if ran then w.toReady else w.goto (.timers (.spin r))
  | .pre       => if ran then w.goto .resume else w.goto (.timers .pre)
  | .fetched d => if ran then w.goto .resume else w.goto (.io (.fetched d))
  | .post t    => if ran then w.toReady else w.goto (.timers (.post t))
  | .drain b   =>
    if ran then (if b then w.toFinish else w.goto (.timers (.drain false)))
    else (if b then w.goto .abort else w.goto (.io (.drain false)))

def afterTimers (got : Bool) : Site → Worker
  | .ready     => if got then w.toReady else w.goto (.io .ready)
  | .spin r    => if got then w.toReady else w.goto (.check (.spin r))
  | .pre       => if got then w.goto .resume else w.goto (.io .pre)
  | .post t    => if got then w.toReady else w.goto (.io (.post t))
  | .drain b   => w.goto (.cpu (.drain b))
  | .fetched d => w.goto (.cpu (.fetched d))

def afterIo (found : Bool) : Site → Worker
  | .ready     => if found then w.toReady else w.goto (.check .ready)
  | .pre       => if found then w.goto .resume else w.goto (.check .pre)
  | .fetched d => if found then w.goto .resume else w.goto (.check (.fetched d))
  | .post t    => if found || t then w.toReady else w.goto (.check (.post t))
  | .drain _   =>
    if found then w.goto .abort
    else { ctx := { w.ctx with state := .finished }, pc := .finished }
  | .spin r    => w.goto (.check (.spin r))

def afterCheck (finish : Bool) : Site → Worker
  | .ready     => if finish then w.toFinish else w.toSpin 0
  | .spin r    => if finish then w.toFinish else w.toSpin (r + 1)
  | .pre       => if finish then w.goto .resume else w.goto .fetch
  | .fetched d => if finish then w.goto .resume else w.goto (.rearm d)
  | .post _    => if finish then w.toFinish else w.toSpin 0
  | .drain b   => w.goto (.cpu (.drain b))

-- `enter_run` after arming the poll of `c`.
def afterEnter (c : Channel) (result : Int) : Worker :=
  if result < 0 then { w with ctx := { w.ctx with state := .finishing } }.toFinish
  else match c with
    | .shared => w.goto (.enter .worker)
    | .worker => w.toReady

-- `rearm_wake_polls_for_wait` after a negative result.
def rearmFailed (result : Int) : Worker :=
  if result = -eagain then w.toReady else w.toFinish

def afterRearm (timeout : Bool) (shared result : Int) : Worker :=
  if result < 0 then w.rearmFailed result
  else if (shared = 0 ∨ result = 0) ∧ w.ctx.shouldFinish then w.toFinish
  else w.goto (.block timeout)

def afterBlock (timeout : Bool) (result : Int) : Worker :=
  if result < 0 ∧ result ≠ -etime ∧ result ≠ -eintr ∧ !w.ctx.shouldFinish then w.toFinish
  else w.goto (.collect (.post timeout) w.window)

-- One step of `collect_ready_cqes`: the next entry of the window, or the dispatch.
def collectStep (site : Site) (left : Nat) (answer : Int) : Worker :=
  let s := w.ctx
  match s.ring.isOpen, left, s.ring.cq with
  | true, left + 1, cqe :: _ =>
    { ctx := (s.setRing s.ring.advance).collectCqe cqe answer, pc := .collect site left }
  | _, _, _ =>
    if s.cqeTasks = [] then w.afterCollect false site
    else { w with ctx := s.dispatchCqeTasks }.afterCollect true site

def workStep (i : Input) : Worker :=
  let s := w.ctx
  match w.pc with
  | .enter c =>
    let (ctx, result) := s.armWakePoll c i.answer
    { w with ctx }.afterEnter c result
  | .collect site left => w.collectStep site left i.answer
  | .cpu site =>
    if s.localCpu = [] ∧ s.sharedCpu = [] then w.afterCpu false site
    else { ctx := s.fetchCpuTask, pc := .exec site }
  | .exec site =>
    if s.batch = [] then w.afterCpu true site else { w with ctx := s.executeNext i }
  | .timers site =>
    if i.fetched ∧ i.timers ≠ [] then { w with ctx := s.pushCpuList i.timers }.afterTimers true site
    else w.afterTimers false site
  | .io site =>
    let (ctx, found) := s.consumeIoTasks i.answer
    { w with ctx }.afterIo found site
  | .check site => w.afterCheck s.shouldFinish site
  | .resume => if s.shouldFinish then w.toFinish else w.toReady
  | .fetch =>
    if !i.fetched then w.goto (.rearm false)
    else if i.timers ≠ [] then { w with ctx := s.pushCpuList i.timers }.goto .resume
    else w.goto (.cpu (.fetched i.deadline))
  | .rearm timeout =>
    let (ctx, result) := s.armWakePoll .shared i.answer
    if result < 0 then { w with ctx }.rearmFailed result
    else { w with ctx }.goto (.rearmLocal timeout result)
  | .rearmLocal timeout shared =>
    let (ctx, result) := s.armWakePoll .worker i.answer
    { w with ctx }.afterRearm timeout shared result
  | .block timeout => w.afterBlock timeout i.waitResult
  | .abort => { ctx := s.abortInflightIo, pc := .timers (.drain false) }
  | .idle | .finished | .closed => w

-- The operations a step of the worker starts.
def started (i : Input) : List OpId :=
  match w.pc with
  | .exec _            => i.publishedCpu ++ i.publishedIo.map Prod.fst
  | .timers _ | .fetch => i.timers
  | _                  => []

def Working : Pc → Bool
  | .idle | .finished | .closed => false
  | _                           => true

def step (w : Worker) : Action → Option Worker
  | .publishIo op kind =>
    if !w.ctx.lifeState ∧ w.ctx.Fresh [op] then
      let ctx := w.ctx.setOp op { kind }
      some { w with ctx := { ctx with sharedIo := op :: ctx.sharedIo } }
    else none
  | .publishCpu op =>
    if !w.ctx.lifeState ∧ w.ctx.Fresh [op] then
      some { w with ctx := { w.ctx with sharedCpu := op :: w.ctx.sharedCpu } }
    else none
  | .takeIo =>
    some { w with ctx := { w.ctx with sharedIo := [], taken := w.ctx.sharedIo ++ w.ctx.taken } }
  | .takeCpu =>
    some { w with ctx := { w.ctx with sharedCpu := [], taken := w.ctx.sharedCpu ++ w.ctx.taken } }
  | .complete data result flags =>
    if w.ctx.ring.isOpen ∧ data ∈ w.ctx.ring.kernel then
      let ring := { w.ctx.ring with
        kernel := w.ctx.ring.kernel.erase data
        cq := w.ctx.ring.cq ++ [{ userData := data, result, flags }] }
      some { w with ctx := { w.ctx with ring } }
    else none
  | .stop =>
    if w.ctx.state = .running then some { w with ctx := { w.ctx with state := .finishing } } else some w
  | .close => some { w with ctx := { w.ctx with lifeState := true } }
  | .drainIo =>
    match w.ctx.sharedIo with
    | []      => none
    | op :: l =>
      if w.ctx.lifeState ∧ !Working w.pc then
        let s := { w.ctx with sharedIo := l }
        let s := s.setOp op { s.ops op with result := -ecanceled }
        some { w with ctx := (s.completeSubmitStopped op).execute op }
      else none
  | .drainCpu =>
    match w.ctx.sharedCpu with
    | []      => none
    | op :: l =>
      if w.ctx.lifeState ∧ !Working w.pc then
        some { w with ctx := { w.ctx with sharedCpu := l }.execute op }
      else none
  | .run enabled =>
    if w.pc = .idle ∧ w.ctx.ring.isOpen then
      if enabled < 0 then
        some (toFinish { w with ctx := { w.ctx with state := .finishing } })
      else some (w.goto (.enter .shared))
    else none
  | .queueExit =>
    match w.pc with
    | .idle     => some { ctx := { w.ctx with state := .finishing }, pc := .abort }
    | .finished =>
      some { ctx := { w.ctx with ring := w.ctx.ring.queueExit, pollPending := fun _ => false },
             pc := .closed }
    | _         => none
  | .work i =>
    if Working w.pc ∧ w.ctx.Fresh (w.started i) then some (w.workStep i) else none

-- What a step publishes to the I/O queues and to the CPU queues.
def publishesIo (w : Worker) : Action → List OpId
  | .publishIo op _ => [op]
  | .work i         =>
    match w.pc with
    | .exec _ => if w.ctx.batch = [] then [] else i.publishedIo.map Prod.fst
    | _       => []
  | _               => []

def publishesCpu (w : Worker) : Action → List OpId
  | .publishCpu op => [op]
  | .work i        =>
    match w.pc with
    | .exec _            => if w.ctx.batch = [] then [] else i.publishedCpu
    | .timers _ | .fetch => if i.fetched then i.timers else []
    | _                  => []
  | _              => []

def publishes (w : Worker) (a : Action) : List OpId :=
  w.publishesCpu a ++ w.publishesIo a

end Worker
end Bnio.Uring
