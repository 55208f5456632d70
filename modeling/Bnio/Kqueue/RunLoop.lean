import Bnio.Kqueue.Events

namespace Bnio.Kqueue

inductive RunState
  | running | finishing | finished
  deriving DecidableEq, Repr

structure Options where
  eventBatchWindow : Nat := 1
  eventInlineCompletionThreshold : Nat := 0
  localQueueThreshold : Nat := 0
  waitSpinCount : Nat := 0

-- Where in the loop the functions that look for work are called.
inductive Site
  -- handle_run_ready_tasks
  | ready
  -- spin_for_work, in the given round
  | spin (round : Nat)
  -- wait_for_io_work after begin_wait
  | pre
  -- compute_io_wait_timeout, once the fetch has told whether there is a deadline
  | fetched (deadline : Bool)
  -- wait_for_io_work after the wait, which may have had a timeout
  | post (timeout : Bool)
  -- the first phase of finish
  | finish
  -- drain_local_cpu_tasks and the loop of finish around it
  | drain
  deriving DecidableEq, Repr

inductive Pc
  | idle
  -- collect_event_tasks calls kevent without waiting.
  | collect (site : Site)
  -- process_event for the rest of the events, and dispatch_event_tasks after the last one.
  | process (site : Site)
  | cpu (site : Site)
  -- execute_tasks walks through the batch.
  | exec (site : Site)
  | timers (site : Site)
  | io (site : Site)
  | check (site : Site)
  -- `should_finish() ? finish_drain : run_ready_tasks`
  | resume
  -- compute_io_wait_timeout
  | fetch
  | block (timeout : Bool)
  -- abort_inflight_io
  | abort
  | finished
  | closed
  deriving DecidableEq, Repr

-- The LIFO queues are read from their heads; the worker's own CPU queue is part of `ctx`. `events` and
-- `tasks` belong to the call of `collect_event_tasks` under way, `batch` is what is left of the list
-- `execute_tasks` walks through. Without shared state the context is a standalone one.
structure Worker where
  ctx : Context
  events : List Event := []
  tasks : List OpId := []
  localIo : List OpId := []
  sharedIo : List OpId := []
  sharedCpu : List OpId := []
  batch : List OpId := []
  executed : List OpId := []
  hasShared : Bool := true
  state : RunState := .running
  lifeState : Bool := false
  localTaskBudget : Nat := 0
  options : Options := {}
  pc : Pc := .idle

-- What the outside does during one step of the worker: the answers to EV_ADD and `perform_io` while an
-- operation is handled, the events `kevent` reports, the result of `try_fetch_timeout_operations` and
-- the work the receiver of an executed operation publishes from this thread.
structure Input where
  env : OpId → Env := fun _ => {}
  events : List Event := []
  fetched : Bool := false
  timers : List OpId := []
  deadline : Bool := false
  publishedCpu : List OpId := []
  publishedIo : List (OpId × Request) := []

inductive WorkerAction
  -- A foreign thread publishes to a shared queue.
  | publishIo (op : OpId) (request : Request)
  | publishCpu (op : OpId)
  -- `kqueue_context::stop`
  | stop
  -- `io_context::stop` publishes the stopping state.
  | close
  | run
  | queueExit
  -- The worker makes a step.
  | work (i : Input)

namespace Context

variable (s : Context)

-- Pushes the operations of a list one by one, from its head on.
def pushCpuList (ops : List OpId) : Context :=
  ops.foldl pushCpu s

def stopOperation (op : OpId) : Context :=
  (s.completeSubmitStopped op).pushCpu op

def drainIoListCompleteStopped (ops : List OpId) : Context :=
  ops.foldl stopOperation s

end Context

namespace Worker

variable (w : Worker)

def stopRequested : Bool :=
  w.state ≠ .running

def closingRequested : Bool :=
  w.hasShared && w.lifeState

def shouldFinish : Bool :=
  w.closingRequested || w.stopRequested && w.ctx.inflight.isEmpty

-- The teardown guard of `consume_io_tasks`, and the end of `abort_inflight_io`.
def stopQueuedIo : Worker :=
  let w := { w with ctx := w.ctx.drainIoListCompleteStopped w.localIo, localIo := [] }
  { w with ctx := w.ctx.drainIoListCompleteStopped w.sharedIo, sharedIo := [] }

-- `consume_io_tasks` pops the first queue that is not empty.
def popIo : Worker × List OpId :=
  if w.localIo ≠ [] then ({ w with localIo := [] }, w.localIo)
  else ({ w with sharedIo := [] }, w.sharedIo)

def consumeIoTasks (env : OpId → Env) : Worker × Bool :=
  if w.stopRequested || w.closingRequested then
    (w.stopQueuedIo, !(w.localIo.isEmpty && w.sharedIo.isEmpty))
  else
    let (w, ops) := w.popIo
    -- publication is LIFO; reverse_io_tasks restores the order of the producers
    ({ w with ctx := ops.reverse.foldl (fun s op => s.consumeOperation (env op) op) w.ctx }, !ops.isEmpty)

def abortInflightIo : Worker :=
  { w with ctx := w.ctx.abortInflightIo }.stopQueuedIo

-- The next event of the batch goes to `process_event`.
def processEvent (env : Env) (e : Event) : Worker :=
  let (ctx, completed) := w.ctx.processEvent env e
  match completed, e.udata with
  | true, .operation op => { w with ctx, tasks := op :: w.tasks }
  | _,    _             => { w with ctx }

def pushCpuTasks (ops : List OpId) : Worker :=
  if !w.hasShared then { w with ctx := w.ctx.pushCpuList ops.reverse }
  else { w with sharedCpu := ops.reverse.foldl (fun l op => op :: l) w.sharedCpu }

def dispatchEventTasks : Worker :=
  let tasks := w.tasks
  let w := { w with tasks := [] }
  if tasks.length ≤ w.options.eventInlineCompletionThreshold then
    { w with ctx := w.ctx.pushCpuList tasks.reverse }
  else if w.options.localQueueThreshold = 0 ∨
      0 < w.localTaskBudget ∧ tasks.length ≤ w.localTaskBudget then
    let w := { w with ctx := w.ctx.pushCpuList tasks.reverse }
    if 0 < w.options.localQueueThreshold then
      { w with localTaskBudget := w.localTaskBudget - tasks.length }
    else w
  else w.pushCpuTasks tasks

-- `fetch_cpu_task`; the fetched list becomes the batch.
def fetchCpuTask : Worker :=
  if w.ctx.localCpu ≠ [] then
    { w with ctx := { w.ctx with localCpu := [] }, batch := w.ctx.localCpu.reverse }
  else { w with sharedCpu := [], batch := w.sharedCpu.reverse }

-- `publish_io` from the worker's own thread.
def publishLocalIo (p : OpId × Request) : Worker :=
  { w with ctx := w.ctx.setOp p.1 { request := p.2 }, localIo := p.1 :: w.localIo }

-- The next operation of the batch is executed; its receiver publishes work.
def executeNext (i : Input) : Worker :=
  match w.batch with
  | []      => w
  | op :: l =>
    let w := { w with batch := l, executed := op :: w.executed }
    i.publishedIo.foldl publishLocalIo { w with ctx := w.ctx.pushCpuList i.publishedCpu }

def goto (pc : Pc) : Worker :=
  { w with pc }

-- Without inflight operations `handle_run_ready_tasks` does not call `kevent`.
def toReady : Worker :=
  { w with
    localTaskBudget := w.options.localQueueThreshold
    pc := if w.ctx.inflight = [] then .cpu .ready else .collect .ready }

def toFinish : Worker :=
  w.goto (.collect .finish)

def toSpin (round : Nat) : Worker :=
  if round < w.options.waitSpinCount then w.goto (.collect (.spin round)) else w.goto (.collect .pre)

def afterCollect (found : Bool) : Site → Worker
  | .ready     => w.goto (.cpu .ready)
  | .spin r    => if found then w.toReady else w.goto (.cpu (.spin r))
  | .pre       => if found then w.goto .resume else w.goto (.cpu .pre)
  | .post t    => if found || t then w.toReady else w.goto (.cpu (.post t))
  | .finish    => w.goto (.timers .finish)
  | .fetched d => w.goto (.cpu (.fetched d))
  | .drain     => w.goto (.timers .drain)

def afterCpu (ran : Bool) : Site → Worker
  | .ready     => if ran then w.toReady else w.goto (.timers .ready)
  | .spin r    => if ran then w.toReady else w.goto (.timers (.spin r))
  | .pre       => if ran then w.goto .resume else w.goto (.timers .pre)
  | .fetched d => if ran then w.goto .resume else w.goto (.io (.fetched d))
  | .post t    => if ran then w.toReady else w.goto (.timers (.post t))
  | .finish    => if ran then w.toFinish else w.goto (.io .finish)
  | .drain     => if ran then w.goto (.timers .drain) else w.goto (.io .drain)

def afterTimers (got : Bool) : Site → Worker
  | .ready     => if got then w.toReady else w.goto (.io .ready)
  | .spin r    => if got then w.toReady else w.goto (.check (.spin r))
  | .pre       => if got then w.goto .resume else w.goto (.io .pre)
  | .post t    => if got then w.toReady else w.goto (.io (.post t))
  | .finish    => w.goto (.cpu .finish)
  | .drain     => w.goto (.cpu .drain)
  | .fetched d => w.goto (.cpu (.fetched d))

def afterIo (found : Bool) : Site → Worker
  | .ready     => if found then w.toReady else w.goto (.check .ready)
  | .pre       => if found then w.goto .resume else w.goto (.check .pre)
  | .fetched d => if found then w.goto .resume else w.goto (.check (.fetched d))
  | .post t    => if found then w.toReady else w.goto (.check (.post t))
  | .finish    => if found then w.toFinish else w.goto .abort
  | .drain     => if found then w.goto .abort else { w with state := .finished, pc := .finished }
  | .spin r    => w.goto (.check (.spin r))

def afterCheck (finish : Bool) : Site → Worker
  | .ready     => if finish then w.toFinish else w.toSpin 0
  | .spin r    => if finish then w.toFinish else w.toSpin (r + 1)
  | .pre       => if finish then w.goto .resume else w.goto .fetch
  | .fetched d => if finish then w.goto .resume else w.goto (.block d)
  | .post _    => if finish then w.toFinish else w.toSpin 0
  | .finish    => w.goto (.cpu .finish)
  | .drain     => w.goto (.cpu .drain)

-- One step of `collect_ready_events` after `kevent`: the next event, or the dispatch.
def processStep (site : Site) (env : OpId → Env) : Worker :=
  match w.events with
  | e :: es => { w with events := es }.processEvent (e.udata.op?.elim {} env) e
  | []      =>
    if w.tasks = [] then w.afterCollect false site
    else w.dispatchEventTasks.afterCollect true site

def workStep (i : Input) : Worker :=
  match w.pc with
  | .collect site => { w with events := i.events }.goto (.process site)
  | .process site => w.processStep site i.env
  | .cpu site     =>
    if w.ctx.localCpu = [] ∧ w.sharedCpu = [] then w.afterCpu false site
    else w.fetchCpuTask.goto (.exec site)
  | .exec site    => if w.batch = [] then w.afterCpu true site else w.executeNext i
  | .timers site  =>
    if i.fetched ∧ i.timers ≠ [] then
      { w with ctx := w.ctx.pushCpuList i.timers }.afterTimers true site
    else w.afterTimers false site
  | .io site      =>
    let (w, found) := w.consumeIoTasks i.env
    w.afterIo found site
  | .check site   => w.afterCheck w.shouldFinish site
  | .resume       => if w.shouldFinish then w.toFinish else w.toReady
  | .fetch        =>
    if !i.fetched then w.goto (.block false)
    else if i.timers ≠ [] then { w with ctx := w.ctx.pushCpuList i.timers }.goto .resume
    else w.goto (.cpu (.fetched i.deadline))
  | .block t      => { w with events := i.events }.goto (.process (.post t))
  | .abort        => w.abortInflightIo.goto (.timers .drain)
  | .idle | .finished | .closed => w

-- The operations a step of the worker starts.
def started (i : Input) : List OpId :=
  match w.pc with
  | .exec _            => i.publishedCpu ++ i.publishedIo.map Prod.fst
  | .timers _ | .fetch => i.timers
  | _                  => []

-- Every operation the worker, the shared queues or the past hold.
def held : List OpId :=
  w.ctx.inflight ++ w.localIo ++ w.sharedIo ++ w.tasks ++ w.ctx.localCpu ++ w.sharedCpu ++ w.batch ++
    w.executed

-- Operations are started once.
def Fresh (ops : List OpId) : Prop :=
  ops.Nodup ∧ ∀ op ∈ ops, op ∉ w.held

instance (ops : List OpId) : Decidable (w.Fresh ops) :=
  inferInstanceAs (Decidable (_ ∧ _))

def Working : Pc → Bool
  | .idle | .finished | .closed => false
  | _                           => true

-- What `kevent` may report. It is called with room for `event_batch_window` events.
def Reports (events : List Event) : Prop :=
  match w.pc with
  | .collect _ | .block _ =>
    events.length ≤ w.options.eventBatchWindow ∧ Loop.Fired w.ctx.filters events
  | _                     => True

instance (events : List Event) : Decidable (w.Reports events) := by
  unfold Reports
  split <;> infer_instance

def step (w : Worker) : WorkerAction → Option Worker
  | .publishIo op request =>
    if w.hasShared ∧ !w.lifeState ∧ w.Fresh [op] then
      some { w with ctx := w.ctx.setOp op { request }, sharedIo := op :: w.sharedIo }
    else none
  | .publishCpu op =>
    if w.hasShared ∧ !w.lifeState ∧ w.Fresh [op] then some { w with sharedCpu := op :: w.sharedCpu }
    else none
  | .stop => if w.state = .running then some { w with state := .finishing } else some w
  | .close => some { w with lifeState := true }
  | .run => if w.pc = .idle ∧ w.ctx.queueOpen then some w.toReady else none
  | .queueExit =>
    match w.pc with
    | .idle     => some { w with state := .finishing, pc := .abort }
    | .finished => some { w with ctx := { w.ctx with queueOpen := false, filters := fun _ => none },
                                 pc := .closed }
    | _         => none
  | .work i =>
    if Working w.pc ∧ w.Fresh (w.started i) ∧ w.Reports i.events then some (w.workStep i) else none

-- A fresh context.
def init (options : Options) (hasShared : Bool) : Worker where
  ctx := Loop.init.ctx
  options := options
  hasShared := hasShared

end Worker
end Bnio.Kqueue
