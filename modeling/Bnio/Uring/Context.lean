import Mathlib

namespace Bnio.Uring

def eintr : Int := 4
def eagain : Int := 11
def enomem : Int := 12
def ebusy : Int := 16
def einval : Int := 22
def etime : Int := 62
def ecanceled : Int := 125

-- The address of an operation. An operation is started at most once.
abbrev OpId := Nat

-- The shared and the per-worker wake channel.
inductive Channel
  | shared | worker
  deriving DecidableEq, Repr

-- What `classify_cqe_user_data` tells apart.
inductive UserData
  | wake (c : Channel)
  | operation (op : OpId)
  deriving DecidableEq, Repr

def UserData.op? : UserData → Option OpId
  | wake _       => none
  | operation op => some op

structure Cqe where
  userData : UserData
  result : Int := 0
  flags : Nat := 0
  deriving DecidableEq, Repr

-- The ring without SQPOLL: `sq` are the queued SQEs the kernel has not consumed, `kernel` the requests
-- it holds and `cq` the completions the worker has not collected, each from the oldest on.
@[ext]
structure Ring where
  isOpen : Bool := true
  entries : Nat := 1
  sq : List UserData := []
  kernel : List UserData := []
  cq : List Cqe := []

namespace Ring

def queue (r : Ring) (data : List UserData) : Ring :=
  { r with sq := r.sq ++ data }

-- `get_sqe` and `set_data`; there is no entry when the SQ is full.
def getSqe (r : Ring) (data : UserData) : Option Ring :=
  if r.sq.length < r.entries then some (r.queue [data]) else none

-- `io_uring_submit`, given what the kernel answers: a positive answer is the number of SQEs it
-- consumes, any other answer leaves the SQ as it is.
def submit (r : Ring) (answer : Int) : Ring × Int :=
  if answer ≤ 0 then (r, answer)
  else
    let consumed := r.sq.take answer.toNat
    ({ r with sq := r.sq.drop answer.toNat, kernel := r.kernel ++ consumed }, consumed.length)

-- `io_uring_cq_advance` past the oldest completion.
def advance (r : Ring) : Ring :=
  { r with cq := r.cq.tail }

def queueExit (r : Ring) : Ring :=
  { r with isOpen := false, sq := [], kernel := [], cq := [] }

end Ring

inductive Completion
  | value
  | valueWithEc (error : Int)
  | stopped
  deriving DecidableEq, Repr

-- The I/O operations of `io_context`, and those of `io_uring_context` itself, which are submitted
-- again after -EAGAIN if they have opted in.
inductive OperationClass
  | native
  | receiver (rearmOnEagain : Bool)
  deriving DecidableEq, Repr

structure Operation where
  result : Int := 0
  flags : Nat := 0
  completion : Completion := .value
  kind : OperationClass := .receiver false

namespace Operation

variable (o : Operation)

def rearmOnEagain : Bool :=
  match o.kind with
  | .native         => true
  | .receiver rearm => rearm

@[simp]
theorem rearmOnEagain_mk {result : Int} {flags : Nat} {completion : Completion} :
    rearmOnEagain ⟨result, flags, completion, o.kind⟩ = o.rearmOnEagain :=
  rfl

-- `native_io_operation::complete_submit_error`
def nativeCompleteSubmitError (result : Int) : Operation :=
  { o with completion := .valueWithEc (-result), result, flags := 0 }

-- The other operations leave `result` and `flags` as they are.
def completeSubmitError (result : Int) : Operation :=
  match o.kind with
  | .native     => o.nativeCompleteSubmitError result
  | .receiver _ => { o with completion := .valueWithEc (-result) }

end Operation

-- A terminal receiver call.
structure Delivery where
  op : OpId
  completion : Completion
  result : Int
  flags : Nat
  deriving DecidableEq, Repr

inductive RunState
  | running | finishing | finished
  deriving DecidableEq, Repr

structure Options where
  cqeBatchWindow : Nat := 1
  cqeInlineCompletionThreshold : Nat := 0
  localQueueThreshold : Nat := 0
  waitSpinCount : Nat := 0

-- How many CQEs `collect_ready_cqes` takes at most.
def Options.window (o : Options) : Nat :=
  max 1 o.cqeBatchWindow

-- The LIFO queues are read from their heads. `cqeTasks` is the queue `collect_ready_cqes` fills,
-- `batch` what is left of the list `execute_tasks` walks through. `taken` are the operations other
-- workers have taken off the shared queues.
structure Context where
  ring : Ring := {}
  ops : OpId → Operation := fun _ => {}
  inflight : List OpId := []
  pendingIoRetry : List OpId := []
  localIo : List OpId := []
  sharedIo : List OpId := []
  cqeTasks : List OpId := []
  localCpu : List OpId := []
  sharedCpu : List OpId := []
  batch : List OpId := []
  executed : List Delivery := []
  taken : List OpId := []
  pollPending : Channel → Bool := fun _ => false
  channelOpen : Channel → Bool := fun _ => true
  state : RunState := .running
  lifeState : Bool := false
  localTaskBudget : Nat := 0
  options : Options := {}

-- Whether a submit error leaves the ring usable.
def isTransientSubmitError (error : Int) : Bool :=
  error = -eintr || error = -eagain || error = -ebusy || error = -enomem

namespace Context

variable (s : Context)

def setRing (ring : Ring) : Context :=
  { s with ring }

def setOp (op : OpId) (o : Operation) : Context :=
  { s with ops := Function.update s.ops op o }

def pushCpu (op : OpId) : Context :=
  { s with localCpu := op :: s.localCpu }

-- Pushes the operations of a list one by one, from its head on.
def pushCpuList (ops : List OpId) : Context :=
  ops.foldl pushCpu s

def pushIo (op : OpId) : Context :=
  { s with localIo := op :: s.localIo }

def completeSubmitError (op : OpId) (result : Int) : Context :=
  s.setOp op ((s.ops op).completeSubmitError result)

def completeSubmitStopped (op : OpId) : Context :=
  s.setOp op { s.ops op with completion := .stopped }

def stopRequested : Bool :=
  s.state ≠ .running

def closingRequested : Bool :=
  s.lifeState

def shouldFinish : Bool :=
  s.closingRequested || s.stopRequested && s.inflight.isEmpty

def addInflight (op : OpId) : Context :=
  if op ∈ s.inflight then s else { s with inflight := op :: s.inflight }

def removeInflight (op : OpId) : Context :=
  { s with inflight := s.inflight.erase op }

def prepareIo (op : OpId) : Context × Int :=
  if !s.ring.isOpen then (s, -einval)
  else
    match s.ring.getSqe (.operation op) with
    | none      => (s, -eagain)
    | some ring => (s.setRing ring, 0)

-- Returns the operations prepared so far, the last one first, and the ones a full SQ hands back.
def prepareIoBatch : List OpId → List OpId → Context → Context × List OpId × List OpId
  | [],        prepared, s => (s, prepared, [])
  | op :: ops, prepared, s =>
    let (s, result) := s.prepareIo op
    if result = -eagain then (s, prepared, op :: ops)
    else if result < 0 then prepareIoBatch ops prepared ((s.completeSubmitError op result).pushCpu op)
    else prepareIoBatch ops (op :: prepared) s

def submitRing (answer : Int) : Context × Int :=
  if !s.ring.isOpen then (s, -einval)
  else
    let (ring, result) := s.ring.submit answer
    (s.setRing ring, result)

def trackPreparedBatch (prepared : List OpId) : Context :=
  prepared.foldl addInflight s

def submitAndTrackPrepared (prepared : List OpId) (answer : Int) : Context × Int :=
  if prepared = [] then (s, 0) else (s.trackPreparedBatch prepared).submitRing answer

def failOperation (result : Int) (op : OpId) : Context :=
  ((s.removeInflight op).completeSubmitError op result).pushCpu op

def failIoList (ops : List OpId) (result : Int) : Context :=
  ops.foldl (·.failOperation result ·) s

def stopOperation (op : OpId) : Context :=
  let s := s.setOp op { s.ops op with result := -ecanceled }
  (s.completeSubmitStopped op).pushCpu op

def drainIoListCompleteStopped (ops : List OpId) : Context :=
  ops.foldl stopOperation s

-- The local variables of one `consume_io_tasks` pass.
structure Pass where
  ctx : Context
  prepared : List OpId := []
  remaining : List OpId := []
  foundWork : Bool := false

def Pass.prepare (p : Pass) (ops : List OpId) : Pass :=
  if ops = [] then p
  else
    let (ctx, prepared, remaining) := prepareIoBatch ops p.prepared p.ctx
    { ctx, prepared, remaining, foundWork := true }

def Pass.takeLocal (p : Pass) : Pass :=
  if p.remaining = [] then { p with ctx := { p.ctx with localIo := [] } }.prepare p.ctx.localIo
  else p

def Pass.takeShared (p : Pass) : Pass :=
  if p.remaining = [] then { p with ctx := { p.ctx with sharedIo := [] } }.prepare p.ctx.sharedIo
  else p

-- The three sources in priority order; a source is not touched once the SQ is full.
def preparePass : Pass :=
  let p : Pass := { ctx := { s with pendingIoRetry := [] } }
  (p.prepare s.pendingIoRetry).takeLocal.takeShared

-- `track_prepared_batch` works on its own copy of the list head and clears the `next` pointers, so
-- after it the list the caller still holds consists of its first operation only.
def finishPass (p : Pass) (answer : Int) : Context :=
  let (s, result) := p.ctx.submitAndTrackPrepared p.prepared answer
  if result < 0 then
    let s := s.failIoList (p.prepared.take 1) result
    if isTransientSubmitError result then { s with pendingIoRetry := p.remaining }
    else s.failIoList p.remaining result
  else { s with pendingIoRetry := p.remaining }

-- The teardown guard of `consume_io_tasks`, and the end of `abort_inflight_io`.
def stopQueuedIo : Context :=
  let s := { s.drainIoListCompleteStopped s.pendingIoRetry with pendingIoRetry := [] }
  let s := { s.drainIoListCompleteStopped s.localIo with localIo := [] }
  { s.drainIoListCompleteStopped s.sharedIo with sharedIo := [] }

def consumeIoTasks (answer : Int) : Context × Bool :=
  if s.stopRequested || s.closingRequested then
    (s.stopQueuedIo, !(s.pendingIoRetry.isEmpty && s.localIo.isEmpty && s.sharedIo.isEmpty))
  else
    let p := s.preparePass
    if p.foundWork then (finishPass p answer, true) else (p.ctx, false)

-- 1 when the poll is armed, 0 when the context is stopping.
def armWakePoll (c : Channel) (answer : Int) : Context × Int :=
  if !s.ring.isOpen || !s.channelOpen c then (s, -einval)
  else if s.pollPending c then (s, 1)
  else if s.state ≠ .running then (s, 0)
  else
    match s.ring.getSqe (.wake c) with
    | none      => (s, -eagain)
    | some ring =>
      let (s, result) := (s.setRing ring).submitRing answer
      if result < 0 then (s, result)
      else if result = 0 then (s, -eagain)
      else ({ s with pollPending := Function.update s.pollPending c true }, 1)

def enqueueCqeTask (op : OpId) (cqe : Cqe) : Context :=
  let s := s.removeInflight op
  let s := s.setOp op { s.ops op with result := cqe.result, flags := cqe.flags }
  if cqe.result = -eagain ∧ (s.ops op).rearmOnEagain then s.pushIo op
  else { s with cqeTasks := op :: s.cqeTasks }

-- The call operator of `cqe_collector`.
def collectCqe (cqe : Cqe) (answer : Int) : Context :=
  match cqe.userData with
  | .wake c       =>
    ({ s with pollPending := Function.update s.pollPending c false }.armWakePoll c answer).1
  | .operation op => s.enqueueCqeTask op cqe

def dispatchCqeTasks : Context :=
  let tasks := s.cqeTasks
  let s := { s with cqeTasks := [] }
  if tasks.length ≤ s.options.cqeInlineCompletionThreshold then s.pushCpuList tasks
  else if s.options.localQueueThreshold = 0 ∨
      0 < s.localTaskBudget ∧ tasks.length ≤ s.localTaskBudget then
    let s := s.pushCpuList tasks
    if 0 < s.options.localQueueThreshold then
      { s with localTaskBudget := s.localTaskBudget - tasks.length }
    else s
  else { s with sharedCpu := tasks.foldl (fun l op => op :: l) s.sharedCpu }

-- `fetch_cpu_task`; the fetched list becomes the batch.
def fetchCpuTask : Context :=
  if s.localCpu ≠ [] then { s with localCpu := [], batch := s.localCpu.reverse }
  else { s with sharedCpu := [], batch := s.sharedCpu.reverse }

def execute (op : OpId) : Context :=
  let o := s.ops op
  let delivery := { op, completion := o.completion, result := o.result, flags := o.flags }
  { s with executed := delivery :: s.executed }

def abortInflightIo : Context :=
  (s.inflight.foldl stopOperation { s with inflight := [] }).stopQueuedIo

end Context
end Bnio.Uring
