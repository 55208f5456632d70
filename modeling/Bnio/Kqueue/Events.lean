import Bnio.Lib.Transition
import Bnio.Kqueue.Registration

namespace Bnio.Kqueue

-- What `classify_udata` tells apart, and the null pointer.
inductive Udata
  | null
  | sharedWake
  | localWake
  | operation (op : OpId)
  deriving DecidableEq, Repr

def Udata.op? : Udata → Option OpId
  | operation op => some op
  | _            => none

-- `static_cast<int>`, of a `data` with 64 bits or an unsigned word.
def toInt (x : Int) : Int :=
  x.bmod (2 ^ 32)

theorem toInt_of_lt {x : Int} (h₀ : 0 ≤ x) (h : x < 2 ^ 31) : toInt x = x :=
  Int.bmod_eq_of_le (by omega) (by omega)

def evError : Nat := 0x4000
def evEof : Nat := 0x8000

structure Event where
  udata : Udata
  ident : Int
  filter : Int
  flags : Nat := 0
  fflags : Nat := 0
  data : Int := 0
  deriving DecidableEq, Repr

namespace Event

def hasError (e : Event) : Bool :=
  e.flags &&& evError ≠ 0

def hasEof (e : Event) : Bool :=
  e.flags &&& evEof ≠ 0

def key (e : Event) : Key :=
  (e.ident, e.filter)

-- Converts the filter and flags of an event to the requested bits of a poll mask.
def pollResult (e : Event) (pollMask : Nat) : Nat :=
  let result :=
    if e.filter = evfiltRead then pollMask &&& readPollMask
    else if e.filter = evfiltWrite then pollMask &&& writePollMask
    else 0
  let result := if e.hasEof then result ||| pollHup else result
  if e.hasError then result ||| pollErr else result

end Event

namespace Context

variable (env : Env) (s : Context)

def setResult (op : OpId) (result : Int) : Context :=
  s.setOp op { s.ops op with result }

-- The flag says whether the node was linked again.
def tryRearmOperation (op : OpId) (n : Node) : Context × Bool :=
  let (s, status) := s.appendNode env n
  if status ≥ 0 then (s, true) else (s.setResult op status, false)

-- The flag says whether the operation completed; `false` keeps it inflight.
def performIoStep (op : OpId) (n : Node) : Context × Bool :=
  let result := if env.ownsIoStep op then env.performIo op else -eopnotsupp
  let s := s.setResult op result
  if result = -eagain then
    let (s, rearmed) := s.tryRearmOperation env op n
    (s, !rearmed)
  else (s, true)

def dispatchWriteResult (op : OpId) (n : Node) (e : Event) : Context × Bool :=
  if e.hasError ∧ e.data ≠ 0 then (s.setResult op (-toInt e.data), true)
  else if e.hasEof then
    (s.setResult op (if e.fflags = 0 then -epipe else -toInt e.fflags), true)
  else s.performIoStep env op n

def dispatchReadResult (op : OpId) (n : Node) (e : Event) : Context × Bool :=
  if e.hasError ∧ e.data ≠ 0 then (s.setResult op (-toInt e.data), true)
  else s.performIoStep env op n

def dispatchEventResult (op : OpId) (n : Node) (e : Event) : Context × Bool :=
  match (s.regs n).task with
  | .poll  => (s.setResult op (toInt (e.pollResult (s.regs n).pollMask)), true)
  | .write => s.dispatchWriteResult env op n e
  | .read | .none | .nop => s.dispatchReadResult env op n e

def findFiredNode (op : OpId) (filter : Int) : Option Node :=
  (s.nodesOf op).find? fun n => (s.regs n).operation.isSome && (s.regs n).filter = filter

-- `process_event` after `find_fired_node` has found the node `n` of the operation.
def processFired (e : Event) (op : OpId) (n : Node) : Context × Bool :=
  let s := s.evDelete (s.regs n).key
  let s := s.setArmed n false
  let (s, next) := s.unlinkNode n
  let s := armQueueHead env s.inflight.length s next
  let s := s.setOp op { s.ops op with flags := e.flags }
  let (s, completed) := s.dispatchEventResult env op n e
  if completed then ((s.unregisterOperation env op).removeInflight op, true)
  else (s, false)

-- The flag says whether the operation of the event goes to the task queue of the batch. Draining a
-- wake channel does not touch any registration.
def processEvent (e : Event) : Context × Bool :=
  match e.udata with
  | .null | .sharedWake | .localWake => (s, false)
  | .operation op =>
    match s.findFiredNode op e.filter with
    | none   => (s, false)
    | some n => s.processFired env e op n

end Context

-- The context between two steps of its run loop. `batch` are the events of the last `kevent` call
-- that are not processed yet, and `tasks` the operations that call has completed so far.
structure Loop where
  ctx : Context
  batch : List Event := []
  tasks : List OpId := []

inductive Action
  -- `consume_io_tasks` takes an operation off an I/O queue.
  | register (op : OpId) (request : Request) (env : Env)
  -- `kevent` reports `events`.
  | kevent (events : List Event)
  -- The next event of the batch goes to `process_event`.
  | process (env : Env)
  -- `finish` aborts what is inflight.
  | abort

namespace Loop

-- The kernel reports added filters only, each of them at most once per call, with the udata they
-- were added with; the wake channels report at any time.
def Fired (filters : Key → Option OpId) (events : List Event) : Prop :=
  let fired := events.filter (·.udata.op?.isSome)
  (∀ e ∈ fired, filters e.key = e.udata.op?) ∧ fired.Pairwise (·.key ≠ ·.key)

instance (filters : Key → Option OpId) (events : List Event) : Decidable (Fired filters events) :=
  inferInstanceAs (Decidable (_ ∧ _))

def step (s : Loop) : Action → Option Loop
  | .register op request env =>
    if s.batch = [] ∧ op ∉ s.ctx.inflight then
      let ctx := s.ctx.setOp op { s.ctx.ops op with request, completion := .value }
      some { s with ctx := ctx.consumeOperation env op }
    else none
  | .kevent events =>
    if s.batch = [] ∧ Fired s.ctx.filters events then some { s with batch := events, tasks := [] }
    else none
  | .process env =>
    match s.batch with
    | []      => none
    | e :: es =>
      let (ctx, completed) := s.ctx.processEvent env e
      match completed, e.udata with
      | true, .operation op => some { ctx, batch := es, tasks := op :: s.tasks }
      | _,    _             => some { s with ctx, batch := es }
  | .abort => if s.batch = [] then some { s with ctx := s.ctx.abortInflightIo } else none

-- A fresh context: no operation is registered and the kqueue is empty.
def init : Loop where
  ctx := { ops := fun _ => { request := .unset }, regs := fun _ => {} }

end Loop
end Bnio.Kqueue
