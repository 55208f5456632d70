import Bnio.Lib.Links

namespace Bnio.Kqueue

def e2big : Int := 7
def eio : Int := 5
def einval : Int := 22
def epipe : Int := 32
def eagain : Int := 35
def eopnotsupp : Int := 102
def ecanceled : Int := 89

def evfiltRead : Int := -1
def evfiltWrite : Int := -2

-- POLLIN | POLLPRI | POLLRDNORM | POLLRDBAND
def readPollMask : Nat := 0xc3
-- POLLOUT | POLLWRNORM | POLLWRBAND
def writePollMask : Nat := 0x104
def pollHup : Nat := 0x10
def pollErr : Nat := 0x8

-- The address of an operation.
abbrev OpId := Nat

-- A wait queue is keyed by (ident, filter).
abbrev Key := Int × Int

inductive Task
  | none | nop | read | write | poll
  deriving DecidableEq, Repr

-- The address of `operation.registrations[index]`.
structure Node where
  op : OpId
  index : Nat
  deriving DecidableEq, Repr

structure Registration where
  operation : Option OpId := none
  ident : Int := 0
  filter : Int := 0
  task : Task := .none
  pollMask : Nat := 0
  armed : Bool := false
  sequence : Nat := 0
  waitNext : Option Node := none
  waitPrev : Option Node := none

def Registration.key (r : Registration) : Key :=
  (r.ident, r.filter)

-- The preparation object filled by `prepare()`; `filters` are the filters of its events.
structure Helper where
  task : Task := .none
  descriptor : Int := -1
  pollMask : Nat := 0
  filters : List Int := []
  error : Int := 0

namespace Helper

def reset (task : Task) (descriptor : Int) (pollMask : Nat) : Helper :=
  { task, descriptor, pollMask }

def appendFilter (h : Helper) (filter : Int) : Helper :=
  if h.filters.length ≥ 2 then { h with error := -e2big }
  else { h with filters := h.filters ++ [filter] }

def prepNop : Helper :=
  reset .nop (-1) 0

def prepRead (descriptor : Int) : Helper :=
  (reset .read descriptor 0).appendFilter evfiltRead

def prepWrite (descriptor : Int) : Helper :=
  (reset .write descriptor 0).appendFilter evfiltWrite

def prepPollAdd (descriptor : Int) (pollMask : Nat) : Helper :=
  let h := reset .poll descriptor pollMask
  let h := if pollMask &&& readPollMask ≠ 0 then h.appendFilter evfiltRead else h
  let h := if pollMask &&& writePollMask ≠ 0 then h.appendFilter evfiltWrite else h
  if h.filters.length = 0 ∧ h.error = 0 then { h with error := -einval } else h

end Helper

-- What an operation's `prepare()` asks for: reads and accepts prepare a read, writes and connects
-- a write, and `unset` is an operation whose `prepare()` selects nothing.
inductive Request
  | unset
  | nop
  | read (descriptor : Int)
  | write (descriptor : Int)
  | poll (descriptor : Int) (pollMask : Nat)
  deriving DecidableEq, Repr

def Request.prepare : Request → Helper
  | unset      => {}
  | nop        => .prepNop
  | read fd    => .prepRead fd
  | write fd   => .prepWrite fd
  | poll fd pm => .prepPollAdd fd pm

inductive Completion
  | value
  | error (result : Int)
  | stopped
  deriving DecidableEq, Repr

structure Operation where
  request : Request
  registrationCount : Nat := 0
  result : Int := 0
  flags : Nat := 0
  completion : Completion := .value

-- `filters` is the kernel's side: the udata of every (ident, filter) that is currently added to the
-- kqueue. `inflight` and `localCpu` are the intrusive lists read from their heads.
structure Context where
  queueOpen : Bool := true
  ops : OpId → Operation
  regs : Node → Registration
  inflight : List OpId := []
  filters : Key → Option OpId := fun _ => none
  localCpu : List OpId := []
  nextSequence : Nat := 0

-- What the outside answers during one step: the reply of `control` to the EV_ADD of a node and what
-- an operation's `owns_io_step` and `perform_io` return. The error of a receipt is an `errno`, which the
-- conversion to `int` keeps.
structure ControlReply where
  result : Int := 1
  hasError : Bool := true
  data : BitVec 31 := 0

-- The value `arm_registration` computes from the reply to its EV_ADD.
def ControlReply.status (r : ControlReply) : Int :=
  if r.result < 0 then r.result
  else if r.result ≠ 1 then -eio
  else if r.hasError ∧ r.data ≠ 0 then -r.data.toNat
  else 0

structure Env where
  evAdd : Node → ControlReply := fun _ => {}
  ownsIoStep : OpId → Bool := fun _ => true
  performIo : OpId → Int := fun _ => 0

namespace Context

variable (env : Env) (s : Context)

def setReg (n : Node) (r : Registration) : Context :=
  { s with regs := Function.update s.regs n r }

def setWaitNext (n : Node) (waitNext : Option Node) : Context :=
  s.setReg n { s.regs n with waitNext }

def setWaitPrev (n : Node) (waitPrev : Option Node) : Context :=
  s.setReg n { s.regs n with waitPrev }

def setArmed (n : Node) (armed : Bool) : Context :=
  s.setReg n { s.regs n with armed }

def setOp (op : OpId) (o : Operation) : Context :=
  { s with ops := Function.update s.ops op o }

def setFilter (k : Key) (udata : Option OpId) : Context :=
  { s with filters := Function.update s.filters k udata }

-- EV_DELETE
def evDelete (k : Key) : Context :=
  s.setFilter k none

def pushCpu (op : OpId) : Context :=
  { s with localCpu := op :: s.localCpu }

def completeSubmitError (op : OpId) (result : Int) : Context :=
  s.setOp op { s.ops op with result, completion := .error result }

def completeSubmitStopped (op : OpId) : Context :=
  s.setOp op { s.ops op with result := -ecanceled, completion := .stopped }

-- The registration nodes an operation currently owns, in index order.
def nodesOf (op : OpId) : List Node :=
  ([0, 1].filter (· < (s.ops op).registrationCount)).map (Node.mk op)

def addInflight (op : OpId) : Context :=
  if op ∈ s.inflight then s else { s with inflight := op :: s.inflight }

def removeInflight (op : OpId) : Context :=
  { s with inflight := s.inflight.erase op }

def findQueueTail (k : Key) : Option Node :=
  (s.inflight.flatMap s.nodesOf).find? fun n =>
    (s.regs n).operation.isSome && (s.regs n).key = k && (s.regs n).waitNext = none

def armRegistration (n : Node) : Context × Int :=
  let status := (env.evAdd n).status
  if status < 0 then (s, status)
  else
    ((s.setFilter (s.regs n).key (s.regs n).operation).setArmed n true, 0)

def appendNode (n : Node) : Context × Int :=
  match s.findQueueTail (s.regs n).key with
  | none      => ((s.setWaitPrev n none).setWaitNext n none).armRegistration env n
  | some tail =>
    let s := s.setWaitNext tail (some n)
    (((s.setWaitPrev n (some tail)).setWaitNext n none).setArmed n false, 0)

-- Returns the successor of `n` as well.
def unlinkNode (n : Node) : Context × Option Node :=
  let next := (s.regs n).waitNext
  let prev := (s.regs n).waitPrev
  let s := match prev with
    | some p => s.setWaitNext p next
    | none   => s
  let s := match next with
    | some m => s.setWaitPrev m prev
    | none   => s
  ((s.setWaitPrev n none).setWaitNext n none, next)

-- What `fail_operation` and `unregister_operation` do to each of their nodes: delete the filter of an
-- armed node, unlink the node and reset it. Returns the successor of `n` as well.
def releaseNode (n : Node) : Context × Option Node :=
  let s := if (s.regs n).armed then s.evDelete (s.regs n).key else s
  let (s, next) := s.unlinkNode n
  (s.setReg n {}, next)

-- The loop body of `fail_operation`: releases one node without arming its successor.
def detachNode (op : OpId) (index : Nat) : Context :=
  let n : Node := ⟨op, index⟩
  if index < (s.ops op).registrationCount ∧ (s.regs n).operation.isSome then (s.releaseNode n).1
  else s

def failOperation (op : OpId) (result : Int) : Context :=
  let s := [0, 1].foldl (·.detachNode op ·) s
  let s := s.setOp op { s.ops op with registrationCount := 0 }
  ((s.removeInflight op).completeSubmitError op result).pushCpu op

-- Every round of the loop but the last takes an operation off the inflight list, so the length of
-- that list is enough fuel.
def armQueueHead : Nat → Context → Option Node → Context
  | 0,        s, _      => s
  | _ + 1,    s, none   => s
  | fuel + 1, s, some c =>
    let (s, status) := s.armRegistration env c
    if status ≥ 0 then s
    else
      let after := (s.regs c).waitNext
      armQueueHead fuel (s.failOperation c.op status) after

-- The loop body of `unregister_operation`: if the released node was the armed head, the successor
-- that took over is armed.
def unregisterNode (op : OpId) (index : Nat) : Context :=
  let n : Node := ⟨op, index⟩
  if index < (s.ops op).registrationCount ∧ (s.regs n).operation.isSome then
    let wasArmed := (s.regs n).armed
    let (s, newHead) := s.releaseNode n
    if wasArmed then armQueueHead env s.inflight.length s newHead else s
  else s

def unregisterOperation (op : OpId) : Context :=
  let s := [0, 1].foldl (fun s i => s.unregisterNode env op i) s
  s.setOp op { s.ops op with registrationCount := 0 }

-- The loop of `register_operation`, with the rollback of its error path.
def registerFrom (op : OpId) : List Nat → Context → Context × Int
  | [],          s => (s, 0)
  | index :: is, s =>
    if index < (s.ops op).registrationCount then
      let (s, status) := s.appendNode env ⟨op, index⟩
      if status < 0 then (s.unregisterOperation env op, status) else registerFrom op is s
    else (s, 0)

def registerOperation (op : OpId) : Context × Int :=
  registerFrom env op [0, 1] s

-- The loop of `prepare_io` over the events of the helper.
def fillRegistrations (op : OpId) (h : Helper) : Nat → List Int → Context → Context
  | _,     [],           s => s
  | index, filter :: fs, s =>
    let s := s.setReg ⟨op, index⟩ {
      operation := some op, ident := h.descriptor, filter, task := h.task,
      pollMask := h.pollMask, sequence := s.nextSequence }
    fillRegistrations op h (index + 1) fs { s with nextSequence := s.nextSequence + 1 }

def prepareIo (op : OpId) : Context × Int :=
  if !s.queueOpen then (s, -einval)
  else
    let h := (s.ops op).request.prepare
    if h.error < 0 then (s, h.error)
    else if h.task = .none then (s, -einval)
    else
      let s := s.setOp op { s.ops op with registrationCount := 0 }
      if h.task = .nop then (s, 0)
      else
        let s := fillRegistrations op h 0 h.filters s
        (s.setOp op { s.ops op with registrationCount := h.filters.length }, 0)

def prepareAndRegisterOperation (op : OpId) : Context × Bool :=
  let (s, prepared) := s.prepareIo op
  if prepared < 0 then (s.completeSubmitError op prepared, false)
  else if (s.ops op).registrationCount = 0 then (s, false)
  else
    let (s, registered) := s.registerOperation env op
    if registered < 0 then (s.completeSubmitError op registered, false)
    else (s.addInflight op, true)

-- The loop body of `consume_io_tasks` while the context is running.
def consumeOperation (op : OpId) : Context :=
  let s := s.setOp op { s.ops op with result := 0, flags := 0 }
  let (s, registered) := s.prepareAndRegisterOperation env op
  if registered then s else s.pushCpu op

-- The loop body of `abort_inflight_io` over the nodes of one operation. No node is unlinked here:
-- the other nodes of the queue are reset in their own rounds.
def abortNode (op : OpId) (index : Nat) : Context :=
  let n : Node := ⟨op, index⟩
  if index < (s.ops op).registrationCount ∧ (s.regs n).operation.isSome then
    let s := if (s.regs n).armed then s.evDelete (s.regs n).key else s
    s.setReg n {}
  else s

def abortOperation (op : OpId) : Context :=
  let s := [0, 1].foldl (·.abortNode op ·) s
  let s := s.setOp op { s.ops op with registrationCount := 0 }
  (s.completeSubmitStopped op).pushCpu op

-- The loop of `abort_inflight_io` over the inflight list.
def abortInflightIo : Context :=
  s.inflight.foldl (·.abortOperation ·) { s with inflight := [] }

end Context
end Bnio.Kqueue
