import Bnio.Lib.PairingHeap

namespace Bnio.Posix

abbrev OpId := Nat
abbrev SlotId := Nat

-- `⊤` is `time_point::max()`, which no clock reads.
abbrev TimePoint := WithTop Nat

inductive CompletionKind
  | value | canceled | stopped
  deriving DecidableEq, Repr

-- A timer wait on `timers_.ready` with its completion kind.
structure Staged where
  op : OpId
  kind : CompletionKind
  deriving DecidableEq, Repr

-- The context the model is about, or any other one.
inductive Owner
  | this | other
  deriving DecidableEq, Repr

structure Slot where
  context : Option Owner := none
  expiry : TimePoint := (0 : Nat)
  submitted : List OpId := []
  active : Bool := false
  deriving DecidableEq, Repr

-- What `timers_.mutex` guards. `submitted`, `inactive` and `ready` are read from their heads.
structure Timers where
  slots : SlotId → Slot := fun _ => {}
  heap : PairingHeap SlotId := .nil
  inactive : List SlotId := []
  ready : List Staged := []

namespace Timers

variable (t : Timers)

def expiry (s : SlotId) : TimePoint :=
  (t.slots s).expiry

def setSlot (s : SlotId) (v : Slot) : Timers :=
  { t with slots := Function.update t.slots s v }

def heapDeadline : TimePoint :=
  t.heap.front?.elim ⊤ t.expiry

def pushHeap (s : SlotId) : Timers :=
  if (t.slots s).active then t
  else
    let t := t.setSlot s { t.slots s with active := true }
    { t with heap := t.heap.push t.expiry s }

def eraseHeap (s : SlotId) : Timers :=
  if !(t.slots s).active then t
  else { t with heap := t.heap.erase t.expiry s }.setSlot s { t.slots s with active := false }

def pushInactive (s : SlotId) : Timers :=
  if (t.slots s).active || s ∈ t.inactive then t else { t with inactive := s :: t.inactive }

def eraseInactive (s : SlotId) : Timers :=
  if (t.slots s).active then t else { t with inactive := t.inactive.erase s }

-- Takes the slot out of the container it is in.
def erase (s : SlotId) : Timers :=
  if (t.slots s).active then t.eraseHeap s else t.eraseInactive s

-- Puts the slot into the container its expiry asks for.
def insert (s : SlotId) (now : Nat) : Timers :=
  if (now : TimePoint) < t.expiry s then t.pushHeap s else t.pushInactive s

def enqueueTimerOperations (ops : List OpId) (kind : CompletionKind) : Timers :=
  { t with ready := ops.foldl (fun ready op => { op, kind } :: ready) t.ready }

-- `take_timer_operations_locked` with the `enqueue_timer_operations_locked` that always follows it.
def stageSubmitted (s : SlotId) (kind : CompletionKind) : Timers :=
  (t.setSlot s { t.slots s with submitted := [] }).enqueueTimerOperations (t.slots s).submitted kind

-- The flags of the following functions say whether a sleeping worker must be woken.
def registerTimerLocked (s : SlotId) (now : Nat) : Timers × Bool :=
  if (t.slots s).context ≠ none then (t, false)
  else
    let t' := (t.setSlot s { t.slots s with context := some .this, submitted := [] }).insert s now
    (t', (now : TimePoint) < t.expiry s && t'.heapDeadline < t.heapDeadline)

def unregisterTimerLocked (s : SlotId) : Timers × Bool :=
  if (t.slots s).context ≠ some .this then (t, false)
  else
    let t' := t.erase s
    let t' := t'.setSlot s { t'.slots s with context := none }
    (t'.stageSubmitted s .canceled, (t.slots s).submitted ≠ [])

-- Also returns how many waits it cancels.
def cancelTimerLocked (s : SlotId) : Timers × Nat × Bool :=
  if (t.slots s).context ≠ some .this then (t, 0, false)
  else
    let canceled := (t.slots s).submitted
    (t.stageSubmitted s .canceled, canceled.length, canceled ≠ [])

def setTimerExpiryLocked (s : SlotId) (expiry : TimePoint) (now : Nat) : Timers × Nat × Bool :=
  if (t.slots s).context ≠ some .this then (t, 0, false)
  else
    let canceled := (t.slots s).submitted
    let t' := t.erase s
    let t' := t'.setSlot s { t'.slots s with expiry }
    let t' := (t'.stageSubmitted s .canceled).insert s now
    (t', canceled.length, canceled ≠ [] || t'.heapDeadline < t.heapDeadline)

def startTimerWaitLocked (op : OpId) (s : SlotId) : Timers × Bool :=
  if (t.slots s).context ≠ some .this then (t.enqueueTimerOperations [op] .canceled, true)
  else if !(t.slots s).active then (t.enqueueTimerOperations [op] .value, true)
  else (t.setSlot s { t.slots s with submitted := op :: (t.slots s).submitted }, false)

-- One round of `drain_expired_timers_locked`: the slot has been the front of the heap.
def expire (s : SlotId) : Timers :=
  ((t.eraseHeap s).stageSubmitted s .value).pushInactive s

-- A round takes one slot off the heap, so the size of the heap bounds the rounds.
def drainExpired (now : Nat) : Nat → Timers → Timers
  | 0,          t => t
  | rounds + 1, t =>
    match t.heap.front? with
    | some s => if t.expiry s ≤ now then drainExpired now rounds (t.expire s) else t
    | none   => t

-- The locked section of `try_fetch_timeout_operations`: the deadline and the operations it returns.
def fetchTimeoutOperations (now : Nat) : Timers × TimePoint × List Staged :=
  let t := drainExpired now t.heap.members.length t
  ({ t with ready := [] }, t.heapDeadline, t.ready.reverse)

-- One round of `abort_pending_timer_waits`, and of `clear` with `stages` false.
def releaseSlot (stages : Bool) (s : SlotId) : Timers :=
  let ops := (t.slots s).submitted
  let t := t.erase s
  let t := t.setSlot s { t.slots s with context := none, submitted := [] }
  if stages then t.enqueueTimerOperations ops .canceled else t

def emptyHeap (stages : Bool) : Nat → Timers → Timers
  | 0,          t => t
  | rounds + 1, t =>
    match t.heap.front? with
    | some s => emptyHeap stages rounds (t.releaseSlot stages s)
    | none   => t

def emptyInactive (stages : Bool) : Nat → Timers → Timers
  | 0,          t => t
  | rounds + 1, t =>
    match t.inactive with
    | s :: _ => emptyInactive stages rounds (t.releaseSlot stages s)
    | []     => t

def releaseAll (stages : Bool) : Timers :=
  let t := emptyHeap stages t.heap.members.length t
  emptyInactive stages t.inactive.length t

def abortPendingTimerWaits : Timers :=
  t.releaseAll true

def clear : Timers :=
  { t.releaseAll false with ready := [] }

end Timers
end Bnio.Posix
