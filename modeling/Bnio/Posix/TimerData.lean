import Bnio.Lib.HeapLinks
import Bnio.Posix.Timers

namespace Bnio.Posix

-- The operations of a `timer_operation_queue` from its head on, with the size it keeps.
structure OperationQueue where
  ops : List OpId := []
  size : Nat := 0
  deriving DecidableEq, Repr

structure TimerSlot where
  context : Option Owner := none
  expiry : TimePoint := (0 : Nat)
  submitted : OperationQueue := {}
  active : Bool := false
  deriving DecidableEq, Repr

-- `timer_state_data`. The links `previous`, `child` and `next` of the slots serve both the heap and the
-- inactive list. Loops over slots get the number of their rounds as `fuel`.
structure TimerData where
  slots : SlotId → TimerSlot := fun _ => {}
  links : HeapLinks SlotId := ⟨fun _ => none, fun _ => none, fun _ => none⟩
  heap : Option SlotId := none
  inactive : Option SlotId := none
  ready : List Staged := []

namespace TimerData

variable (d : TimerData)

def expiry (s : SlotId) : TimePoint :=
  (d.slots s).expiry

def setSlot (s : SlotId) (v : TimerSlot) : TimerData :=
  { d with slots := Function.update d.slots s v }

def heapDeadline : TimePoint :=
  d.heap.elim ⊤ d.expiry

def pushHeap (s : SlotId) : TimerData :=
  if (d.slots s).active then d
  else
    let d := d.setSlot s { d.slots s with active := true }
    let (links, heap) := (d.links.clear s).meld d.expiry d.heap (some s)
    { d with links, heap }

-- A slot without a predecessor that is not the root is left as it is, its flag included.
def eraseHeap (fuel : Nat) (s : SlotId) : Option TimerData :=
  if !(d.slots s).active then some d
  else if d.links.previous s = none ∧ d.heap ≠ some s then some d
  else do
    let (links, heap) ← d.links.erase d.expiry fuel d.heap s
    some ({ d with links, heap }.setSlot s { d.slots s with active := false })

def popHeap (fuel : Nat) : Option (TimerData × Option SlotId) :=
  match d.heap with
  | none   => some (d, none)
  | some s => (d.eraseHeap fuel s).map (·, some s)

def pushInactive (s : SlotId) : TimerData :=
  if (d.slots s).active ∨ d.inactive = some s ∨ d.links.previous s ≠ none ∨ d.links.next s ≠ none then d
  else
    let links := ((d.links.setChild s none).setPrevious s none).setNext s d.inactive
    let links := match d.inactive with
      | none   => links
      | some h => links.setPrevious h (some s)
    { d with links, inactive := some s }

def eraseInactive (s : SlotId) : TimerData :=
  if (d.slots s).active then d
  else if d.links.previous s = none ∧ d.inactive ≠ some s then d
  else
    let inactive := if d.links.previous s = none then d.links.next s else d.inactive
    let links := match d.links.previous s with
      | none   => d.links
      | some p => d.links.setNext p (d.links.next s)
    let links := match d.links.next s with
      | none   => links
      | some m => links.setPrevious m (d.links.previous s)
    { d with links := links.clear s, inactive }

def erase (fuel : Nat) (s : SlotId) : Option TimerData :=
  if (d.slots s).active then d.eraseHeap fuel s else some (d.eraseInactive s)

def insert (s : SlotId) (now : Nat) : TimerData :=
  if (now : TimePoint) < d.expiry s then d.pushHeap s else d.pushInactive s

-- `take_timer_operations_locked` leaves this behind; the queue is read before.
def takeTimerOperations (s : SlotId) : TimerData :=
  d.setSlot s { d.slots s with submitted := {} }

def enqueueTimerOperations (ops : List OpId) (kind : CompletionKind) : TimerData :=
  { d with ready := ops.foldl (fun ready op => { op, kind } :: ready) d.ready }

def stageSubmitted (s : SlotId) (kind : CompletionKind) : TimerData :=
  (d.takeTimerOperations s).enqueueTimerOperations (d.slots s).submitted.ops kind

def registerTimerLocked (s : SlotId) (now : Nat) : TimerData × Bool :=
  if (d.slots s).context ≠ none then (d, false)
  else
    let d' := d.setSlot s { d.slots s with context := some .this, submitted := {} }
    let d' := { d' with links := d'.links.clear s }
    if (now : TimePoint) < d.expiry s then
      (d'.pushHeap s, (d'.pushHeap s).heapDeadline < d.heapDeadline)
    else (d'.pushInactive s, false)

def unregisterTimerLocked (fuel : Nat) (s : SlotId) : Option (TimerData × Bool) :=
  if (d.slots s).context ≠ some .this then some (d, false)
  else do
    let canceled := (d.slots s).submitted.ops
    let d ← d.erase fuel s
    let d := d.setSlot s { d.slots s with context := none }
    some (d.stageSubmitted s .canceled, canceled ≠ [])

-- Also returns how many waits it cancels.
def cancelTimerLocked (s : SlotId) : TimerData × Nat × Bool :=
  if (d.slots s).context ≠ some .this then (d, 0, false)
  else
    let canceled := (d.slots s).submitted
    (d.stageSubmitted s .canceled, canceled.size, canceled.ops ≠ [])

def setTimerExpiryLocked (fuel : Nat) (s : SlotId) (expiry : TimePoint) (now : Nat) :
    Option (TimerData × Nat × Bool) :=
  if (d.slots s).context ≠ some .this then some (d, 0, false)
  else do
    let canceled := (d.slots s).submitted
    let d' ← d.erase fuel s
    let d' := d'.setSlot s { d'.slots s with expiry }
    let d' := (d'.stageSubmitted s .canceled).insert s now
    some (d', canceled.size, canceled.ops ≠ [] || d'.heapDeadline < d.heapDeadline)

def startTimerWaitLocked (op : OpId) (s : SlotId) : TimerData × Bool :=
  if (d.slots s).context ≠ some .this then (d.enqueueTimerOperations [op] .canceled, true)
  else if !(d.slots s).active then (d.enqueueTimerOperations [op] .value, true)
  else
    let submitted := (d.slots s).submitted
    let submitted := { ops := op :: submitted.ops, size := submitted.size + 1 }
    (d.setSlot s { d.slots s with submitted }, false)

-- The loop of `drain_expired_timers_locked`.
def drainExpired (fuel now : Nat) : Nat → TimerData → Option TimerData
  | 0,          d => if d.heapDeadline ≤ (now : TimePoint) then none else some d
  | rounds + 1, d =>
    if d.heapDeadline ≤ (now : TimePoint) then do
      match ← d.popHeap fuel with
      | (d, none)   => some d
      | (d, some s) =>
        let ops := (d.slots s).submitted.ops
        let d := (d.takeTimerOperations s).pushInactive s
        drainExpired fuel now rounds (d.enqueueTimerOperations ops .value)
    else some d

-- The locked section of `try_fetch_timeout_operations`: the deadline and the operations it returns.
def fetchTimeoutOperations (fuel now : Nat) : Option (TimerData × TimePoint × List Staged) := do
  let d ← drainExpired fuel now fuel d
  some ({ d with ready := [] }, d.heapDeadline, d.ready.reverse)

-- The first loop of `abort_pending_timer_waits`, and of `clear` with `stages` false.
def emptyHeap (fuel : Nat) (stages : Bool) : Nat → TimerData → Option TimerData
  | 0,          d => if d.heap = none then some d else none
  | rounds + 1, d => do
    match ← d.popHeap fuel with
    | (d, none)   => some d
    | (d, some s) =>
      let ops := (d.slots s).submitted.ops
      let d := d.setSlot s { d.slots s with context := none, submitted := {} }
      emptyHeap fuel stages rounds (if stages then d.enqueueTimerOperations ops .canceled else d)

-- The second loop.
def emptyInactive (stages : Bool) : Nat → TimerData → Option TimerData
  | 0,          d => if d.inactive = none then some d else none
  | rounds + 1, d =>
    match d.inactive with
    | none   => some d
    | some s =>
      let d := d.eraseInactive s
      let ops := (d.slots s).submitted.ops
      let d := d.setSlot s { d.slots s with context := none, submitted := {} }
      emptyInactive stages rounds (if stages then d.enqueueTimerOperations ops .canceled else d)

def releaseAll (fuel : Nat) (stages : Bool) : Option TimerData := do
  let d ← emptyHeap fuel stages fuel d
  emptyInactive stages fuel d

def abortPendingTimerWaits (fuel : Nat) : Option TimerData :=
  d.releaseAll fuel true

def clear (fuel : Nat) : Option TimerData := do
  let d ← d.releaseAll fuel false
  some { d with ready := [] }

end TimerData
end Bnio.Posix
