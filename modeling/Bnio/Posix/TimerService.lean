import Bnio.Lib.Transition
import Bnio.Posix.TimerCalls

namespace Bnio.Posix

-- What `connect` puts into a `timer_wait_operation`.
structure WaitOperation where
  slot : SlotId
  -- `timer_context_` is not null
  captured : Bool
  deriving DecidableEq, Repr

-- The terminal call to a receiver: with no error, with `operation_canceled`, or `set_stopped`.
inductive Signal
  | setValue | setCanceled | setStopped
  deriving DecidableEq, Repr

-- `timer_wait_operation::execute`.
def CompletionKind.signal : CompletionKind → Signal
  | .value    => .setValue
  | .canceled => .setCanceled
  | .stopped  => .setStopped

-- The timers of a context and the wait operations on them. An operation is an index into `operations`.
structure TimerService where
  data : TimerData := {}
  clock : Nat := 0
  operations : List WaitOperation := []
  started : List OpId := []
  -- the lists returned by fetches, as far as they have not been executed
  fetched : List Staged := []
  delivered : List (OpId × Signal) := []
  -- the number the last call returned
  returned : Nat := 0

inductive TimerAction
  | tick (elapsed : Nat)
  | call (c : SlotCall)
  | connect (s : SlotId)
  | start (op : OpId) (stopRequested : Bool)
  | fetch
  | execute (op : OpId)
  deriving DecidableEq, Repr

namespace TimerService

variable (n : Nat) (s : TimerService)

def start (op : OpId) (o : WaitOperation) (stopRequested : Bool) : TimerService :=
  let s := { s with started := op :: s.started }
  if stopRequested then
    if o.captured then { s with data := s.data.enqueueTimerOperations [op] .stopped }
    else { s with delivered := (op, .setStopped) :: s.delivered }
  else if o.captured then { s with data := (s.data.startTimerWaitLocked op o.slot).1 }
  else { s with delivered := (op, .setCanceled) :: s.delivered }

-- Whether the environment can take an action. There are `n` slots.
def Enabled : TimerAction → Prop
  | .tick _     => True
  | .call c     => c.Fits n s.data.context
  | .connect i  => i < n
  | .start op _ => op < s.operations.length ∧ op ∉ s.started
  | .fetch      => True
  | .execute op => op ∈ s.fetched.map Staged.op

instance {a : TimerAction} : Decidable (s.Enabled n a) := by
  cases a <;> unfold Enabled <;> infer_instance

def act : TimerAction → Option TimerService
  | .tick elapsed   => some { s with clock := s.clock + elapsed }
  | .call c         => do
    let (data, returned) ← s.data.call n s.clock c
    some { s with data, returned }
  | .connect i      =>
    some { s with operations := s.operations ++ [⟨i, (s.data.slots i).context ≠ none⟩] }
  | .start op token => do
    let o ← s.operations[op]?
    some (s.start op o token)
  | .fetch          => do
    let (data, _, ops) ← s.data.fetchTimeoutOperations n s.clock
    some { s with data, fetched := s.fetched ++ ops }
  | .execute op     => do
    let x ← s.fetched.find? (·.op = op)
    some { s with fetched := s.fetched.erase x, delivered := (op, x.kind.signal) :: s.delivered }

-- The calls on a running context.
def step : System TimerService TimerAction := fun s a =>
  if s.Enabled n a then s.act n a else none

-- The calls together with the `clear` of the destructor.
def lifeStep : System TimerService (Option TimerAction)
  | s, some a => step n s a
  | s, none   => do
    let data ← s.data.clear n
    some { s with data }

-- The state refines `t`.
structure Inv (s : TimerService) (t : Timers) : Prop where
  refines    : s.data.Refines t
  wellFormed : t.WellFormed
  bound      : t.Bound n s.clock
  nodup      : s.started.Nodup

-- What an action does, to the data and to the timers they refine.
inductive Acts (s : TimerService) (t : Timers) : TimerAction → TimerService → Timers → Prop
  | tick {elapsed} : Acts s t (.tick elapsed) { s with clock := s.clock + elapsed } t
  | call {c d} : c.Fits n t.context → d.Refines (t.call s.clock c).1 →
      Acts s t (.call c) { s with data := d, returned := (t.call s.clock c).2 } (t.call s.clock c).1
  | connect {i} : Acts s t (.connect i)
      { s with operations := s.operations ++ [⟨i, (s.data.slots i).context ≠ none⟩] } t
  | inline {op o} (token : Bool) : s.operations[op]? = some o → op ∉ s.started → o.captured = false →
      Acts s t (.start op token) { s with
        started := op :: s.started
        delivered := (op, if token then .setStopped else .setCanceled) :: s.delivered } t
  | stopped {op o d} : s.operations[op]? = some o → op ∉ s.started → o.captured = true →
      d.Refines (t.enqueueTimerOperations [op] .stopped) →
      Acts s t (.start op true) { s with started := op :: s.started, data := d }
        (t.enqueueTimerOperations [op] .stopped)
  | wait {op o d} : s.operations[op]? = some o → op ∉ s.started → o.captured = true →
      d.Refines (t.startTimerWaitLocked op o.slot).1 →
      Acts s t (.start op false) { s with started := op :: s.started, data := d }
        (t.startTimerWaitLocked op o.slot).1
  | fetch {d} : d.Refines (t.fetchTimeoutOperations s.clock).1 →
      Acts s t .fetch
        { s with data := d, fetched := s.fetched ++ (t.fetchTimeoutOperations s.clock).2.2 }
        (t.fetchTimeoutOperations s.clock).1
  | execute {x} : x ∈ s.fetched →
      Acts s t (.execute x.op) { s with
        fetched := s.fetched.erase x
        delivered := (x.op, x.kind.signal) :: s.delivered } t

variable {n} {s s' : TimerService} {t t' : Timers} {a : TimerAction}

namespace Inv

theorem init : Inv n {} {} :=
  ⟨TimerData.refines_init, Timers.wellFormed_init, Timers.bound_init, .nil⟩

theorem length_le (h : s.Inv n t) : t.heap.members.length ≤ n :=
  Nat.le_of_add_right_le (h.bound.length_le h.wellFormed)

theorem context (h : s.Inv n t) : s.data.context = t.context :=
  funext h.refines.context

theorem start {op : OpId} {o : WaitOperation} (token : Bool) (h : s.Inv n t)
    (ho : s.operations[op]? = some o) (hop : op ∉ s.started) :
    ∃ t', Acts n s t (.start op token) (s.start op o token) t' := by
  unfold TimerService.start
  cases token <;> cases hc : o.captured
  case false.false => exact ⟨t, .inline false ho hop hc⟩
  case false.true  => exact ⟨_, .wait ho hop hc h.refines.startTimerWaitLocked.1⟩
  case true.false  => exact ⟨t, .inline true ho hop hc⟩
  case true.true   => exact ⟨_, .stopped ho hop hc h.refines.enqueue⟩

-- Every enabled action ends, and does what `Acts` says.
theorem acts (h : s.Inv n t) (ha : s.Enabled n a) :
    ∃ s' t', s.act n a = some s' ∧ Acts n s t a s' t' := by
  cases a
  case tick            => exact ⟨_, t, rfl, .tick⟩
  case connect         => exact ⟨_, t, rfl, .connect⟩
  case call c          =>
    have hf : c.Fits n t.context := h.context ▸ ha
    have ⟨d, he, hd⟩ := h.refines.call s.clock h.wellFormed h.bound hf
    exact ⟨_, _, by simp [act, he], .call hf hd⟩
  case start op token  =>
    have ⟨o, ho⟩ : ∃ o, s.operations[op]? = some o := ⟨_, List.getElem?_eq_getElem ha.1⟩
    have ⟨t', ht'⟩ := h.start token ho ha.2
    exact ⟨_, t', by simp [act, ho], ht'⟩
  case fetch           =>
    have ⟨d, he, hd⟩ := h.refines.fetchTimeoutOperations s.clock h.wellFormed h.length_le
    exact ⟨_, _, by simp [act, he], .fetch hd⟩
  case execute op      =>
    have ⟨x, hx, hop⟩ := List.mem_map.mp ha
    have ⟨y, hy⟩ : ∃ y, s.fetched.find? (·.op = op) = some y :=
      Option.isSome_iff_exists.mp <| List.find?_isSome.mpr ⟨x, hx, by simpa using hop⟩
    obtain rfl : y.op = op := by simpa using List.find?_some hy
    exact ⟨_, t, by simp [act, hy], .execute (List.mem_of_find?_eq_some hy)⟩

theorem acts_of_step (h : s.Inv n t) (hs : step n s a = some s') : ∃ t', Acts n s t a s' t' := by
  unfold step at hs
  split at hs
  case isFalse   => cases hs
  case isTrue ha =>
    have ⟨s'', t', he, hx⟩ := h.acts ha
    exact ⟨t', Option.some.inj (he.symm.trans hs) ▸ hx⟩

theorem step (h : s.Inv n t) (hx : Acts n s t a s' t') : s'.Inv n t' := by
  have ⟨hr, hw, hb, hn⟩ := h
  cases hx
  case tick                => exact ⟨hr, hw, hb.later (Nat.le_add_right ..), hn⟩
  case call c d hf hd      =>
    have hk := Timers.keeps_call hw hb le_rfl hf
    exact ⟨hd, hk.wellFormed, hk.bound, hn⟩
  case connect             => exact ⟨hr, hw, hb, hn⟩
  case inline hop _        => exact ⟨hr, hw, hb, List.nodup_cons.mpr ⟨hop, hn⟩⟩
  case stopped hop _ hd    => exact ⟨hd, hw.enqueue, hb.enqueue, List.nodup_cons.mpr ⟨hop, hn⟩⟩
  case wait hop _ hd       =>
    exact ⟨hd, hw.startTimerWaitLocked, hb.startTimerWaitLocked, List.nodup_cons.mpr ⟨hop, hn⟩⟩
  case fetch d hd          => exact ⟨hd, hw.fetchTimeoutOperations, hb.fetchTimeoutOperations, hn⟩
  case execute             => exact ⟨hr, hw, hb, hn⟩

end Inv

-- Where the started operations are.
def places (s : TimerService) (t : Timers) : List OpId :=
  t.waits ++ s.fetched.map Staged.op ++ s.delivered.map Prod.fst

-- An operation that is started takes one place, and no other action creates or loses a place.
theorem Inv.places (h : s.Inv n t) (hx : Acts n s t a s' t') :
    ∃ l, s'.started = l ++ s.started ∧ (s'.places t').Perm (l ++ s.places t) := by
  have hw := h.wellFormed
  cases hx
  case tick | connect      => exact ⟨[], rfl, .refl _⟩
  case call c d hf hd      =>
    have hk := Timers.keeps_call hw h.bound le_rfl hf
    exact ⟨[], rfl, (hk.waits.append_right _).append_right _⟩
  case inline op _ _ _ _ _ => exact ⟨[op], rfl, List.perm_middle⟩
  case stopped op _ _ _ _ _ _ =>
    have hq : (t.enqueueTimerOperations [op] .stopped).waits.Perm (op :: t.waits) :=
      (Timers.waits_enqueue ..).trans List.perm_append_comm
    exact ⟨[op], rfl, (hq.append_right _).append_right _⟩
  case wait op o _ _ _ _ _ =>
    exact ⟨[op], rfl, (hw.waits_startTimerWaitLocked.append_right _).append_right _⟩
  case fetch d hd          =>
    refine ⟨[], rfl, .append_right _ ?_⟩
    have hf := hw.waits_fetchTimeoutOperations s.clock
    refine List.perm_iff_count.mpr fun op => ?_
    have hc := hf.count_eq op
    simp only [List.map_append, List.count_append] at hc ⊢
    omega
  case execute x hx        =>
    refine ⟨[], rfl, ?_⟩
    have he := (List.perm_cons_erase hx).map Staged.op
    refine List.perm_iff_count.mpr fun op => ?_
    have hc := he.count_eq op
    simp only [TimerService.places, List.map_cons, List.count_append, List.count_cons,
      List.nil_append] at hc ⊢
    omega

end TimerService
end Bnio.Posix
