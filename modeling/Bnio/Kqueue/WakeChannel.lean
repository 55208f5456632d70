import Bnio.Lib.Transition
import Bnio.Kqueue.Registration

namespace Bnio.Kqueue.WakeChannel

def eintr : Int := 4
def ebadf : Int := 9

-- What read(2) or write(2) on an end of the pipe answers.
inductive Answer
  | moved (n : Nat)
  | error (errno : Int)
  deriving DecidableEq, Repr

-- The bodies of the loops of `wake()` and `drain()`: what they return for an answer, or `none` for
-- another turn.
def wakeResult : Answer → Option Int
  | .moved n     => some (if 0 < n then 0 else -eio)
  | .error errno => if errno = eintr then none else some (if errno = eagain then 0 else -errno)

def drainResult : Answer → Option Int
  | .moved n     => if 0 < n then none else some (-eio)
  | .error errno => if errno = eintr then none else some (if errno = eagain then 0 else -errno)

-- A pipe with two nonblocking ends.
structure Pipe where
  capacity : Nat
  bytes : Nat
  pos : 0 < capacity
  fits : bytes ≤ capacity

namespace Pipe

variable (p : Pipe)

-- `wake()` writes one byte.
def write : Pipe × Answer :=
  if h : p.bytes < p.capacity then ({ p with bytes := p.bytes + 1, fits := h }, .moved 1)
  else (p, .error eagain)

-- `drain()` reads into a buffer of 64 bytes.
def read : Pipe × Answer :=
  if p.bytes = 0 then (p, .error eagain)
  else
    ({ p with bytes := p.bytes - min 64 p.bytes, fits := (Nat.sub_le ..).trans p.fits },
      .moved (min 64 p.bytes))

def clear : Pipe :=
  { p with bytes := 0, fits := Nat.zero_le _ }

end Pipe

inductive Pc
  | outside
  | looping
  -- in a `kevent` that waits
  | waiting
  -- from the report of the channel's event to the end of `drain()`
  | draining
  deriving DecidableEq, Repr

-- A worker, and the registration of the read end at its kqueue with EV_ADD | EV_CLEAR. The event of an
-- active registration is still to be reported.
structure Watcher where
  pc : Pc := .outside
  registered : Bool := false
  active : Bool := false

namespace Watcher

variable (v : Watcher)

def notify : Watcher :=
  { v with active := v.active || v.registered }

def forget : Watcher :=
  { v with registered := false, active := false }

-- The worker is where it calls `kevent`.
def Polls : Prop :=
  v.pc = .looping ∨ v.pc = .waiting

instance : Decidable v.Polls :=
  inferInstanceAs (Decidable (_ ∨ _))

end Watcher

-- `signalled` is the flag that stands for the channel in the model of the workers: a `wake()` has
-- returned 0 and no `drain()` has done so since.
structure State (τ ω : Type*) where
  pipe : Pipe
  isOpen : Bool := true
  -- the threads in the loop of `wake()`
  writing : τ → Bool := fun _ => false
  watchers : ω → Watcher := fun _ => {}
  signalled : Bool := false

inductive Action (τ ω : Type*)
  | wake (t : τ)
  -- write(2) fails with `fault`, or does what the pipe allows
  | write (t : τ) (fault : Option Int)
  | enter (w : ω)
  | wait (w : ω)
  -- `kevent` reports the event of the channel, or finds the pipe empty and takes the event back
  | report (w : ω)
  | retract (w : ω)
  -- `kevent` returns without the event of the channel
  | other (w : ω)
  | read (w : ω) (interrupted : Bool)
  | leave (w : ω)
  | queueExit (w : ω)
  | close

namespace State

variable {τ ω : Type*} [DecidableEq τ] [DecidableEq ω] (s : State τ ω)

def setWatcher (w : ω) (v : Watcher) : State τ ω :=
  { s with watchers := Function.update s.watchers w v }

-- An error of write(2) that does not come from the pipe being full.
def Fault (fault : Option Int) : Prop :=
  ∀ errno ∈ fault, 0 < errno ∧ errno ≠ eagain

instance (fault : Option Int) : Decidable (Fault fault) :=
  inferInstanceAs (Decidable (∀ errno ∈ fault, 0 < errno ∧ errno ≠ eagain))

def writeAnswer (fault : Option Int) : Pipe × Answer :=
  if s.isOpen then fault.elim s.pipe.write (s.pipe, .error ·) else (s.pipe, .error ebadf)

def readAnswer (interrupted : Bool) : Pipe × Answer :=
  if !s.isOpen then (s.pipe, .error ebadf)
  else if interrupted then (s.pipe, .error eintr)
  else s.pipe.read

-- A new byte in the pipe activates every registration.
def written (t : τ) (r : Pipe × Answer) : State τ ω :=
  { s with
    pipe := r.1
    watchers := if s.pipe.bytes < r.1.bytes then fun w => (s.watchers w).notify else s.watchers
    writing := Function.update s.writing t (wakeResult r.2).isNone
    signalled := s.signalled || wakeResult r.2 = some 0 }

def emptied (w : ω) (r : Pipe × Answer) : State τ ω :=
  { s.setWatcher w { s.watchers w with
      pc := if (drainResult r.2).isNone then .draining else .looping } with
    pipe := r.1
    signalled := s.signalled && drainResult r.2 ≠ some 0 }

-- A registration that is made while there are bytes in the pipe is active at once.
def entered (v : Watcher) : Watcher where
  pc := .looping
  registered := v.registered || s.isOpen
  active := v.active || s.isOpen && 0 < s.pipe.bytes

def closed : State τ ω :=
  { s with
    pipe := s.pipe.clear
    isOpen := false
    watchers := fun w => (s.watchers w).forget
    signalled := false }

def step : Action τ ω → Option (State τ ω)
  | .wake t =>
    -- -EBADF for a channel that is not open
    if s.writing t then none else some { s with writing := Function.update s.writing t s.isOpen }
  | .write t fault =>
    if s.writing t ∧ Fault fault then some (s.written t (s.writeAnswer fault)) else none
  | .enter w =>
    if (s.watchers w).pc = .outside then some (s.setWatcher w (s.entered (s.watchers w))) else none
  | .wait w =>
    if (s.watchers w).pc = .looping then some (s.setWatcher w { s.watchers w with pc := .waiting })
    else none
  | .report w =>
    if (s.watchers w).Polls ∧ (s.watchers w).active then
      some (s.setWatcher w { s.watchers w with pc := .draining, active := false })
    else none
  | .retract w =>
    if (s.watchers w).Polls ∧ (s.watchers w).active ∧ s.pipe.bytes = 0 then
      some (s.setWatcher w { s.watchers w with active := false })
    else none
  | .other w =>
    if (s.watchers w).pc = .waiting then some (s.setWatcher w { s.watchers w with pc := .looping })
    else none
  | .read w interrupted =>
    if (s.watchers w).pc = .draining then some (s.emptied w (s.readAnswer interrupted)) else none
  | .leave w =>
    if (s.watchers w).pc = .looping then some (s.setWatcher w { s.watchers w with pc := .outside })
    else none
  | .queueExit w =>
    if (s.watchers w).pc = .outside then some (s.setWatcher w {}) else none
  | .close => if s.isOpen then some s.closed else none

end State

namespace Pipe

variable {p : Pipe}

theorem write_cases :
    p.bytes < p.write.1.bytes ∨ p.write = (p, .error eagain) ∧ 0 < p.bytes := by
  unfold write
  split
  case isTrue    => exact .inl (Nat.lt_succ_self _)
  case isFalse h => exact .inr ⟨rfl, p.pos.trans_le (Nat.not_lt.mp h)⟩

theorem read_cases :
    p.bytes = 0 ∧ p.read = (p, .error eagain) ∨
    p.read.1.bytes ≤ p.bytes ∧ (drainResult p.read.2).isNone := by
  unfold read
  split
  case isTrue h  => exact .inl ⟨h, rfl⟩
  case isFalse h => exact .inr ⟨Nat.sub_le .., by simp [drainResult, Nat.pos_of_ne_zero h]⟩

end Pipe

namespace State

variable {τ ω : Type*} {s s' : State τ ω}

-- A `wake()` that returns 0 has found or made the pipe readable.
theorem writeAnswer_cases {fault : Option Int} (hf : Fault fault) :
    (s.writeAnswer fault).1 = s.pipe ∧ wakeResult (s.writeAnswer fault).2 ≠ some 0 ∨
    s.isOpen ∧ s.pipe.bytes < (s.writeAnswer fault).1.bytes ∨
    s.isOpen ∧ (s.writeAnswer fault).1 = s.pipe ∧ 0 < s.pipe.bytes := by
  unfold writeAnswer
  cases ho : s.isOpen
  case false => exact .inl ⟨rfl, by simp [wakeResult, ebadf, eintr, eagain]⟩
  case true  =>
    cases fault
    case none =>
      refine .inr <| Pipe.write_cases.imp (⟨rfl, ·⟩) fun h => ⟨rfl, ?_, h.2⟩
      simp [h.1]
    case some errno =>
      refine .inl ⟨rfl, ?_⟩
      have hpos := (hf errno rfl).1
      simp only [wakeResult, if_true, Option.elim_some, (hf errno rfl).2, if_false]
      split
      case isTrue  => simp
      case isFalse => exact fun h => absurd (Option.some.inj h) (by omega)

-- A `drain()` goes on, or has found the pipe empty.
theorem readAnswer_cases (interrupted : Bool) (hc : s.isOpen = false → s.pipe.bytes = 0) :
    (drainResult (s.readAnswer interrupted).2).isNone ∧
      (s.readAnswer interrupted).1.bytes ≤ s.pipe.bytes ∨
    s.pipe.bytes = 0 ∧ (s.readAnswer interrupted).1 = s.pipe ∧
      (s.isOpen → drainResult (s.readAnswer interrupted).2 = some 0) := by
  unfold readAnswer
  cases ho : s.isOpen
  case false => exact .inr ⟨hc ho, rfl, by simp⟩
  case true  =>
    cases interrupted
    case true  => exact .inl ⟨rfl, le_rfl⟩
    case false =>
      obtain ⟨h₀, h⟩ | ⟨hle, hn⟩ := Pipe.read_cases (p := s.pipe)
      · exact .inr ⟨h₀, by simp [h], by simp [h, drainResult, eagain, eintr]⟩
      · exact .inl ⟨hn, hle⟩

-- No registration sleeps over bytes in the pipe, but that of a worker which is about to read them.
structure Inv (s : State τ ω) : Prop where
  pending   : 0 < s.pipe.bytes → ∀ w, (s.watchers w).registered →
    (s.watchers w).active ∨ (s.watchers w).pc = .draining
  signalled : s.signalled → 0 < s.pipe.bytes ∨ ∃ w, (s.watchers w).pc = .draining
  closed    : s.isOpen = false → s.pipe.bytes = 0 ∧ s.signalled = false

namespace Inv

theorem init (p : Pipe) : Inv ({ pipe := p } : State τ ω) where
  pending _ _ h := by cases h
  signalled h   := by cases h
  closed h      := by cases h

theorem closed_state : Inv s.closed where
  pending hb   := absurd hb (lt_irrefl 0)
  signalled hs := by cases hs
  closed _     := ⟨rfl, rfl⟩

theorem written [DecidableEq τ] (h : Inv s) {t : τ} {fault : Option Int} (hf : Fault fault) :
    Inv (s.written t (s.writeAnswer fault)) := by
  obtain ⟨hpipe, hres⟩ | ⟨hopen, hlt⟩ | ⟨hopen, hpipe, hpos⟩ := writeAnswer_cases (s := s) hf
  · refine ⟨?_, ?_, ?_⟩ <;> simp only [State.written, hpipe, lt_irrefl, if_false, hres]
    · exact h.pending
    · simpa using h.signalled
    · simpa using h.closed
  · refine ⟨fun _ w hw => .inl ?_, fun _ => .inl (Nat.zero_lt_of_lt hlt), fun hc => ?_⟩
    · simp only [State.written, hlt, if_true, Watcher.notify] at hw ⊢
      simp [hw]
    · exact absurd (hopen.symm.trans hc) (by simp)
  · refine ⟨?_, fun _ => .inl ?_, fun hc => absurd (hopen.symm.trans hc) (by simp)⟩
    · simpa only [State.written, hpipe, lt_irrefl, if_false] using h.pending
    · simpa only [State.written, hpipe] using hpos

variable [DecidableEq ω]

theorem setWatcher (h : Inv s) {w : ω} {v : Watcher}
    (hp : 0 < s.pipe.bytes → v.registered → v.active ∨ v.pc = .draining)
    (hd : (s.watchers w).pc = .draining → v.pc = .draining) : Inv (s.setWatcher w v) where
  pending hb w' := by
    by_cases hw : w' = w
    case pos => subst hw; simpa [State.setWatcher] using hp hb
    case neg => simpa [State.setWatcher, hw] using h.pending hb w'
  signalled hs := by
    refine (h.signalled hs).imp_right fun hdraining => ?_
    obtain ⟨w', h'⟩ := hdraining
    refine ⟨w', ?_⟩
    by_cases hw : w' = w
    case pos => subst hw; simpa [State.setWatcher] using hd h'
    case neg => simpa [State.setWatcher, hw] using h'
  closed := h.closed

-- Outside its drain a worker keeps the event it has pending wherever it goes.
theorem move (h : Inv s) {w : ω} {pc : Pc} (hw : (s.watchers w).pc ≠ .draining) :
    Inv (s.setWatcher w { s.watchers w with pc }) :=
  h.setWatcher (fun hb hr => .inl <| (h.pending hb w hr).resolve_right hw) (absurd · hw)

theorem emptied (h : Inv s) {w : ω} (interrupted : Bool) :
    Inv (s.emptied w (s.readAnswer interrupted)) := by
  obtain ⟨hn, hle⟩ | ⟨h₀, hpipe, hend⟩ := readAnswer_cases interrupted fun hc => (h.closed hc).1
  · -- the worker reads on
    have hset : Inv (s.setWatcher w { s.watchers w with pc := .draining }) :=
      h.setWatcher (fun _ _ => .inr rfl) fun _ => rfl
    refine ⟨fun hb => ?_, fun _ => .inr ⟨w, ?_⟩, fun hc => ?_⟩
    · simpa only [State.emptied, hn, if_true] using hset.pending (hb.trans_le hle)
    · simp [State.emptied, State.setWatcher, hn]
    · obtain ⟨hb, hs⟩ := h.closed hc
      exact ⟨Nat.le_zero.mp (hle.trans_eq hb), by simp [State.emptied, State.setWatcher, hs]⟩
  · refine ⟨fun hb => ?_, fun hs => ?_, fun hc => ?_⟩
    · simp only [State.emptied, hpipe, h₀] at hb
      exact absurd hb (lt_irrefl 0)
    · cases ho : s.isOpen
      case false => simp [State.emptied, State.setWatcher, (h.closed ho).2] at hs
      case true  => simp [State.emptied, hend ho] at hs
    · simp only [State.emptied, hpipe, h₀, true_and]
      simp [(h.closed hc).2]

theorem step [DecidableEq τ] (h : Inv s) {a : Action τ ω} (hs : s.step a = some s') : Inv s' := by
  cases a <;> simp only [State.step, Option.ite_none_right_eq_some, Option.ite_none_left_eq_some,
    Option.some.injEq] at hs <;> obtain ⟨hg, rfl⟩ := hs
  case wake t      => exact ⟨h.pending, h.signalled, h.closed⟩
  case write t f   => exact h.written hg.2
  case read w i    => exact h.emptied i
  case close       => exact closed_state
  case report w    => exact h.setWatcher (fun _ _ => .inr rfl) fun _ => rfl
  case retract w   => exact h.setWatcher (fun hb => absurd hg.2.2 hb.ne') id
  case queueExit w => exact h.setWatcher (fun _ hr => by cases hr) fun hd => by simp [hg] at hd
  case wait w      => exact h.move (by simp [hg])
  case other w     => exact h.move (by simp [hg])
  case leave w     => exact h.move (by simp [hg])
  case enter w     =>
    refine h.setWatcher (fun hb _ => .inl ?_) fun hd => by simp [hg] at hd
    cases ho : s.isOpen
    case false => exact absurd (h.closed ho).1 hb.ne'
    case true  => simp [entered, ho, hb]

end Inv

variable [DecidableEq τ] [DecidableEq ω]

theorem Inv.woken (h : Inv s) (hs : s.signalled) : (∃ w, (s.watchers w).pc = .draining) ∨
    ∀ w, (s.watchers w).registered → (s.watchers w).Polls →
      (s.step (.report w)).isSome ∧ s.step (.retract w) = none := by
  refine (h.signalled hs).symm.imp_right fun hb w hr hp => ?_
  have hactive : (s.watchers w).active := (h.pending hb w hr).resolve_right fun hd => by
    simp [Watcher.Polls, hd] at hp
  exact ⟨by simp [State.step, hp, hactive], by simp [State.step, hb.ne']⟩

theorem Inv.drained (h : Inv s) {w : ω} {i : Bool} (hs : s.step (.read w i) = some s') :
    (s'.watchers w).pc = .draining ∨ s.pipe.bytes = 0 := by
  simp only [State.step, Option.ite_none_right_eq_some, Option.some.injEq] at hs
  obtain ⟨-, rfl⟩ := hs
  refine (readAnswer_cases i fun hc => (h.closed hc).1).imp (fun hn => ?_) And.left
  simp [State.emptied, State.setWatcher, hn.1]

-- A second `wake()` finds the pipe full and leaves the event of the waiting worker pending.
example : (System.run State.step ({ pipe := ⟨1, 0, by decide, by decide⟩ } : State Bool Unit)
    [.enter (), .wait (), .wake false, .wake true, .write false none, .write true none]).any fun s =>
      s.signalled && s.pipe.bytes = 1 && (s.watchers ()).active && !s.writing true := by
  decide

end State
end Bnio.Kqueue.WakeChannel
