import Bnio.Tls.AsyncOperation

namespace Bnio.Tls
namespace Io

-- What the steps of a read or write keep of the stream.
structure Kept (io : Io) : Prop where
  intact : io.stream.Intact
  offered : io.state.transportSize ≤ intMax

variable {io : Io}

theorem Kept.completeError (h : io.Kept) (ec : ErrorCode) : (io.completeError ec).1.Kept :=
  ⟨h.intact, h.offered⟩

theorem Kept.handleSslError (h : io.Kept) (b : SslAnswer) : (io.handleSslError b).1.Kept := by
  unfold Io.handleSslError
  split
  · exact ⟨h.intact, h.offered⟩
  · exact ⟨h.intact, h.offered⟩
  · split <;> exact h.completeError _
  · exact h.completeError _

theorem Kept.handleApplicationResult (h : io.Kept) (b : SslAnswer) :
    (io.handleApplicationResult b).1.Kept := by
  have hacc : ∀ n, (io.acceptResult n).1.Kept := fun _ => ⟨h.intact, h.offered⟩
  unfold Io.handleApplicationResult
  split
  case isTrue =>
    dsimp only
    split
    · exact hacc _
    · split
      · exact h.completeError _
      · exact hacc _
  case isFalse => exact h.handleSslError b

theorem Kept.runApplication (h : io.Kept) (b : SslAnswer) : (io.runApplication b).1.Kept := by
  have hk : ∀ ws, Kept { io with stream := io.stream.ssl b, writes := ws } := fun _ =>
    ⟨h.intact.ssl b, h.offered⟩
  unfold Io.runApplication
  dsimp only
  split
  · exact (hk _).handleApplicationResult b
  · exact (hk _).handleApplicationResult b

theorem Kept.submitTransportRead (h : io.Kept) (a : StepAnswer) : (io.submitTransportRead a).1.Kept := by
  unfold Io.submitTransportRead
  split
  case isTrue  => exact h.completeError _
  case isFalse => exact ⟨h.intact, a.space_le⟩

theorem Kept.flushOutput (h : io.Kept) (a : StepAnswer) : (io.flushOutput a).1.Kept := by
  unfold Io.flushOutput
  by_cases hz : 0 < io.stream.nread0 a.chunk
  case pos =>
    rw [if_pos hz]
    exact ⟨h.intact, Stream.nread0_le ..⟩
  case neg =>
    have hk : Kept { io with state := { io.state with phase := .transportRead } } := ⟨h.intact, h.offered⟩
    rw [if_neg hz]
    unfold Io.resumeAfterFlush
    split
    case h_1 => exact hk.submitTransportRead a
    all_goals exact ⟨h.intact, h.offered⟩

theorem Kept.startStep (h : io.Kept) (a : StepAnswer) : (io.startStep a).1.Kept := by
  unfold Io.startStep
  split
  case isTrue  => exact h
  case isFalse =>
    unfold Io.runStep
    split
    · exact h.runApplication _
    · exact h.flushOutput a
    · exact h.submitTransportRead a
    · exact h
    · exact h

theorem Kept.transportDone (h : io.Kept) (t : TransportAnswer) : (io.transportDone t).1.Kept := by
  unfold Io.transportDone
  cases hr : t.result
  case stopped => exact h
  case value ec bytes =>
    simp only [Io.handleTransportComplete]
    by_cases hec : ec = 0
    case neg =>
      have ht : io.transfer t = io := by simp [transfer, hr, hec]
      rw [if_pos hec, ht]
      exact h.completeError _
    case pos =>
      subst hec
      rw [if_neg (by simp)]
      by_cases hb : bytes = 0
      case pos =>
        have ht : (io.transfer t).Kept := by
          subst hb
          cases hp : io.state.phase <;> simp [transfer, hr, hp] <;> exact ⟨h.intact, h.offered⟩
        rw [if_pos hb]
        exact ht.completeError _
      case neg =>
        rw [if_neg hb]
        cases hp : io.state.phase <;> simp only [transfer, hr, hp]
        case transportRead =>
          have hk : Kept { io with
              stream := ((io.stream.receive io.state.transportSize bytes t.data).nwrite
                io.state.transportSize bytes t.data).1 } := ⟨h.intact.nwrite h.offered .., h.offered⟩
          unfold Io.handleTransportReadComplete
          dsimp only
          split
          case isTrue  => exact hk.completeError _
          case isFalse => exact ⟨hk.intact, hk.offered⟩
        case transportWrite =>
          have hk : Kept { io with stream := ((io.stream.send io.state.transportSize bytes).nread
              io.state.transportSize bytes).1 } := ⟨h.intact.nread h.offered .., h.offered⟩
          unfold Io.handleTransportWriteComplete
          dsimp only
          split
          case isTrue  => exact hk.completeError _
          case isFalse => exact ⟨hk.intact, hk.offered⟩
        all_goals exact h.completeError _

end Io

namespace IoOperation

open Io

variable {s : IoState} {op op' : IoOperation} {a : IoAction} {r : Io × List Effect}
variable {started closed fails : Prop}

theorem settle_io : (op.settle r).io = r.1 := by
  unfold settle completeValue
  dsimp only
  split
  · split
    · split <;> rfl
    · rfl
  all_goals rfl

-- All the output has been sent when a transport read is submitted, and before a success is reported.
structure Flushed (op : IoOperation) (closed : Prop) : Prop where
  reading : op.mode = .waiting → op.io.state.phase = .transportRead → op.io.stream.output = []
  reported : ∀ n, .value 0 n ∈ op.calls → op.io.stream.output = [] ∨ closed

theorem settle_flushed (hc : op.calls = []) (ho : Outcome s started closed fails r) :
    (op.settle r).Flushed closed := by
  cases ho
  case stopped   => exact ⟨by rintro ⟨⟩, by simp [settle, deliver, hc]⟩
  case continued hr _ =>
    simp only [settle, hr.done, Bool.false_eq_true, if_false]
    exact ⟨by rintro ⟨⟩, by simp [hc]⟩
  case submittedRead hf  => exact ⟨fun _ _ => hf, by simp [settle, hc]⟩
  case submittedWrite hp =>
    exact ⟨fun _ hr => by simp [settle, hp] at hr, by simp [settle, hc]⟩
  case ended io ec hf hfl _ =>
    rw [settle_value hf.done rfl]
    refine ⟨by rintro ⟨⟩, fun n hn => hfl ?_⟩
    simp only [hc, List.nil_append, List.mem_singleton, Signal.value.injEq] at hn
    exact hn.1.symm

theorem Inv.flushed (hi : op.Inv s) (h : op.step a = some op') :
    op'.Flushed (∃ b x, a = .round b x ∧ op.io.Closes x) := by
  obtain ⟨hm, x, rfl, rfl⟩ | ⟨hm, x, rfl, rfl⟩ | ⟨hm, t, rfl, rfl⟩ := step_cases h
  · obtain ⟨_, hc⟩ := hi.ready hm
    exact ⟨by rintro ⟨⟩, by simp [deliver, hc]⟩
  · obtain ⟨hr, hc⟩ := hi.ready hm
    have hf := settle_flushed hc (hr.startStep x)
    exact ⟨hf.reading, fun n hn => (hf.reported n hn).imp_right fun h => ⟨_, x, rfl, h⟩⟩
  · obtain ⟨hw, hc⟩ := hi.waiting hm
    have hf := settle_flushed hc (hw.transportDone t)
    exact ⟨hf.reading, fun n hn => (hf.reported n hn).imp_right False.elim⟩

theorem kept_of_step (hk : op.io.Kept) (h : op.step a = some op') : op'.io.Kept := by
  obtain ⟨_, x, rfl, rfl⟩ | ⟨_, x, rfl, rfl⟩ | ⟨_, t, rfl, rfl⟩ := step_cases h
  · exact hk
  · exact settle_io ▸ hk.startStep x
  · exact settle_io ▸ hk.transportDone t

-- An operation that is over as soon as it has been started is one on an empty buffer.
theorem start_flushed (k : IoKind) (size : Nat) {stream : Stream} (h : stream.Intact)
    (stopRequested : Bool) :
    (start (k.state size) stream stopRequested).io.Kept ∧
      (start (k.state size) stream stopRequested).Flushed (size = 0) := by
  have hz : (k.state size).transportSize = 0 := by cases k <;> rfl
  have hk : Kept { state := k.state size, stream } := ⟨h, by simp [hz]⟩
  have hsize : (k.state size).size = size := by cases k <;> rfl
  unfold start
  split
  case isTrue => exact ⟨hk, by rintro ⟨⟩, by simp [deliver]⟩
  case isFalse =>
    split
    case isTrue hs =>
      unfold completeValue
      dsimp only
      split <;> exact ⟨hk, by rintro ⟨⟩, fun _ _ => .inr (hsize ▸ hs)⟩
    case isFalse => exact ⟨hk, by rintro ⟨⟩, by simp⟩

end IoOperation

-- A stream and the operation that is run on it, or has been run last.
inductive Session
  | fresh (stream : Stream)
  | io (op : IoOperation)
  | async (op : AsyncOperation)

inductive SessionAction
  | startIo (kind : IoKind) (size : Nat) (stopRequested : Bool)
  | startAsync (kind : AsyncKind) (stopRequested valid : Bool)
  | io (action : IoAction)
  | async (action : AsyncAction)

namespace Session

variable (s : Session)

def stream : Session → Stream
  | fresh stream => stream
  | io op        => op.io.stream
  | async op     => op.stream

def calls : Session → List Signal
  | fresh _  => []
  | io op    => op.calls
  | async op => op.calls

-- No operation is running.
def idle : Session → Bool
  | fresh _  => true
  | io op    => op.mode = .ended
  | async op => op.pending = .nothing

-- A transport read is outstanding.
def reading : Session → Bool
  | fresh _  => false
  | io op    => op.mode = .waiting && op.io.state.phase = .transportRead
  | async op => op.pending = .child && op.child = .read

def step (a : SessionAction) : Option Session :=
  match a, s with
  | .startIo kind size stopRequested, s =>
    if s.idle then some (.io (.start (kind.state size) s.stream stopRequested)) else none
  | .startAsync kind stopRequested valid, s =>
    if s.idle then some (.async (.start kind s.stream stopRequested valid)) else none
  | .io a,    .io op    => (op.step a).map .io
  | .async a, .async op => (op.step a).map .async
  | _,        _         => none

structure Sound (s : Session) : Prop where
  intact : s.stream.Intact
  sent : s.stream.accepted <+: s.stream.produced
  reading : s.reading → s.stream.output = []

-- The peer has closed the session in order, and a read reports it.
def Closes : Session → SessionAction → Prop
  | .io op, .io (.round _ x) => op.io.Closes x
  | _,      _                => False

def Inv : Session → Prop
  | fresh stream => stream.Intact
  | io op        => (∃ k size, op.Inv (IoKind.state k size)) ∧ op.io.Kept ∧
    (op.mode = .waiting → op.io.state.phase = .transportRead → op.io.stream.output = [])
  | async op     => op.Inv

variable {s} {s' : Session} {a : SessionAction}

theorem Inv.intact (h : s.Inv) : s.stream.Intact := by
  cases s
  case fresh => exact h
  case io    => exact h.2.1.intact
  case async => exact h.intact

theorem Inv.sound (h : s.Inv) : s.Sound where
  intact  := h.intact
  sent    := ⟨s.stream.output, h.intact.sent⟩
  reading hr := by
    cases s
    case fresh => cases hr
    case io op =>
      simp only [Session.reading, Bool.and_eq_true, decide_eq_true_eq] at hr
      exact h.2.2 hr.1 hr.2
    case async op =>
      simp only [Session.reading, Bool.and_eq_true, decide_eq_true_eq] at hr
      exact h.reading hr.1 hr.2

theorem step_cases (h : s.step a = some s') :
    (∃ k size b, a = .startIo k size b ∧ s' = .io (.start (k.state size) s.stream b)) ∨
    (∃ k b v, a = .startAsync k b v ∧ s' = .async (.start k s.stream b v)) ∨
    (∃ op op' x, s = .io op ∧ a = .io x ∧ op.step x = some op' ∧ s' = .io op') ∨
    (∃ op op' x, s = .async op ∧ a = .async x ∧ op.step x = some op' ∧ s' = .async op') := by
  cases a
  case startIo k size b =>
    simp only [step, Option.ite_none_right_eq_some, Option.some.injEq] at h
    exact .inl ⟨k, size, b, rfl, h.2.symm⟩
  case startAsync k b v =>
    simp only [step, Option.ite_none_right_eq_some, Option.some.injEq] at h
    exact .inr (.inl ⟨k, b, v, rfl, h.2.symm⟩)
  case io x =>
    cases s <;> simp only [step, Option.map_eq_some_iff, reduceCtorEq] at h
    have ⟨op', hs, he⟩ := h
    exact .inr (.inr (.inl ⟨_, op', x, rfl, rfl, hs, he.symm⟩))
  case async x =>
    cases s <;> simp only [step, Option.map_eq_some_iff, reduceCtorEq] at h
    have ⟨op', hs, he⟩ := h
    exact .inr (.inr (.inr ⟨_, op', x, rfl, rfl, hs, he.symm⟩))

theorem Inv.step (hi : s.Inv) (h : s.step a = some s') : s'.Inv := by
  obtain ⟨k, size, b, rfl, rfl⟩ | ⟨k, b, v, rfl, rfl⟩ | ⟨op, op', x, rfl, rfl, hs, rfl⟩ |
    ⟨op, op', x, rfl, rfl, hs, rfl⟩ := step_cases h
  · have ⟨hk, hf⟩ := IoOperation.start_flushed k size hi.intact b
    exact ⟨⟨k, size, IoOperation.start_inv ..⟩, hk, hf.reading⟩
  · exact AsyncOperation.start_inv hi.intact ..
  · have ⟨⟨k, size, hop⟩, hk, _⟩ := hi
    exact ⟨⟨k, size, hop.step hs⟩, IoOperation.kept_of_step hk hs, (hop.flushed hs).reading⟩
  · exact AsyncOperation.Inv.step hi hs

end Session
end Bnio.Tls
