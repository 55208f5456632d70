import Bnio.Tls.ReadWrite

namespace Bnio.Tls

inductive AsyncKind
  | handshake | shutdown
  deriving DecidableEq

inductive SslCompletionKind
  | value | error | stopped
  deriving DecidableEq

inductive SslChildIo
  | none | read | write
  deriving DecidableEq

-- What has to happen next: the next call into OpenSSL, the completion of a transport operation or of
-- the schedule behind a staged completion.
inductive Pending
  | run | child | post | nothing
  deriving DecidableEq

structure AsyncOperation where
  kind : AsyncKind
  stream : Stream
  transportSize : Nat := 0
  child : SslChildIo := .none
  completion : SslCompletionKind := .value
  ec : ErrorCode := 0
  afterRead : ResumeAction := .handshake
  afterFlush : ResumeAction := .handshake
  pending : Pending := .run
  calls : List Signal := []

-- `run` is a call of `SSL_do_handshake` or `SSL_shutdown` with all that follows up to the next one;
-- `posted` is the completion of the schedule, which may report the stop token.
inductive AsyncAction
  | run (answer : StepAnswer)
  | transport (transport : TransportAnswer) (answer : StepAnswer)
  | posted (stopped : Bool)

namespace AsyncOperation

variable (op : AsyncOperation)

def completeValue (ec : ErrorCode) : AsyncOperation :=
  { op with ec, completion := .value, child := .none }

def completeError (error : ErrorCode) : AsyncOperation :=
  { op with ec := error, completion := .error, child := .none }

def completeStopped : AsyncOperation :=
  { op with completion := .stopped, child := .none }

def submitPost : AsyncOperation :=
  { op with pending := .post }

def postCompleteValue (ec : ErrorCode) : AsyncOperation :=
  (op.completeValue ec).submitPost

def postCompleteError (error : ErrorCode) : AsyncOperation :=
  (op.completeError error).submitPost

def postCompleteStopped : AsyncOperation :=
  op.completeStopped.submitPost

def resume (action : ResumeAction) : AsyncOperation :=
  if action = .finish then op.postCompleteValue 0 else { op with pending := .run }

def submitTransportRead (a : StepAnswer) : AsyncOperation :=
  if a.space ≤ 0 then op.postCompleteValue (lastSslError a.spaceError)
  else { op with child := .read, transportSize := a.space.toInt.toNat, pending := .child }

def submitTransportWrite : AsyncOperation :=
  { op with child := .write, pending := .child }

def resumeAfterFlush (a : StepAnswer) : AsyncOperation :=
  if op.afterFlush = .transportRead then op.submitTransportRead a else op.resume op.afterFlush

-- `load_output_chunk`, and what `flush_then` and `handle_write_complete` do with its result.
def flushOutput (a : StepAnswer) : AsyncOperation :=
  let available := op.stream.nread0 a.chunk
  if 0 < available then submitTransportWrite { op with transportSize := available }
  else resumeAfterFlush { op with transportSize := 0 } a

def flushThen (action : ResumeAction) (a : StepAnswer) : AsyncOperation :=
  flushOutput { op with afterFlush := action } a

def handleSslError (action : ResumeAction) (a : StepAnswer) : AsyncOperation :=
  match a.ssl.error with
  | .wantRead   => flushThen { op with afterRead := action } .transportRead a
  | .wantWrite  => op.flushThen action a
  | .zeroReturn => op.postCompleteValue connectionReset
  | .other      => op.postCompleteValue (lastSslError a.ssl.errorCode)

def runHandshake (a : StepAnswer) : AsyncOperation :=
  let op := { op with stream := op.stream.ssl a.ssl }
  if a.ssl.result = 1 then op.flushThen .finish a else op.handleSslError .handshake a

def runShutdown (a : StepAnswer) : AsyncOperation :=
  let op := { op with stream := op.stream.ssl a.ssl }
  if a.ssl.result = 1 then op.flushThen .finish a
  else if a.ssl.result = 0 then op.flushThen .shutdown a
  else op.handleSslError .shutdown a

def run (a : StepAnswer) : AsyncOperation :=
  match op.kind with
  | .handshake => op.runHandshake a
  | .shutdown  => op.runShutdown a

-- `valid` is whether the stream has an `SSL` object, which only the handshake looks at.
def start (kind : AsyncKind) (stream : Stream) (stopRequested valid : Bool) : AsyncOperation :=
  let op : AsyncOperation := { kind, stream }
  if stopRequested then op.postCompleteStopped
  else match kind with
    | .handshake => if valid then op else op.postCompleteError (lastSslError 0)
    | .shutdown  => op

def handleReadComplete (result : Nat) (data : List Byte) (errorCode : UInt32) : AsyncOperation :=
  let (stream, committed) := op.stream.nwrite op.transportSize result data
  let op := { op with stream }
  if (committed : Int) ≠ toInt result then op.postCompleteError (lastSslError errorCode)
  else op.resume op.afterRead

def handleWriteComplete (result : Nat) (errorCode : UInt32) (a : StepAnswer) : AsyncOperation :=
  let (stream, consumed) := op.stream.nread op.transportSize result
  let op := { op with stream }
  if (consumed : Int) ≠ toInt result then op.postCompleteError (lastSslError errorCode)
  else op.flushOutput a

def handleTransportComplete (ec : ErrorCode) (result : Nat) (data : List Byte) (errorCode : UInt32)
    (a : StepAnswer) : AsyncOperation :=
  if ec ≠ 0 then op.postCompleteValue ec
  else if result = 0 then op.postCompleteValue connectionReset
  else
    match op.child with
    | .read  => handleReadComplete { op with child := .none } result data errorCode
    | .write => handleWriteComplete { op with child := .none } result errorCode a
    | .none  => op.postCompleteError protocolError

-- What the transport has done by the time it completes; an error or a stop has transferred nothing.
def transfer (t : TransportAnswer) : AsyncOperation :=
  match t.result, op.child with
  | .value 0 bytes, .read  => { op with stream := op.stream.receive op.transportSize bytes t.data }
  | .value 0 bytes, .write => { op with stream := op.stream.send op.transportSize bytes }
  | _,              _      => op

def transportDone (t : TransportAnswer) (a : StepAnswer) : AsyncOperation :=
  match t.result with
  | .value ec bytes => (op.transfer t).handleTransportComplete ec bytes t.data t.errorCode a
  | .stopped        => op.postCompleteStopped

def deliver (signal : Signal) : AsyncOperation :=
  { op with pending := .nothing, calls := op.calls ++ [signal] }

def deliverTerminal : AsyncOperation :=
  match op.completion with
  | .value | .error => op.deliver (.value op.ec 0)
  | .stopped        => op.deliver .stopped

def posted (stopped : Bool) : AsyncOperation :=
  if stopped then op.completeStopped.deliverTerminal else op.deliverTerminal

def step (a : AsyncAction) : Option AsyncOperation :=
  match op.pending, a with
  | .run,   .run a         => some (op.run a)
  | .child, .transport t a => some (op.transportDone t a)
  | .post,  .posted b      => some (op.posted b)
  | _,      _              => none

-- The stream is intact, and where the operation waits for input or is about to report a success, all
-- the output has been sent.
structure Inv (op : AsyncOperation) : Prop where
  intact : op.stream.Intact
  offered : op.transportSize ≤ intMax
  reading : op.pending = .child → op.child = .read → op.stream.output = []
  staged : op.pending = .post → op.completion ≠ .stopped → op.ec = 0 → op.stream.output = []
  calls : op.pending ≠ .nothing → op.calls = []
  reported : op.pending = .nothing → ∃ c, op.calls = [c] ∧ ∀ n, c = .value 0 n → op.stream.output = []

variable {op} {op' : AsyncOperation} {ec : ErrorCode}

-- What the functions of a running operation need of it.
structure Kept (op : AsyncOperation) : Prop where
  intact : op.stream.Intact
  offered : op.transportSize ≤ intMax
  calls : op.calls = []

theorem Inv.kept (h : op.Inv) (hp : op.pending ≠ .nothing) : op.Kept :=
  ⟨h.intact, h.offered, h.calls hp⟩

theorem Kept.postCompleteStopped (h : op.Kept) : op.postCompleteStopped.Inv :=
  ⟨h.intact, h.offered, nofun, fun _ hn => absurd rfl hn, fun _ => h.calls, nofun⟩

theorem Kept.postCompleteValue (h : op.Kept) (he : ec = 0 → op.stream.output = []) :
    (op.postCompleteValue ec).Inv :=
  ⟨h.intact, h.offered, nofun, fun _ _ => he, fun _ => h.calls, nofun⟩

theorem Kept.postCompleteError (h : op.Kept) (he : ec ≠ 0) : (op.postCompleteError ec).Inv :=
  ⟨h.intact, h.offered, nofun, fun _ _ hz => absurd hz he, fun _ => h.calls, nofun⟩

theorem Kept.resume (h : op.Kept) (ho : op.stream.output = []) (action : ResumeAction) :
    (op.resume action).Inv := by
  unfold AsyncOperation.resume
  split
  case isTrue  => exact h.postCompleteValue fun _ => ho
  case isFalse => exact ⟨h.intact, h.offered, nofun, nofun, fun _ => h.calls, nofun⟩

theorem Kept.resumeAfterFlush (h : op.Kept) (ho : op.stream.output = []) (a : StepAnswer) :
    (op.resumeAfterFlush a).Inv := by
  unfold AsyncOperation.resumeAfterFlush
  split
  case isTrue =>
    unfold submitTransportRead
    split
    case isTrue  => exact h.postCompleteValue fun _ => ho
    case isFalse =>
      exact ⟨h.intact, a.space_le, fun _ _ => ho, nofun, fun _ => h.calls, nofun⟩
  case isFalse => exact h.resume ho _

theorem Kept.flushOutput (h : op.Kept) (a : StepAnswer) : (op.flushOutput a).Inv := by
  unfold AsyncOperation.flushOutput
  by_cases hz : 0 < op.stream.nread0 a.chunk
  case pos =>
    rw [if_pos hz]
    exact ⟨h.intact, Stream.nread0_le .., nofun, nofun, fun _ => h.calls, nofun⟩
  case neg =>
    rw [if_neg hz]
    have hk : Kept { op with transportSize := 0 } := ⟨h.intact, Nat.zero_le _, h.calls⟩
    exact hk.resumeAfterFlush (Stream.output_of_nread0 hz) a

theorem Kept.flushThen (h : op.Kept) (action : ResumeAction) (a : StepAnswer) :
    (op.flushThen action a).Inv :=
  have hk : Kept { op with afterFlush := action } := ⟨h.intact, h.offered, h.calls⟩
  hk.flushOutput a

theorem Kept.handleSslError (h : op.Kept) (action : ResumeAction) (a : StepAnswer) :
    (op.handleSslError action a).Inv := by
  have hk : Kept { op with afterRead := action } := ⟨h.intact, h.offered, h.calls⟩
  unfold AsyncOperation.handleSslError
  split
  · exact hk.flushThen _ a
  · exact h.flushThen _ a
  · exact h.postCompleteValue nofun
  · exact h.postCompleteValue fun he => absurd he (lastSslError_ne_zero _)

theorem Kept.run (h : op.Kept) (a : StepAnswer) : (op.run a).Inv := by
  have hs : Kept { op with stream := op.stream.ssl a.ssl } := ⟨h.intact.ssl _, h.offered, h.calls⟩
  unfold AsyncOperation.run
  split
  · unfold runHandshake
    dsimp only
    split
    · exact hs.flushThen _ a
    · exact hs.handleSslError _ a
  · unfold runShutdown
    dsimp only
    split
    · exact hs.flushThen _ a
    · split
      · exact hs.flushThen _ a
      · exact hs.handleSslError _ a

theorem Kept.handleReadComplete (h : op.Kept) (ho : op.stream.output = []) (result : Nat)
    (data : List Byte) (errorCode : UInt32) :
    (handleReadComplete
      { op with stream := op.stream.receive op.transportSize result data, child := .none }
      result data errorCode).Inv := by
  have hk : Kept { op with
      stream := ((op.stream.receive op.transportSize result data).nwrite op.transportSize result data).1
      child := .none } := ⟨h.intact.nwrite h.offered .., h.offered, h.calls⟩
  unfold AsyncOperation.handleReadComplete
  dsimp only
  split
  case isTrue  => exact hk.postCompleteError (lastSslError_ne_zero _)
  case isFalse => exact hk.resume ho _

theorem Kept.handleWriteComplete (h : op.Kept) (result : Nat) (errorCode : UInt32) (a : StepAnswer) :
    (handleWriteComplete { op with stream := op.stream.send op.transportSize result, child := .none }
      result errorCode a).Inv := by
  have hk : Kept { op with
      stream := ((op.stream.send op.transportSize result).nread op.transportSize result).1
      child := .none } := ⟨h.intact.nread h.offered .., h.offered, h.calls⟩
  unfold AsyncOperation.handleWriteComplete
  dsimp only
  split
  case isTrue  => exact hk.postCompleteError (lastSslError_ne_zero _)
  case isFalse => exact hk.flushOutput a

theorem Inv.transportDone (h : op.Inv) (hp : op.pending = .child) (t : TransportAnswer) (a : StepAnswer) :
    (op.transportDone t a).Inv := by
  have hk := h.kept (by simp [hp])
  unfold AsyncOperation.transportDone
  cases hr : t.result
  case stopped => exact hk.postCompleteStopped
  case value ec bytes =>
    simp only [handleTransportComplete]
    by_cases hec : ec = 0
    case neg =>
      have ht : op.transfer t = op := by simp [transfer, hr, hec]
      rw [if_pos hec, ht]
      exact hk.postCompleteValue fun he => absurd he hec
    case pos =>
      subst hec
      by_cases hb : bytes = 0
      case pos =>
        have ht : op.transfer t = op := by
          subst hb
          cases hc : op.child <;> simp [transfer, hr, hc] <;> rw [← hc]
        rw [if_neg (by simp), if_pos hb, ht]
        exact hk.postCompleteValue nofun
      case neg =>
        rw [if_neg (by simp), if_neg hb]
        cases hc : op.child <;> simp only [transfer, hr, hc]
        case read  => exact hk.handleReadComplete (h.reading hp hc) ..
        case write => exact hk.handleWriteComplete ..
        case none  => exact hk.postCompleteError (by decide)

theorem Inv.posted (h : op.Inv) (hp : op.pending = .post) (stopped : Bool) : (op.posted stopped).Inv := by
  have hk := h.kept (by simp [hp])
  have hend : ∀ {op' : AsyncOperation} {c}, op'.Kept → (∀ n, c = .value 0 n → op'.stream.output = []) →
      (op'.deliver c).Inv := fun {_ c} hk hc =>
    ⟨hk.intact, hk.offered, nofun, nofun, fun hn => absurd rfl hn,
      fun _ => ⟨c, by simp [deliver, hk.calls], hc⟩⟩
  unfold AsyncOperation.posted deliverTerminal
  split
  case isTrue => exact hend ⟨hk.intact, hk.offered, hk.calls⟩ nofun
  case isFalse =>
    have hs := h.staged hp
    cases hc : op.completion <;> simp only [hc] at hs ⊢
    case stopped => exact hend hk nofun
    all_goals exact hend hk fun n he => hs nofun (Signal.value.inj he).1

theorem Inv.step (h : op.Inv) {a : AsyncAction} (hs : op.step a = some op') : op'.Inv := by
  unfold AsyncOperation.step at hs
  split at hs
  case h_1 hp => cases hs; exact (h.kept (by simp [hp])).run _
  case h_2 hp => cases hs; exact h.transportDone hp ..
  case h_3 hp => cases hs; exact h.posted hp _
  case h_4    => cases hs

theorem start_inv {stream : Stream} (h : stream.Intact) (kind : AsyncKind) (stopRequested valid : Bool) :
    (start kind stream stopRequested valid).Inv := by
  have hk : Kept { kind, stream } := ⟨h, Nat.zero_le _, rfl⟩
  have hi : Inv { kind, stream } := ⟨h, Nat.zero_le _, nofun, nofun, fun _ => rfl, nofun⟩
  unfold start
  split
  case isTrue  => exact hk.postCompleteStopped
  case isFalse =>
    cases kind
    case handshake =>
      dsimp only
      split
      case isTrue  => exact hi
      case isFalse => exact hk.postCompleteError (lastSslError_ne_zero _)
    case shutdown => exact hi

end AsyncOperation
end Bnio.Tls
