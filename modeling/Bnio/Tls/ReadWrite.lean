import Bnio.Tls.Stream

namespace Bnio.Tls

inductive ApplicationIo
  | read | write
  deriving DecidableEq

inductive IoPhase
  | application | flushOutput | transportRead | transportWrite | done
  deriving DecidableEq

structure IoState where
  application : ApplicationIo
  completeBuffer : Bool
  size : Nat
  transportSize : Nat := 0
  bytes : Nat := 0
  phase : IoPhase := .application
  afterFlush : ResumeAction := match application with
    | .read => .applicationRead | .write => .applicationWrite
  done : Bool := false

def IoState.applicationAction (s : IoState) : ResumeAction :=
  match s.application with
  | .read  => .applicationRead
  | .write => .applicationWrite

def sslRead (size : Nat) : IoState :=
  { application := .read, completeBuffer := false, size }

def sslWrite (size : Nat) : IoState :=
  { application := .write, completeBuffer := true, size }

def sslWriteSome (size : Nat) : IoState :=
  { application := .write, completeBuffer := false, size }

inductive IoKind
  | read | write | writeSome
  deriving DecidableEq

-- The state an operation is constructed with.
def IoKind.state : IoKind → Nat → IoState
  | read      => sslRead
  | write     => sslWrite
  | writeSome => sslWriteSome

-- What a step does to its surroundings: it completes its receiver or submits a transport operation.
inductive Effect
  | complete (ec : ErrorCode) (bytes : Nat)
  | stopped
  | submitRead
  | submitWrite
  deriving DecidableEq

-- The arguments of an `SSL_write`, as a part of the plaintext, and its result.
structure SslWrite where
  offset : Nat
  length : Nat
  result : Int

-- What the steps of an operation work on. `writes` are the calls of `SSL_write` so far.
structure Io where
  state : IoState
  stream : Stream
  writes : List SslWrite := []

-- The answers to one step: the stop token, OpenSSL, and the sizes that `BIO_nread0` and `BIO_nwrite0`
-- return.
structure StepAnswer where
  stopRequested : Bool := false
  ssl : SslAnswer := { result := 0 }
  chunk : Nat := 0
  space : Int32 := 1
  spaceError : UInt32 := 0

theorem StepAnswer.space_le (a : StepAnswer) : a.space.toInt.toNat ≤ intMax := by
  have := a.space.toInt_lt
  unfold intMax
  omega

namespace Io

variable (io : Io)

def completeError (ec : ErrorCode) : Io × List Effect :=
  ({ io with state := { io.state with done := true } }, [.complete ec io.state.bytes])

def handleSslError (a : SslAnswer) : Io × List Effect :=
  match a.error with
  | .wantRead =>
    ({ io with state := { io.state with afterFlush := .transportRead, phase := .flushOutput } },
      [.complete 0 0])
  | .wantWrite =>
    ({ io with state := { io.state with
        afterFlush := io.state.applicationAction, phase := .flushOutput } },
      [.complete 0 0])
  | .zeroReturn =>
    match io.state.application with
    | .read  => io.completeError 0
    | .write => io.completeError brokenPipe
  | .other => io.completeError (lastSslError a.errorCode)

-- The part of a positive result behind the check of its size.
def acceptResult (bytes : Nat) : Io × List Effect :=
  let s := io.state
  let afterFlush := if s.application = .write ∧ s.completeBuffer ∧ bytes < s.size then
      s.applicationAction else .finish
  ({ io with state := { s with bytes, afterFlush, phase := .flushOutput } }, [.complete 0 0])

def handleApplicationResult (a : SslAnswer) : Io × List Effect :=
  if 0 < a.result then
    let transferred := a.result.toNat
    match io.state.application with
    | .read  => io.acceptResult transferred
    | .write =>
      if transferred > io.state.size - io.state.bytes then io.completeError protocolError
      else io.acceptResult (io.state.bytes + transferred)
  else io.handleSslError a

def runApplication (a : SslAnswer) : Io × List Effect :=
  let io := { io with stream := io.stream.ssl a }
  match io.state.application with
  | .read  => io.handleApplicationResult a
  | .write =>
    let write : SslWrite := {
      offset := io.state.bytes
      length := sslBoundedIntSize (io.state.size - io.state.bytes)
      result := a.result }
    handleApplicationResult { io with writes := io.writes ++ [write] } a

def submitTransportRead (a : StepAnswer) : Io × List Effect :=
  if a.space ≤ 0 then io.completeError (lastSslError a.spaceError)
  else ({ io with state := { io.state with transportSize := a.space.toInt.toNat } }, [.submitRead])

def submitTransportWrite : Io × List Effect :=
  (io, [.submitWrite])

def resumeAfterFlush (a : StepAnswer) : Io × List Effect :=
  match io.state.afterFlush with
  | .transportRead =>
    submitTransportRead { io with state := { io.state with phase := .transportRead } } a
  | .finish =>
    ({ io with state := { io.state with phase := .done, done := true } },
      [.complete 0 io.state.bytes])
  | .applicationRead | .applicationWrite =>
    ({ io with state := { io.state with phase := .application } }, [.complete 0 0])
  | .handshake | .shutdown => (io, [])

def flushOutput (a : StepAnswer) : Io × List Effect :=
  let available := io.stream.nread0 a.chunk
  if 0 < available then
    submitTransportWrite { io with state := { io.state with
      transportSize := available, phase := .transportWrite } }
  else io.resumeAfterFlush a

def runStep (a : StepAnswer) : Io × List Effect :=
  match io.state.phase with
  | .application    => io.runApplication a.ssl
  | .flushOutput    => io.flushOutput a
  | .transportRead  => io.submitTransportRead a
  | .transportWrite => io.submitTransportWrite
  | .done           => (io, [.complete 0 io.state.bytes])

def startStep (a : StepAnswer) : Io × List Effect :=
  if a.stopRequested then (io, [.stopped]) else io.runStep a

def handleTransportReadComplete (bytes : Nat) (data : List Byte) (errorCode : UInt32) :
    Io × List Effect :=
  let (stream, committed) := io.stream.nwrite io.state.transportSize bytes data
  let io := { io with stream }
  if (committed : Int) ≠ toInt bytes then io.completeError (lastSslError errorCode)
  else ({ io with state := { io.state with phase := .application } }, [.complete 0 0])

def handleTransportWriteComplete (bytes : Nat) (errorCode : UInt32) : Io × List Effect :=
  let (stream, consumed) := io.stream.nread io.state.transportSize bytes
  let io := { io with stream }
  if (consumed : Int) ≠ toInt bytes then io.completeError (lastSslError errorCode)
  else ({ io with state := { io.state with phase := .flushOutput } }, [.complete 0 0])

def handleTransportComplete (ec : ErrorCode) (bytes : Nat) (data : List Byte) (errorCode : UInt32) :
    Io × List Effect :=
  if ec ≠ 0 then io.completeError ec
  else if bytes = 0 then
    io.completeError (if io.state.phase = .transportWrite then brokenPipe else connectionReset)
  else
    match io.state.phase with
    | .transportRead  => io.handleTransportReadComplete bytes data errorCode
    | .transportWrite => io.handleTransportWriteComplete bytes errorCode
    | .application | .flushOutput | .done => io.completeError protocolError

-- What the transport has done by the time it completes; an error or a stop has transferred nothing.
def transfer (t : TransportAnswer) : Io :=
  match t.result, io.state.phase with
  | .value 0 bytes, .transportRead  => { io with
      stream := io.stream.receive io.state.transportSize bytes t.data }
  | .value 0 bytes, .transportWrite => { io with stream := io.stream.send io.state.transportSize bytes }
  | _,              _               => io

-- The receiver of the transport operation.
def transportDone (t : TransportAnswer) : Io × List Effect :=
  match t.result with
  | .value ec bytes => (io.transfer t).handleTransportComplete ec bytes t.data t.errorCode
  | .stopped        => (io, [.stopped])

end Io

inductive Mode
  | ready | waiting | ended | stuck
  deriving DecidableEq

-- `ready` between two steps, `waiting` while a transport operation is outstanding. A step that has
-- returned without completing its receiver and without a transport operation leaves `stuck`.
structure IoOperation where
  io : Io
  mode : Mode := .ready
  calls : List Signal := []

inductive IoAction
  | round (stopRequested : Bool) (answer : StepAnswer)
  | transport (answer : TransportAnswer)

namespace IoOperation

variable (op : IoOperation)

def deliver (signal : Signal) : IoOperation :=
  { op with mode := .ended, calls := op.calls ++ [signal] }

def completeValue (ec : ErrorCode) (bytes : Nat) : IoOperation :=
  match op.io.state.application with
  | .read  => op.deliver (.value ec bytes)
  | .write => op.deliver (.value ec op.io.state.bytes)

def start (state : IoState) (stream : Stream) (stopRequested : Bool) : IoOperation :=
  let op : IoOperation := { io := { state, stream } }
  if stopRequested then op.deliver .stopped
  else if state.size = 0 then op.completeValue 0 0
  else op

-- What `repeat_until` makes of a step.
def settle (r : Io × List Effect) : IoOperation :=
  let op := { op with io := r.1 }
  match r.2 with
  | [.complete ec bytes] =>
    if op.io.state.done then op.completeValue ec bytes else { op with mode := .ready }
  | [.stopped]    => op.deliver .stopped
  | [.submitRead] => { op with mode := .waiting }
  | [.submitWrite] => { op with mode := .waiting }
  | _             => { op with mode := .stuck }

-- What a step has done when it has been started, or when its transport operation has completed.
def effects : IoAction → Io × List Effect
  | .round _ a   => op.io.startStep a
  | .transport t => op.io.transportDone t

def step (a : IoAction) : Option IoOperation :=
  match op.mode, a with
  | .ready,   .round true _  => some (op.deliver .stopped)
  | .ready,   .round false _ => some (op.settle (op.effects a))
  | .waiting, .transport _   => some (op.settle (op.effects a))
  | _,        _              => none

end IoOperation

-- How much of the plaintext the operation takes as written.
def SslWrite.accepted (w : SslWrite) (size : Nat) : Nat :=
  if 0 < w.result ∧ w.result.toNat ≤ size - w.offset then w.result.toNat else 0

-- Each call gets all that is left behind the bytes accepted so far.
def Suffixes (size : Nat) : Nat → List SslWrite → Prop
  | _, []      => True
  | t, w :: ws => w.offset = t ∧ w.length = sslBoundedIntSize (size - t) ∧ t < size ∧
    Suffixes size (t + w.accepted size) ws

def acceptedSum (size : Nat) (ws : List SslWrite) : Nat :=
  (ws.map (·.accepted size)).sum

theorem Suffixes.concat {size t : Nat} {ws : List SslWrite} {w : SslWrite} (h : Suffixes size t ws)
    (ho : w.offset = t + acceptedSum size ws)
    (hl : w.length = sslBoundedIntSize (size - (t + acceptedSum size ws)))
    (hlt : t + acceptedSum size ws < size) : Suffixes size t (ws ++ [w]) := by
  induction ws generalizing t
  case nil          => exact ⟨ho, hl, hlt, trivial⟩
  case cons v ws hi =>
    have he : t + acceptedSum size (v :: ws) = t + v.accepted size + acceptedSum size ws := by
      simp [acceptedSum]
      omega
    rw [he] at ho hl hlt
    exact ⟨h.1, h.2.1, h.2.2.1, hi h.2.2.2 ho hl hlt⟩

-- The transport reports an error, or that it has transferred nothing.
def TransportAnswer.Breaks (t : TransportAnswer) : Prop :=
  ∃ ec bytes, t.result = .value ec bytes ∧ (ec ≠ 0 ∨ bytes = 0)

namespace Io

-- What holds of an operation that has been constructed with `s`.
structure Base (s : IoState) (io : Io) : Prop where
  application : io.state.application = s.application
  completeBuffer : io.state.completeBuffer = s.completeBuffer
  size : io.state.size = s.size
  suffixes : Suffixes s.size 0 io.writes
  bytes : s.application = .write → io.state.bytes = acceptedSum s.size io.writes
  le : s.application = .write → io.state.bytes ≤ s.size

structure Running (s : IoState) (io : Io) : Prop extends Base s io where
  done : io.state.done = false
  afterFlush : io.state.afterFlush = .finish ∨ io.state.afterFlush = .transportRead ∨
    io.state.afterFlush = io.state.applicationAction
  more : s.application = .write → io.state.afterFlush ≠ .finish → io.state.bytes < s.size
  full : s.application = .write → s.completeBuffer → io.state.afterFlush = .finish →
    io.state.bytes = s.size

-- A step can be started.
structure Ready (s : IoState) (io : Io) : Prop extends Running s io where
  phase : io.state.phase = .application ∧ io.state.afterFlush ≠ .finish ∨ io.state.phase = .flushOutput

-- A transport operation is outstanding.
structure Waiting (s : IoState) (io : Io) : Prop extends Running s io where
  phase : io.state.phase = .transportRead ∧ io.state.afterFlush = .transportRead ∨
    io.state.phase = .transportWrite

-- The operation ends with `ec`.
structure Final (s : IoState) (io : Io) (ec : ErrorCode) : Prop extends Base s io where
  done : io.state.done = true
  filled : ec = 0 → s.application = .write → s.completeBuffer → io.state.bytes = s.size

-- Everything that can come of a step. Only one that has just been started submits an operation;
-- `closed` is the answer it reports as the orderly close, and `fails` one it has to report as an error.
inductive Outcome (s : IoState) (started closed fails : Prop) : Io × List Effect → Prop
  | stopped {io : Io} (base : io.Base s) (fine : ¬fails) : Outcome s started closed fails (io, [.stopped])
  | continued {io : Io} (ready : io.Ready s) (fine : ¬fails) :
    Outcome s started closed fails (io, [.complete 0 0])
  | submittedRead {io : Io} (start : started) (waiting : io.Waiting s) (fine : ¬fails)
    (phase : io.state.phase = .transportRead) (flushed : io.stream.output = []) :
    Outcome s started closed fails (io, [.submitRead])
  | submittedWrite {io : Io} (start : started) (waiting : io.Waiting s) (fine : ¬fails)
    (phase : io.state.phase = .transportWrite) : Outcome s started closed fails (io, [.submitWrite])
  | ended {io : Io} {ec : ErrorCode} (final : io.Final s ec)
    (flushed : ec = 0 → io.stream.output = [] ∨ closed) (failed : fails → ec ≠ 0) :
    Outcome s started closed fails (io, [.complete ec io.state.bytes])

-- OpenSSL answers that the peer has closed the session, which only a read reports as a success.
def Closes (io : Io) (a : StepAnswer) : Prop :=
  io.state.phase = .application ∧ a.ssl.result ≤ 0 ∧ io.state.application = .read ∧
    a.ssl.error = .zeroReturn

-- The step calls OpenSSL and gets an error it cannot go on from.
def Breaks (io : Io) (a : StepAnswer) : Prop :=
  a.stopRequested = false ∧ io.state.phase = .application ∧ a.ssl.result ≤ 0 ∧
    (a.ssl.error = .other ∨ a.ssl.error = .zeroReturn ∧ io.state.application = .write)

-- The step finds that the operation is over.
def Ends (io : Io) (a : StepAnswer) : Prop :=
  a.stopRequested = false ∧
    (io.state.phase = .application ∧ a.ssl.result ≤ 0 ∧
        (a.ssl.error = .other ∨ a.ssl.error = .zeroReturn) ∨
      io.state.phase = .flushOutput ∧ io.state.afterFlush = .finish ∧ io.stream.output = [])

variable {s : IoState} {io : Io} {a : StepAnswer} {ec : ErrorCode} {started closed fails : Prop}

theorem Base.completeError (h : io.Base s) (hne : ec ≠ 0) :
    Outcome s started closed fails (io.completeError ec) := by
  have hf : Final s { io with state := { io.state with done := true } } ec :=
    ⟨⟨h.application, h.completeBuffer, h.size, h.suffixes, h.bytes, h.le⟩, rfl, fun h => absurd h hne⟩
  exact .ended hf (fun h => absurd h hne) fun _ => hne

theorem Base.setPhase (h : io.Base s) (p : IoPhase) (f : ResumeAction) (d : Bool) (n : Nat) :
    Base s { io with
      state := { io.state with phase := p, afterFlush := f, done := d, transportSize := n } } :=
  ⟨h.application, h.completeBuffer, h.size, h.suffixes, h.bytes, h.le⟩

theorem applicationAction_ne_finish (s : IoState) : s.applicationAction ≠ .finish := by
  unfold IoState.applicationAction
  split <;> simp

-- A positive result that has been accepted.
theorem acceptResult_outcome {b : SslAnswer} {n : Nat} {ws : List SslWrite} (h : io.Running s)
    (hsuf : Suffixes s.size 0 ws)
    (hb : s.application = .write → n = acceptedSum s.size ws ∧ n ≤ s.size) (hn : ¬fails) :
    Outcome s started closed fails
      (acceptResult { io with stream := io.stream.ssl b, writes := ws } n) := by
  refine .continued ⟨⟨⟨h.application, h.completeBuffer, h.size, hsuf, fun hw => (hb hw).1,
    fun hw => (hb hw).2⟩, h.done, ?_, fun hw hne => ?_, fun hw hc hf => ?_⟩, .inr rfl⟩ hn
  · dsimp only
    split
    · exact .inr (.inr rfl)
    · exact .inl rfl
  · dsimp only at hne
    split at hne
    case isTrue hlt => exact h.size ▸ hlt.2.2
    case isFalse    => exact absurd rfl hne
  · dsimp only at hf
    have := (hb hw).2
    split at hf
    case isTrue => exact absurd hf (applicationAction_ne_finish _)
    case isFalse hge =>
      rw [h.application, h.completeBuffer, h.size] at hge
      simp only [hw, hc, true_and] at hge
      dsimp only
      omega

theorem Running.handleSslError (h : io.Running s) (b : SslAnswer) (hf : io.state.afterFlush ≠ .finish)
    (hc : io.state.application = .read ∧ b.error = .zeroReturn → closed)
    (hfails : fails → b.error = .other ∨ b.error = .zeroReturn ∧ io.state.application = .write) :
    Outcome s started closed fails (io.handleSslError b) := by
  have hb := h.toBase
  unfold Io.handleSslError
  cases he : b.error
  case wantRead =>
    refine .continued ⟨⟨hb.setPhase .. , h.done, .inr (.inl rfl), fun hw _ => h.more hw hf, nofun⟩,
      .inr rfl⟩ ?_
    simp_all
  case wantWrite =>
    refine .continued ⟨⟨hb.setPhase .., h.done, .inr (.inr rfl), fun hw _ => h.more hw hf, ?_⟩,
      .inr rfl⟩ ?_
    · exact fun _ _ hf => absurd hf (applicationAction_ne_finish _)
    · simp_all
  case zeroReturn =>
    cases ha : io.state.application
    case write => exact hb.completeError (by decide)
    case read =>
      have hw : s.application ≠ .write := by simp [← h.application, ha]
      exact .ended ⟨hb.setPhase .., rfl, fun _ h => absurd h hw⟩ (fun _ => .inr (hc ⟨ha, he⟩))
        fun hf => absurd (hfails hf) (by simp [he, ha])
  case other => exact hb.completeError (lastSslError_ne_zero _)

theorem Running.runApplication (h : io.Running s) (b : SslAnswer) (hf : io.state.afterFlush ≠ .finish)
    (hc : b.result ≤ 0 ∧ io.state.application = .read ∧ b.error = .zeroReturn → closed)
    (hfails : fails → b.result ≤ 0 ∧
      (b.error = .other ∨ b.error = .zeroReturn ∧ io.state.application = .write)) :
    Outcome s started closed fails (io.runApplication b) := by
  have hrun : ∀ ws, Suffixes s.size 0 ws →
      (s.application = .write → io.state.bytes = acceptedSum s.size ws) →
      Running s { io with stream := io.stream.ssl b, writes := ws } := fun ws hs hb =>
    ⟨⟨h.application, h.completeBuffer, h.size, hs, hb, h.le⟩, h.done, h.afterFlush, h.more, h.full⟩
  unfold Io.runApplication
  cases ha : io.state.application
  case read =>
    have hw : s.application ≠ .write := by simp [← h.application, ha]
    simp only [ha, handleApplicationResult]
    split
    case isTrue hpos =>
      refine acceptResult_outcome h h.suffixes (fun h => absurd h hw) fun hf => ?_
      exact absurd (hfails hf).1 (by omega)
    case isFalse hnp =>
      exact (hrun _ h.suffixes h.bytes).handleSslError b hf (fun hr => hc ⟨by omega, hr⟩)
        fun hf => (hfails hf).2
  case write =>
    have hw : s.application = .write := h.application ▸ ha
    have hlt := h.more hw hf
    have hb := h.bytes hw
    have hsum : ∀ w : SslWrite,
        acceptedSum s.size (io.writes ++ [w]) = io.state.bytes + w.accepted s.size :=
      fun w => by simp [acceptedSum, hb]
    generalize hw' : SslWrite.mk io.state.bytes (sslBoundedIntSize (io.state.size - io.state.bytes))
      b.result = w
    have hsuf : Suffixes s.size 0 (io.writes ++ [w]) :=
      h.suffixes.concat (by simp [← hw', hb]) (by simp [← hw', hb, h.size]) (by omega)
    simp only [ha, hw', handleApplicationResult]
    split
    case isTrue hpos =>
      have hfine : ¬fails := fun hf => absurd (hfails hf).1 (by omega)
      split
      case isTrue hgt =>
        have hacc : w.accepted s.size = 0 := by simp [← hw', SslWrite.accepted, ← h.size]; omega
        have hrun := hrun _ hsuf fun _ => by rw [hsum, hacc]; rfl
        exact hrun.toBase.completeError (by decide)
      case isFalse hle =>
        have hacc : w.accepted s.size = b.result.toNat := by
          simp [← hw', SslWrite.accepted, ← h.size]; omega
        have hle : io.state.bytes + b.result.toNat ≤ s.size := by
          have := h.size
          omega
        exact acceptResult_outcome h hsuf (fun _ => ⟨by rw [hsum, hacc], hle⟩) hfine
    case isFalse hnp =>
      have hacc : w.accepted s.size = 0 := by simp [← hw', SslWrite.accepted]; omega
      have hrun := hrun _ hsuf fun _ => by rw [hsum, hacc]; rfl
      exact hrun.handleSslError b hf (fun hr => hc ⟨by omega, ha ▸ hr.1, hr.2⟩)
        fun hf => ha ▸ (hfails hf).2

theorem Running.resumeAfterFlush (h : io.Running s) (ho : io.stream.output = []) (hs : started)
    (hn : ¬fails) : Outcome s started closed fails (io.resumeAfterFlush a) := by
  have hb := h.toBase
  have hact : ∀ {p f}, io.state.afterFlush = f → f ≠ .finish → (p = .application ∨ p = .flushOutput) →
      Ready s { io with state := { io.state with phase := p } } := fun he hne hp =>
    ⟨⟨hb.setPhase .., h.done, h.afterFlush, h.more, h.full⟩,
      hp.imp (⟨·, he ▸ hne⟩) id⟩
  unfold Io.resumeAfterFlush
  cases he : io.state.afterFlush <;> dsimp only
  case transportRead =>
    unfold Io.submitTransportRead
    split
    case isTrue  => exact (hb.setPhase ..).completeError (lastSslError_ne_zero _)
    case isFalse =>
      exact .submittedRead hs ⟨⟨hb.setPhase .., h.done, h.afterFlush, h.more, h.full⟩, .inl ⟨rfl, he⟩⟩ hn
        rfl ho
  case finish =>
    exact .ended ⟨hb.setPhase .., rfl, fun _ hw hc => h.full hw hc he⟩ (fun _ => .inl ho)
      fun hf => absurd hf hn
  case applicationRead  => exact .continued (hact he nofun (.inl rfl)) hn
  case applicationWrite => exact .continued (hact he nofun (.inl rfl)) hn
  case handshake | shutdown =>
    have := h.afterFlush
    simp only [he, reduceCtorEq, false_or, IoState.applicationAction] at this
    split at this <;> cases this

theorem Running.flushOutput (h : io.Running s) (hs : started) (hn : ¬fails) :
    Outcome s started closed fails (io.flushOutput a) := by
  have hb := h.toBase
  unfold Io.flushOutput
  by_cases hz : 0 < io.stream.nread0 a.chunk
  case pos =>
    rw [if_pos hz]
    exact .submittedWrite hs ⟨⟨hb.setPhase .., h.done, h.afterFlush, h.more, h.full⟩, .inr rfl⟩ hn rfl
  case neg =>
    rw [if_neg hz]
    exact h.resumeAfterFlush (Stream.output_of_nread0 hz) hs hn

theorem Ready.startStep (h : io.Ready s) (a : StepAnswer) :
    Outcome s True (io.Closes a) (io.Breaks a) (io.startStep a) := by
  have hr := h.toRunning
  unfold Io.startStep
  split
  case isTrue hstop => exact .stopped h.toBase fun hf => by simp [hf.1] at hstop
  case isFalse =>
    unfold Io.runStep
    obtain ⟨hp, hf⟩ | hp := h.phase
    · rw [hp]
      exact hr.runApplication a.ssl hf (⟨hp, ·⟩) fun hf => hf.2.2
    · rw [hp]
      exact hr.flushOutput trivial fun hf => absurd hf.2.1 (by simp [hp])

theorem Base.setStream (h : io.Base s) (stream : Stream) : Base s { io with stream } :=
  ⟨h.application, h.completeBuffer, h.size, h.suffixes, h.bytes, h.le⟩

theorem Waiting.transportDone (h : io.Waiting s) (t : TransportAnswer) :
    Outcome s False False t.Breaks (io.transportDone t) := by
  have hb : (io.transfer t).Base s := by
    unfold Io.transfer
    split <;> exact h.toBase.setStream _
  have hstate : (io.transfer t).state = io.state := by
    unfold Io.transfer
    split <;> rfl
  unfold Io.transportDone
  cases hr : t.result
  case stopped =>
    exact .stopped h.toBase fun ⟨_, _, hv, _⟩ => by simp [hr] at hv
  case value ec bytes =>
    simp only [Io.handleTransportComplete]
    split
    case isTrue hec => exact hb.completeError hec
    case isFalse hec =>
      split
      case isTrue => exact hb.completeError (by split <;> decide)
      case isFalse hbytes =>
        have hfine : ¬t.Breaks := fun ⟨_, _, hv, hbad⟩ => by
          cases hr.symm.trans hv
          exact hbad.elim hec hbytes
        have hrun : ∀ stream, Running s { io.transfer t with stream } := fun stream =>
          ⟨hb.setStream stream, hstate ▸ h.done, hstate ▸ h.afterFlush, hstate ▸ h.more, hstate ▸ h.full⟩
        have hready : ∀ stream p, (p = .application → io.state.afterFlush ≠ .finish) →
            (p = .application ∨ p = .flushOutput) →
            Ready s { io.transfer t with stream, state := { (io.transfer t).state with phase := p } } :=
          fun stream p hne hp =>
            have hr := hrun stream
            ⟨⟨hr.toBase.setPhase .., hr.done, hr.afterFlush, hr.more, hr.full⟩,
              hp.imp (fun he => ⟨he, hstate ▸ hne he⟩) id⟩
        rw [hstate]
        obtain ⟨hp, hf⟩ | hp := h.phase
        · simp only [hp, Io.handleTransportReadComplete]
          split
          case isTrue  => exact (hb.setStream _).completeError (lastSslError_ne_zero _)
          case isFalse => exact .continued (hready _ _ (fun _ => by simp [hf]) (.inl rfl)) hfine
        · simp only [hp, Io.handleTransportWriteComplete]
          split
          case isTrue  => exact (hb.setStream _).completeError (lastSslError_ne_zero _)
          case isFalse => exact .continued (hready _ _ nofun (.inr rfl)) hfine

variable {r : Io × List Effect}

theorem Outcome.one (h : Outcome s started closed fails r) : ∃ e, r.2 = [e] := by
  cases h <;> exact ⟨_, rfl⟩

theorem Outcome.completes (h : Outcome s started closed fails r) (hn : ¬started) :
    r.2 ≠ [.submitRead] ∧ r.2 ≠ [.submitWrite] := by
  cases h
  case submittedRead hs _ _ _ _ => exact absurd hs hn
  case submittedWrite hs _ _ _  => exact absurd hs hn
  all_goals simp

theorem Outcome.value {n : Nat} (h : Outcome s started closed fails r) (he : r.2 = [.complete ec n]) :
    ec = 0 ∧ n = 0 ∨ r.1.state.done = true := by
  cases h
  case continued    => cases he; exact .inl ⟨rfl, rfl⟩
  case ended hf _ _ => exact .inr hf.done
  all_goals cases he

theorem Outcome.running (h : Outcome s started closed fails r) (hd : r.1.state.done = true) :
    r.2 = [.stopped] ∨ ∃ ec, r.2 = [.complete ec r.1.state.bytes] := by
  cases h
  case stopped                  => exact .inl rfl
  case ended ec _ _ _           => exact .inr ⟨ec, rfl⟩
  case continued hy _           => simp [hy.done] at hd
  case submittedRead hy _ _ _   => simp [hy.done] at hd
  case submittedWrite hy _ _    => simp [hy.done] at hd

theorem Outcome.failed (h : Outcome s started closed fails r) (hf : fails) :
    r.1.state.done = true ∧ ∃ ec, ec ≠ 0 ∧ r.2 = [.complete ec r.1.state.bytes] := by
  cases h
  case ended ec hd _ hne    => exact ⟨hd.done, ec, hne hf, rfl⟩
  case stopped hn           => exact absurd hf hn
  case continued hn         => exact absurd hf hn
  case submittedRead hn _ _ => exact absurd hf hn
  case submittedWrite hn _  => exact absurd hf hn

theorem Ends.done (h : io.Ends a) : (io.startStep a).1.state.done = true := by
  obtain ⟨hs, ⟨hp, hr, he⟩ | ⟨hp, hf, ho⟩⟩ := h
  · have hr : ¬0 < a.ssl.result := by omega
    cases ha : io.state.application <;> obtain he | he := he <;>
      simp [Io.startStep, hs, Io.runStep, hp, Io.runApplication, ha, Io.handleApplicationResult, hr,
        Io.handleSslError, he, Io.completeError]
  · simp [Io.startStep, hs, Io.runStep, hp, Io.flushOutput, Stream.nread0, ho, Io.resumeAfterFlush, hf]

end Io
namespace IoOperation

open Io

variable {s : IoState} {op op' : IoOperation} {a : IoAction} {r : Io × List Effect}
variable {started closed fails : Prop}

-- What the operation has reported when it has ended.
def Reported (s : IoState) (op : IoOperation) (ec : ErrorCode) (n : Nat) : Prop :=
  s.application = .write → n = op.io.state.bytes ∧
    (s.completeBuffer → ec = 0 → n = s.size ∧ (op.io.writes ≠ [] → op.io.stream.output = []))

def Inv (s : IoState) (op : IoOperation) : Prop :=
  match op.mode with
  | .ready   => op.io.Ready s ∧ op.calls = []
  | .waiting => op.io.Waiting s ∧ op.calls = []
  | .ended   => op.io.Base s ∧ ∃ c, op.calls = [c] ∧ ∀ ec n, c = .value ec n → op.Reported s ec n
  | .stuck   => False

theorem Inv.base (h : op.Inv s) : op.io.Base s := by
  unfold Inv at h
  split at h
  · exact h.1.toBase
  · exact h.1.toBase
  · exact h.1
  · exact h.elim

theorem settle_inv (hc : op.calls = []) (ho : Outcome s started closed fails r)
    (hcl : closed → s.application = .read) : (op.settle r).Inv s := by
  cases ho
  case stopped io hb _   => exact ⟨hb, .stopped, by simp [settle, deliver, hc], nofun⟩
  case continued io hr _ =>
    simp only [settle, hr.done, Bool.false_eq_true, if_false]
    exact ⟨hr, hc⟩
  case submittedRead io _ hw _ _ _ => exact ⟨hw, hc⟩
  case submittedWrite io _ hw _ _  => exact ⟨hw, hc⟩
  case ended io ec hf hfl _ =>
    simp only [settle, hf.done, if_true, completeValue]
    cases ha : io.state.application
    case read =>
      refine ⟨hf.toBase, .value ec io.state.bytes, by simp [deliver, hc], fun _ _ _ hw => ?_⟩
      simp [← hf.application, ha] at hw
    case write =>
      refine ⟨hf.toBase, .value ec io.state.bytes, by simp [deliver, hc], fun _ _ he hw => ?_⟩
      cases he
      refine ⟨rfl, fun hcb hec => ⟨hf.filled hec hw hcb, fun _ => ?_⟩⟩
      exact (hfl hec).resolve_right fun h => by simp [hcl h] at hw

theorem step_cases (h : op.step a = some op') :
    (op.mode = .ready ∧ ∃ x, a = .round true x ∧ op' = op.deliver .stopped) ∨
    (op.mode = .ready ∧ ∃ x, a = .round false x ∧ op' = op.settle (op.io.startStep x)) ∨
    (op.mode = .waiting ∧ ∃ t, a = .transport t ∧ op' = op.settle (op.io.transportDone t)) := by
  unfold step at h
  split at h
  case h_1 x hm => exact .inl ⟨hm, x, rfl, (Option.some.inj h).symm⟩
  case h_2 x hm => exact .inr (.inl ⟨hm, x, rfl, (Option.some.inj h).symm⟩)
  case h_3 t hm => exact .inr (.inr ⟨hm, t, rfl, (Option.some.inj h).symm⟩)
  case h_4      => cases h

theorem Inv.ready (h : op.Inv s) (hm : op.mode = .ready) : op.io.Ready s ∧ op.calls = [] := by
  simpa only [Inv, hm] using h

theorem Inv.waiting (h : op.Inv s) (hm : op.mode = .waiting) : op.io.Waiting s ∧ op.calls = [] := by
  simpa only [Inv, hm] using h

theorem Inv.step (hi : op.Inv s) (h : op.step a = some op') : op'.Inv s := by
  obtain ⟨hm, x, rfl, rfl⟩ | ⟨hm, x, rfl, rfl⟩ | ⟨hm, t, rfl, rfl⟩ := step_cases h
  · have ⟨hr, hc⟩ := hi.ready hm
    exact ⟨hr.toBase, .stopped, by simp [deliver, hc], nofun⟩
  · have ⟨hr, hc⟩ := hi.ready hm
    exact settle_inv hc (hr.startStep x) fun h => hr.application ▸ h.2.2.1
  · have ⟨hw, hc⟩ := hi.waiting hm
    exact settle_inv hc (hw.transportDone t) False.elim

theorem start_inv (k : IoKind) (size : Nat) (stream : Stream) (stopRequested : Bool) :
    (start (k.state size) stream stopRequested).Inv (k.state size) := by
  have hbase : Base (k.state size) { state := k.state size, stream } := by
    cases k <;> exact ⟨rfl, rfl, rfl, trivial, fun _ => rfl, fun _ => Nat.zero_le _⟩
  have hsize : (k.state size).size = size := by cases k <;> rfl
  unfold start
  split
  case isTrue => exact ⟨hbase, .stopped, rfl, nofun⟩
  case isFalse =>
    split
    case isTrue hz =>
      cases k
      · exact ⟨hbase, .value 0 0, rfl, nofun⟩
      all_goals
        refine ⟨hbase, .value 0 0, rfl, fun _ _ he _ => ?_⟩
        cases he
        exact ⟨rfl, fun _ _ => ⟨hz.symm, fun hw => absurd rfl hw⟩⟩
    case isFalse hz =>
      have hpos : 0 < size := by omega
      cases k
      · exact ⟨⟨⟨hbase, rfl, .inr (.inr rfl), nofun, nofun⟩, .inl ⟨rfl, nofun⟩⟩, rfl⟩
      all_goals exact ⟨⟨⟨hbase, rfl, .inr (.inr rfl), fun _ _ => hpos, nofun⟩, .inl ⟨rfl, nofun⟩⟩, rfl⟩

-- What holds in every state an operation reaches.
structure Sound (s : IoState) (op : IoOperation) : Prop where
  not_stuck : op.mode ≠ .stuck
  once : op.calls.length = if op.mode = .ended then 1 else 0
  defined : op.mode = .ready →
    (op.io.state.phase = .application ∨ op.io.state.phase = .flushOutput) ∧ op.io.state.afterFlush ∈
      [.finish, .transportRead, op.io.state.applicationAction]
  outstanding : op.mode = .waiting →
    (op.io.state.phase = .transportRead ∨ op.io.state.phase = .transportWrite) ∧
      op.io.state.afterFlush ∈ [.finish, .transportRead, op.io.state.applicationAction]
  writes : s.application = .write → Suffixes s.size 0 op.io.writes ∧
    op.io.state.bytes = acceptedSum s.size op.io.writes ∧ op.io.state.bytes ≤ s.size
  reported : ∀ ec n, .value ec n ∈ op.calls → op.Reported s ec n

-- The action runs a part of a step: all of it up to its first effect, or the part behind the transport.
def Runs (op : IoOperation) : IoAction → Prop
  | .round stopRequested _ => op.mode = .ready ∧ stopRequested = false
  | .transport _           => op.mode = .waiting

-- The answer is one that the operation has to report as an error.
def Fails (op : IoOperation) : IoAction → Prop
  | .round _ x   => op.io.Breaks x
  | .transport t => t.Breaks

-- The answer is one behind which there is nothing left to do.
def Ends (op : IoOperation) : IoAction → Prop
  | .round _ x   => op.io.Ends x
  | .transport t => t.Breaks

theorem Inv.sound (h : op.Inv s) : op.Sound s := by
  have hb := h.base
  have writes : s.application = .write → Suffixes s.size 0 op.io.writes ∧
      op.io.state.bytes = acceptedSum s.size op.io.writes ∧ op.io.state.bytes ≤ s.size :=
    fun hw => ⟨hb.suffixes, hb.bytes hw, hb.le hw⟩
  have hflush : ∀ {io : Io}, io.Running s →
      io.state.afterFlush ∈ [.finish, .transportRead, io.state.applicationAction] := fun hr => by
    simpa using hr.afterFlush
  unfold Inv at h
  split at h
  case h_1 hm =>
    exact ⟨by simp [hm], by simp [hm, h.2], fun _ => ⟨h.1.phase.imp_left And.left, hflush h.1.toRunning⟩,
      by simp [hm], writes, by simp [h.2]⟩
  case h_2 hm =>
    exact ⟨by simp [hm], by simp [hm, h.2], by simp [hm],
      fun _ => ⟨h.1.phase.imp_left And.left, hflush h.1.toRunning⟩, writes, by simp [h.2]⟩
  case h_3 hm =>
    have ⟨_, c, hc, hr⟩ := h
    refine ⟨by simp [hm], by simp [hm, hc], by simp [hm], by simp [hm], writes, fun ec n hv => ?_⟩
    rw [hc, List.mem_singleton] at hv
    exact hr ec n hv.symm
  case h_4 => exact h.elim

-- Both parts of a step have an outcome of one effect.
theorem Inv.effects (h : op.Inv s) (hr : op.Runs a) :
    ∃ closed, Outcome s (op.mode = .ready) closed (op.Fails a) (op.effects a) := by
  cases a
  case round stopRequested x =>
    exact ⟨op.io.Closes x, eq_true hr.1 ▸ (h.ready hr.1).1.startStep x⟩
  case transport t =>
    have hm : op.mode = .waiting := hr
    have hne : (op.mode = .ready) = False := by simp [hm]
    exact ⟨False, hne ▸ (h.waiting hm).1.transportDone t⟩

theorem Runs.step (hr : op.Runs a) : op.step a = some (op.settle (op.effects a)) := by
  cases a
  case round stopRequested x =>
    have ⟨hm, hs⟩ := hr
    simp [IoOperation.step, hm, hs]
  case transport t =>
    have hm : op.mode = .waiting := hr
    simp [IoOperation.step, hm]

theorem Inv.calls (h : op.Inv s) (hr : op.Runs a) : op.calls = [] := by
  cases a
  case round     => exact (h.ready hr.1).2
  case transport => exact (h.waiting hr).2

theorem settle_value {ec : ErrorCode} (hd : r.1.state.done = true)
    (he : r.2 = [.complete ec r.1.state.bytes]) :
    op.settle r =
      { op with io := r.1, mode := .ended, calls := op.calls ++ [.value ec r.1.state.bytes] } := by
  simp only [settle, he, hd, if_true, completeValue]
  split <;> rfl

end IoOperation
end Bnio.Tls
