import Bnio.Lib.Transition

namespace Bnio.Tls

abbrev Byte := UInt8

-- The value of a `std::error_code`; the empty one is 0.
abbrev ErrorCode := Int

def brokenPipe : ErrorCode := 32
def protocolError : ErrorCode := 71
def connectionReset : ErrorCode := 104

def intMax : Nat := 2 ^ 31 - 1

def sslBoundedIntSize (size : Nat) : Nat :=
  if size > intMax then intMax else size

-- `static_cast<int>` of a size.
def toInt (size : Nat) : Int :=
  Int.bmod size (2 ^ 32)

-- How a sender completes. The operations without a byte count leave it at 0.
inductive Signal
  | value (ec : ErrorCode) (bytes : Nat)
  | stopped
  deriving DecidableEq

inductive ResumeAction
  | handshake | applicationRead | applicationWrite | shutdown | transportRead | finish
  deriving DecidableEq

-- What `SSL_get_error` says; all the values that have no branch of their own are `other`.
inductive SslError
  | wantRead | wantWrite | zeroReturn | other
  deriving DecidableEq

-- One call into OpenSSL: its result, the error behind it, the first entry of the error queue (0 when
-- it is empty), how much it takes from the input BIO and what it appends to the output BIO.
structure SslAnswer where
  result : Int
  error : SslError := .other
  errorCode : UInt32 := 0
  taken : Nat := 0
  output : List Byte := []

-- `make_no_ssl_error` for an empty queue, else `make_openssl_error`.
def lastSslError (errorCode : UInt32) : ErrorCode :=
  if errorCode = 0 then -1 else errorCode.toBitVec.toInt

theorem lastSslError_ne_zero (errorCode : UInt32) : lastSslError errorCode ≠ 0 := by
  unfold lastSslError
  split
  case isTrue    => decide
  case isFalse h =>
    refine fun he => h (UInt32.toBitVec_inj.mp ?_)
    exact BitVec.toInt_inj.mp he

-- How a transport operation completes, the bytes it has stored when it is a read, and the error queue
-- behind the BIO call that follows.
structure TransportAnswer where
  result : Signal
  data : List Byte := []
  errorCode : UInt32 := 0

-- The two BIOs of a stream, and what has passed through them: everything OpenSSL has put in the output
-- BIO, everything the transport has accepted and received, everything committed to the input BIO.
structure Stream where
  output : List Byte := []
  input : List Byte := []
  produced : List Byte := []
  accepted : List Byte := []
  received : List Byte := []
  committed : List Byte := []

namespace Stream

variable (s : Stream)

def ssl (a : SslAnswer) : Stream :=
  { s with
    output := s.output ++ a.output
    produced := s.produced ++ a.output
    input := s.input.drop a.taken }

-- `BIO_nread0`: the size of the contiguous part in front of the output BIO, an `int`. A part has at
-- least one byte, and none is left only of an empty BIO.
def nread0 (chunk : Nat) : Nat :=
  min (min (chunk + 1) intMax) s.output.length

-- The transport takes the first bytes of those it has been offered.
def send (offered bytes : Nat) : Stream :=
  { s with accepted := s.accepted ++ (s.output.take offered).take bytes }

-- `BIO_nread` after an offer: what it returns, and the BIO without these bytes.
def nread (offered bytes : Nat) : Stream × Nat :=
  let consumed := min (sslBoundedIntSize bytes) offered
  ({ s with output := s.output.drop consumed }, consumed)

-- The transport stores the first bytes of `data` in the space it has been offered.
def receive (offered bytes : Nat) (data : List Byte) : Stream :=
  { s with received := s.received ++ (data.take offered).take bytes }

-- `BIO_nwrite` after such an offer.
def nwrite (offered bytes : Nat) (data : List Byte) : Stream × Nat :=
  let committed := min (sslBoundedIntSize bytes) offered
  ({ s with
      input := s.input ++ data.take committed
      committed := s.committed ++ data.take committed },
    committed)

@[simp]
theorem send_zero (offered : Nat) : s.send offered 0 = s := by
  simp [send]

@[simp]
theorem receive_zero (offered : Nat) (data : List Byte) : s.receive offered 0 data = s := by
  simp [receive]

theorem nread0_le (chunk : Nat) : s.nread0 chunk ≤ intMax :=
  Nat.le_trans (Nat.min_le_left ..) (Nat.min_le_right ..)

theorem output_of_nread0 {s : Stream} {chunk : Nat} (h : ¬0 < s.nread0 chunk) : s.output = [] := by
  refine List.length_eq_zero_iff.mp ?_
  simp only [nread0, intMax] at h
  omega

-- Nothing is lost, repeated or reordered: the transport has accepted what OpenSSL has produced up to
-- the output BIO, and the input BIO is what OpenSSL has not yet taken of all that has been received.
structure Intact (s : Stream) : Prop where
  sent : s.accepted ++ s.output = s.produced
  received : s.received = s.committed
  taken : ∃ taken, taken ++ s.input = s.committed

variable {s : Stream} {offered : Nat}

theorem Intact.empty : Intact {} :=
  ⟨rfl, rfl, [], rfl⟩

theorem Intact.ssl (h : s.Intact) (a : SslAnswer) : (s.ssl a).Intact where
  sent     := by simp [Stream.ssl, ← h.sent]
  received := h.received
  taken    := by
    have ⟨taken, ht⟩ := h.taken
    exact ⟨taken ++ s.input.take a.taken, by simp [Stream.ssl, ht]⟩

theorem min_sslBoundedIntSize (bytes : Nat) (ho : offered ≤ intMax) :
    min (sslBoundedIntSize bytes) offered = min bytes offered := by
  unfold sslBoundedIntSize
  split <;> omega

theorem Intact.nread (h : s.Intact) (ho : offered ≤ intMax) (bytes : Nat) :
    ((s.send offered bytes).nread offered bytes).1.Intact where
  sent     := by
    simp only [Stream.nread, send, min_sslBoundedIntSize bytes ho, List.take_take]
    rw [List.append_assoc, List.take_append_drop, h.sent]
  received := h.received
  taken    := h.taken

theorem Intact.nwrite (h : s.Intact) (ho : offered ≤ intMax) (bytes : Nat) (data : List Byte) :
    ((s.receive offered bytes data).nwrite offered bytes data).1.Intact where
  sent     := h.sent
  received := by
    simp only [Stream.nwrite, receive, min_sslBoundedIntSize bytes ho, List.take_take, h.received]
  taken    := by
    have ⟨taken, ht⟩ := h.taken
    exact ⟨taken, by simp [Stream.nwrite, receive, ← ht]⟩

end Stream
end Bnio.Tls
