import Bnio.Tls.ReadWrite

namespace Bnio.Tls.Io

-- A read that has `n` bytes. It gets all of them from one call of `SSL_read`, after which it only
-- flushes.
structure Receiving (n : Nat) (io : Io) : Prop where
  bytes : io.state.bytes = n
  none : io.state.afterFlush ≠ .finish → n = 0
  offered : io.state.transportSize ≤ intMax

-- What comes of a step of a read that has `n` bytes.
inductive Reads (n stored : Nat) (stops errs : Prop) : Io × List Effect → Prop
  | stopped {io : Io} (stop : stops) : Reads n stored stops errs (io, [.stopped])
  | running {io : Io} {e : Effect} (start : ¬stops) (fine : ¬errs) (receiving : io.Receiving (n + stored))
    (done : io.state.done = false) (effect : e ∈ [.complete 0 0, .submitRead, .submitWrite]) :
    Reads n stored stops errs (io, [e])
  | ended {io : Io} {ec : ErrorCode} (start : ¬stops) (bytes : io.state.bytes = n + stored)
    (done : io.state.done = true) (result : ec = 0 ∧ ¬errs ∨ ec ≠ 0 ∧ errs ∧ stored = 0) :
    Reads n stored stops errs (io, [.complete ec io.state.bytes])

variable {io : Io} {n : Nat} {stops errs : Prop}

theorem Receiving.completeError {ec : ErrorCode} (h : io.Receiving n) (hs : ¬stops) (he : errs)
    (hec : ec ≠ 0) : Reads n 0 stops errs (io.completeError ec) :=
  .ended hs h.bytes rfl (.inr ⟨hec, he, rfl⟩)

theorem Receiving.handleSslError {b : SslAnswer} (h : io.Receiving n) (ha : io.state.application = .read)
    (hd : io.state.done = false) (hf : io.state.afterFlush ≠ .finish) (hs : ¬stops)
    (he : errs ↔ b.error = .other) : Reads n 0 stops errs (io.handleSslError b) := by
  unfold Io.handleSslError
  cases hb : b.error
  case wantRead =>
    exact .running hs (by simp [he, hb]) ⟨h.bytes, fun _ => h.none hf, h.offered⟩ hd (by simp)
  case wantWrite =>
    exact .running hs (by simp [he, hb]) ⟨h.bytes, fun _ => h.none hf, h.offered⟩ hd (by simp)
  case zeroReturn =>
    rw [ha]
    exact .ended hs h.bytes rfl (.inl ⟨rfl, by simp [he, hb]⟩)
  case other => exact h.completeError hs (he.mpr hb) (lastSslError_ne_zero _)

theorem Receiving.runApplication {b : SslAnswer} (h : io.Receiving n)
    (ha : io.state.application = .read) (hd : io.state.done = false)
    (hf : io.state.afterFlush ≠ .finish) (hs : ¬stops) (he : errs ↔ b.result ≤ 0 ∧ b.error = .other) :
    Reads n b.result.toNat stops errs (io.runApplication b) := by
  obtain rfl := h.none hf
  simp only [Io.runApplication, ha, handleApplicationResult]
  split
  case isTrue hpos =>
    have hfine : ¬errs := fun h => absurd (he.mp h).1 (by omega)
    refine .running hs hfine ⟨by simp, fun hne => ?_, h.offered⟩ hd (by simp)
    simp [ha] at hne
  case isFalse hnp =>
    have hz : b.result.toNat = 0 := by omega
    have he : errs ↔ b.error = .other := he.trans (and_iff_right (by omega))
    have hr : Receiving 0 { io with stream := io.stream.ssl b } := ⟨h.bytes, fun _ => rfl, h.offered⟩
    exact hz ▸ hr.handleSslError ha hd hf hs he

theorem Receiving.flushOutput {x : StepAnswer} (h : io.Receiving n)
    (hd : io.state.done = false) (hs : ¬stops)
    (hf : io.state.afterFlush = .finish ∨ io.state.afterFlush = .transportRead ∨
      io.state.afterFlush = .applicationRead)
    (he : errs ↔ io.stream.output = [] ∧ io.state.afterFlush = .transportRead ∧ x.space ≤ 0) :
    Reads n 0 stops errs (io.flushOutput x) := by
  unfold Io.flushOutput
  by_cases hz : 0 < io.stream.nread0 x.chunk
  case pos =>
    rw [if_pos hz]
    have hne : ¬errs := fun h => by simp [Stream.nread0, (he.mp h).1] at hz
    exact .running hs hne ⟨h.bytes, h.none, Stream.nread0_le ..⟩ hd (by simp)
  case neg =>
    rw [if_neg hz]
    have ho := Stream.output_of_nread0 hz
    unfold Io.resumeAfterFlush
    obtain hf | hf | hf := hf <;> rw [hf]
    case inl => exact .ended hs h.bytes rfl (.inl ⟨rfl, by simp [he, hf]⟩)
    case inr.inr =>
      exact .running hs (by simp [he, hf]) ⟨h.bytes, fun _ => h.none (by simp [hf]), h.offered⟩ hd
        (by simp)
    case inr.inl =>
      have hn := h.none (by simp [hf])
      dsimp only
      unfold Io.submitTransportRead
      split
      case isTrue hle =>
        have hr : Receiving n { io with state := { io.state with phase := .transportRead } } :=
          ⟨h.bytes, fun _ => hn, h.offered⟩
        exact hr.completeError hs (he.mpr ⟨ho, hf, hle⟩) (lastSslError_ne_zero _)
      case isFalse hlt =>
        exact .running hs (by simp [he, hf, hlt]) ⟨h.bytes, fun _ => hn, x.space_le⟩ hd (by simp)

-- The step can only break at the call of `SSL_read`, or when there is no space for more input.
def ReadBreaks (io : Io) (x : StepAnswer) : Prop :=
  io.state.phase = .application ∧ x.ssl.result ≤ 0 ∧ x.ssl.error = .other ∨
    io.state.phase = .flushOutput ∧ io.stream.output = [] ∧ io.state.afterFlush = .transportRead ∧
      x.space ≤ 0

def readBytes (io : Io) (x : StepAnswer) : Nat :=
  if x.stopRequested = false ∧ io.state.phase = .application then x.ssl.result.toNat else 0

theorem Receiving.startStep {s : IoState} {x : StepAnswer} (h : io.Receiving n) (hr : io.Ready s)
    (ha : io.state.application = .read) :
    Reads n (io.readBytes x) x.stopRequested (x.stopRequested = false ∧ io.ReadBreaks x)
      (io.startStep x) := by
  unfold Io.startStep
  cases hs : x.stopRequested
  case true  => exact .stopped rfl
  case false =>
    unfold Io.runStep
    obtain ⟨hp, hf⟩ | hp := hr.phase
    · rw [hp, readBytes, if_pos ⟨hs, hp⟩]
      exact h.runApplication ha hr.done hf nofun (by simp [ReadBreaks, hp])
    · rw [hp, readBytes, if_neg (by simp [hp])]
      refine h.flushOutput hr.done nofun ?_ (by simp [ReadBreaks, hp])
      simpa [IoState.applicationAction, ha] using hr.afterFlush

theorem Receiving.eq_zero {s : IoState} {x : StepAnswer} (h : io.Receiving n) (hr : io.Ready s)
    (hb : 0 < io.readBytes x) : n = 0 := by
  unfold readBytes at hb
  split at hb
  case isFalse   => cases hb
  case isTrue hp =>
    obtain ⟨_, hf⟩ | hp' := hr.phase
    · exact h.none hf
    · cases hp.2.symm.trans hp'

theorem toInt_of_le {bytes : Nat} (h : bytes ≤ intMax) : toInt bytes = bytes := by
  have hlt : (bytes : Int) % (2 ^ 32 : Nat) = bytes := by
    unfold intMax at h
    omega
  unfold toInt Int.bmod
  unfold intMax at h
  simp only [hlt]
  split <;> omega

theorem Receiving.transportDone {t : TransportAnswer} (h : io.Receiving n)
    (hd : io.state.done = false)
    (hp : io.state.phase = .transportRead ∧ io.state.afterFlush = .transportRead ∨
      io.state.phase = .transportWrite)
    (hw : ∀ ec bytes, t.result = .value ec bytes → bytes ≤ io.state.transportSize) :
    Reads n 0 (t.result = .stopped) t.Breaks (io.transportDone t) := by
  have hstate : (io.transfer t).state = io.state := by
    unfold Io.transfer
    split <;> rfl
  have hr : (io.transfer t).Receiving n := by
    refine ⟨?_, ?_, ?_⟩ <;> rw [hstate]
    exacts [h.bytes, h.none, h.offered]
  unfold Io.transportDone
  cases ht : t.result
  case stopped => exact .stopped rfl
  case value ec bytes =>
    have hle := hw ec bytes ht
    have hgo : ¬Signal.value ec bytes = .stopped := by simp
    have hbreaks : t.Breaks ↔ ec ≠ 0 ∨ bytes = 0 := by
      refine ⟨?_, fun hb => ⟨ec, bytes, ht, hb⟩⟩
      rintro ⟨_, _, he, hb⟩
      cases ht.symm.trans he
      exact hb
    simp only [Io.handleTransportComplete]
    split
    case isTrue hec => exact hr.completeError hgo (hbreaks.mpr (.inl hec)) hec
    case isFalse hec =>
      split
      case isTrue hz => exact hr.completeError hgo (hbreaks.mpr (.inr hz)) (by split <;> decide)
      case isFalse hz =>
        have hfine : ¬t.Breaks := fun hb => (hbreaks.mp hb).elim hec hz
        have hoff := h.offered
        have hcount : min (sslBoundedIntSize bytes) io.state.transportSize = bytes := by
          rw [Stream.min_sslBoundedIntSize bytes hoff]
          omega
        have hint : toInt bytes = bytes := toInt_of_le (by omega)
        rw [hstate]
        obtain ⟨hp, hf⟩ | hp := hp
        · simp only [hp, Io.handleTransportReadComplete, Stream.nwrite, hstate, hcount, hint, ne_eq,
            not_true_eq_false, if_false]
          exact .running hgo hfine ⟨h.bytes, h.none, hoff⟩ hd (by simp)
        · simp only [hp, Io.handleTransportWriteComplete, Stream.nread, hstate, hcount, hint, ne_eq,
            not_true_eq_false, if_false]
          exact .running hgo hfine ⟨h.bytes, h.none, hoff⟩ hd (by simp)

end Bnio.Tls.Io
