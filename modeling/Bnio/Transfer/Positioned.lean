import Bnio.Transfer.WriteAll

namespace Bnio.Transfer

inductive Backend
  | uring | kqueue
  deriving DecidableEq

-- Linux and BSD number these errors differently.
def Backend.eagain : Backend → Int
  | uring => 11 | kqueue => 35

def Backend.eoverflow : Backend → Int
  | uring => 75 | kqueue => 84

def Backend.ecanceled : Backend → Int
  | uring => 125 | kqueue => 89

def efault : Int := 14

-- `should_defer_nowait_error`: ENOSYS, EOPNOTSUPP, EINVAL and ESPIPE.
def shouldDeferNowaitError (error : Int) : Bool :=
  error ∈ [38, 95, 22, 29]

-- `valid_random_access_offset` on Linux, `valid_file_offset` on BSD.
def validOffset (offset : Nat) : Bool :=
  offset ≤ 2 ^ 63 - 1

def boundedIoSize (size : Nat) : Nat :=
  min size (2 ^ 31 - 1)

-- What becomes of an operation that has been published for the native loop. On the way its SQE goes to
-- the kernel again for every -EAGAIN.
inductive Fate
  | rejected
  | completed (rearms : Nat) (result : Int)
  | failed (submissions errno : Nat)
  | aborted (submissions : Nat)

-- What the outside answers during one native operation: the stop token when it starts and when it is
-- executed, the result of the immediate system call, which BSD repeats as long as it is interrupted.
structure Answers where
  stopRequested : Bool := false
  probe : Int
  interrupts : Nat := 0
  fate : Fate
  stopRequestedLater : Bool := false

-- A positioned request, as the native layer sees it.
structure Positioned where
  data : Nat
  size : Nat
  offset : Nat

-- What an operation reports and the offsets of the requests that have reached the kernel.
abbrev Report := Signal × List Nat

-- `execute` for a result, which may be a negative errno.
def deliverResult (result : Int) : Signal :=
  if result < 0 then .value (-result) 0 else .value 0 result.toNat

-- `execute` for an operation that has been stopped: the token decides.
def deliverStopped (b : Backend) (stopRequested : Bool) : Signal :=
  if stopRequested then .stopped else .value b.ecanceled 0

namespace Positioned

variable (q : Positioned) (a : Answers)

def tryImmediate : Int × List Nat :=
  if !validOffset q.offset then (-Backend.uring.eoverflow, [])
  else if 0 ≤ a.probe then (a.probe, [q.offset])
  else if -a.probe = Backend.uring.eagain ∨ shouldDeferNowaitError (-a.probe) then
    (-Backend.uring.eagain, [q.offset])
  else (a.probe, [q.offset])

-- Behind `publish_io`: `prepare` puts the offset in the SQE as it is.
def publishIo : Report :=
  match a.fate with
  | .rejected                => (deliverStopped .uring a.stopRequestedLater, [])
  | .completed rearms result => (deliverResult result, List.replicate (rearms + 1) q.offset)
  | .failed submissions e    => (.value e 0, List.replicate submissions q.offset)
  | .aborted submissions     =>
    (deliverStopped .uring a.stopRequestedLater, List.replicate submissions q.offset)

def startUring (control : Bool) : Report :=
  if a.stopRequested then (deliverStopped .uring a.stopRequestedLater, [])
  else if !control then q.publishIo a
  else
    let (result, sent) := q.tryImmediate a
    if result = -Backend.uring.eagain then
      let (signal, more) := q.publishIo a
      (signal, sent ++ more)
    else (deliverResult result, sent)

def performIo : Int × List Nat :=
  if !validOffset q.offset then (-Backend.kqueue.eoverflow, [])
  else (a.probe, List.replicate (a.interrupts + 1) q.offset)

def startIo : Int × List Nat :=
  if 0 < q.size ∧ q.data = 0 then (-efault, []) else q.performIo a

-- A positioned request never waits for readiness.
def startKqueue (control : Bool) : Report :=
  if a.stopRequested then (deliverStopped .kqueue a.stopRequestedLater, [])
  else
    let (result, sent) := if control then q.startIo a else q.performIo a
    (deliverResult result, sent)

def start (b : Backend) (control : Bool) : Report :=
  match b with
  | .uring  => q.startUring a control
  | .kqueue => q.startKqueue a control

-- The operation gets as far as its native call: it is not stopped before, and its buffer is not
-- refused.
def Attempted (b : Backend) (control : Bool) : Prop :=
  a.stopRequested = false ∧ ¬(b = .kqueue ∧ control = true ∧ 0 < q.size ∧ q.data = 0)

-- No offset out of range reaches the kernel; it is refused with EOVERFLOW instead.
structure InRange (b : Backend) (control : Bool) : Prop where
  sent : ∀ o ∈ (q.start a b control).2, o ≤ 2 ^ 63 - 1
  refused : q.Attempted a b control → 2 ^ 63 - 1 < q.offset →
    (q.start a b control).1 = .value b.eoverflow 0

section Start

variable {q : Positioned} {a : Answers} {b : Backend} {control : Bool}

theorem mem_publishIo {o : Nat} (h : o ∈ (q.publishIo a).2) : o = q.offset := by
  unfold publishIo at h
  split at h <;> simp_all

theorem mem_tryImmediate {o : Nat} (h : o ∈ (q.tryImmediate a).2) : o = q.offset := by
  unfold tryImmediate at h
  split at h <;> [skip; split at h <;> [skip; split at h]]
  all_goals simp_all

theorem mem_startIo {o : Nat} (h : o ∈ (q.startIo a).2 ∨ o ∈ (q.performIo a).2) : o = q.offset := by
  have hp : o ∈ (q.performIo a).2 := by
    refine h.elim (fun h => ?_) id
    unfold startIo at h
    split at h
    · simp at h
    · exact h
  unfold performIo at hp
  split at hp <;> simp_all

theorem mem_sent {o : Nat} (h : o ∈ (q.start a b control).2) : o = q.offset := by
  cases b
  case uring =>
    simp only [start, startUring] at h
    split at h <;> [skip; split at h <;> [skip; split at h]]
    · simp at h
    · exact mem_publishIo h
    · exact (List.mem_append.mp h).elim mem_tryImmediate mem_publishIo
    · exact mem_tryImmediate h
  case kqueue =>
    simp only [start, startKqueue] at h
    split at h
    · simp at h
    · cases control
      · exact mem_startIo (.inr h)
      · exact mem_startIo (.inl h)

theorem inRange_of_le (h : q.offset ≤ 2 ^ 63 - 1) : q.InRange a b control where
  sent _ ho    := mem_sent ho ▸ h
  refused _ h' := absurd h' (Nat.not_lt.mpr h)

-- Wherever the offset is checked it is checked before anything else happens to it.
theorem inRange_of_checked (h : b = .kqueue ∨ control = true) : q.InRange a b control := by
  by_cases hv : q.offset ≤ 2 ^ 63 - 1
  case pos => exact inRange_of_le hv
  case neg =>
    have hinv : validOffset q.offset = false := by simpa [validOffset] using hv
    by_cases hs : a.stopRequested
    case pos =>
      refine ⟨fun o ho => ?_, fun ha => absurd hs (by simp [ha.1])⟩
      cases b <;> simp [start, startUring, startKqueue, hs] at ho
    case neg =>
      cases b
      case uring =>
        obtain rfl : control = true := h.resolve_left (by simp)
        have he : q.start a .uring true = (.value Backend.uring.eoverflow 0, []) := by
          simp [start, startUring, tryImmediate, hs, hinv, deliverResult, Backend.eoverflow,
            Backend.eagain]
        exact ⟨by simp [he], fun _ _ => by simp [he]⟩
      case kqueue =>
        have hp : q.performIo a = (-Backend.kqueue.eoverflow, []) := by simp [performIo, hinv]
        have hsent : (q.start a .kqueue control).2 = [] := by
          cases control <;> simp [start, startKqueue, startIo, hs, hp]
          split <;> rfl
        refine ⟨by simp [hsent], fun ha _ => ?_⟩
        have hio : control = true → q.startIo a = q.performIo a := fun hc =>
          if_neg fun hn => ha.2 ⟨rfl, hc, hn⟩
        cases control
        · simp [start, startKqueue, hs, hp, deliverResult, Backend.eoverflow]
        · simp [start, startKqueue, hs, hio rfl, hp, deliverResult, Backend.eoverflow]

section Bytes

variable {ec limit : Int} {n : Nat} (h0 : 0 ≤ limit)
include h0

theorem deliverResult_le {result : Int} (hr : result ≤ limit) (h : deliverResult result = .value ec n) :
    (n : Int) ≤ limit := by
  unfold deliverResult at h
  split at h <;> cases h
  · exact h0
  · omega

theorem deliverStopped_le {stop : Bool} (h : deliverStopped b stop = .value ec n) :
    (n : Int) ≤ limit := by
  unfold deliverStopped at h
  split at h <;> cases h
  exact h0

theorem publishIo_le (hf : ∀ rearms result, a.fate = .completed rearms result → result ≤ limit)
    (h : (q.publishIo a).1 = .value ec n) : (n : Int) ≤ limit := by
  unfold publishIo at h
  split at h
  case h_1 => exact deliverStopped_le h0 h
  case h_2 hfate => exact deliverResult_le h0 (hf _ _ hfate) h
  case h_3 =>
    cases h
    exact h0
  case h_4 => exact deliverStopped_le h0 h

theorem tryImmediate_le (hp : a.probe ≤ limit) : (q.tryImmediate a).1 ≤ limit := by
  unfold tryImmediate
  split <;> [skip; split <;> [skip; split]]
  all_goals simp only [Backend.eoverflow, Backend.eagain]
  all_goals omega

theorem startIo_le (hp : a.probe ≤ limit) : (q.startIo a).1 ≤ limit ∧ (q.performIo a).1 ≤ limit := by
  have hio : (q.performIo a).1 ≤ limit := by
    unfold performIo
    split
    · exact Int.le_trans (by decide) h0
    · exact hp
  refine ⟨?_, hio⟩
  unfold startIo
  split
  · exact Int.le_trans (by decide) h0
  · exact hio

theorem start_le (hp : a.probe ≤ limit)
    (hf : ∀ rearms result, a.fate = .completed rearms result → result ≤ limit)
    (h : (q.start a b control).1 = .value ec n) : (n : Int) ≤ limit := by
  cases b
  case uring =>
    simp only [start, startUring] at h
    split at h <;> [skip; split at h <;> [skip; split at h]]
    · exact deliverStopped_le h0 h
    · exact publishIo_le h0 hf h
    · exact publishIo_le h0 hf h
    · exact deliverResult_le h0 (tryImmediate_le h0 hp) h
  case kqueue =>
    simp only [start, startKqueue] at h
    split at h
    · exact deliverStopped_le h0 h
    · cases control
      · exact deliverResult_le h0 (startIo_le h0 hp).2 h
      · exact deliverResult_le h0 (startIo_le h0 hp).1 h

end Bytes

-- One byte is transferred, at once or by the native loop.
def oneByte : Answers :=
  { probe := 1, fate := .completed 0 1 }

theorem start_oneByte (h : q.offset ≤ 2 ^ 63 - 1) : (q.start oneByte .uring control).1 = .value 0 1 := by
  have hv : validOffset q.offset = true := by simpa [validOffset] using h
  cases control <;>
    simp [start, startUring, tryImmediate, publishIo, oneByte, hv, deliverResult, Backend.eagain]

theorem start_refused (h : 2 ^ 63 - 1 < q.offset) :
    (q.start a .uring true).1 = .stopped ∨ ∃ ec ≠ 0, (q.start a .uring true).1 = .value ec 0 := by
  by_cases hs : a.stopRequested
  case pos =>
    cases hl : a.stopRequestedLater
    · exact .inr ⟨Backend.uring.ecanceled, by decide, by simp [start, startUring, hs, hl, deliverStopped]⟩
    · exact .inl <| by simp [start, startUring, hs, hl, deliverStopped]
  case neg =>
    have hq := inRange_of_checked (q := q) (a := a) (b := .uring) (.inr rfl)
    exact .inr ⟨_, by decide, hq.refused ⟨by simpa using hs, by simp⟩ h⟩

theorem inRange_iff :
    (∀ a, q.InRange a b control) ↔ q.offset ≤ 2 ^ 63 - 1 ∨ b = .kqueue ∨ control = true := by
  refine ⟨fun h => ?_, fun h _ => h.elim inRange_of_le inRange_of_checked⟩
  cases b
  case kqueue => exact .inr (.inl rfl)
  case uring =>
    cases control
    case true  => exact .inr (.inr rfl)
    case false => exact .inl <| (h oneByte).sent _ <| by simp [start, startUring, publishIo, oneByte]

end Start

end Positioned

-- Only a positioned target has an offset.
def Target.offset : Target → Nat
  | randomAccessFile _ offset => offset
  | _                         => 0

def Request.positioned (q : Request) : Positioned where
  data := q.data
  size := q.size
  offset := q.target.offset

-- The positioned read-all and write-all.
def randomAccessAllState : Direction → Int → Buffer → UInt64 → AllState
  | .read,  file, buffer, offset => randomAccessReadAllState file buffer offset.toNat
  | .write, file, buffer, offset => randomAccessWriteAllState file buffer offset.toNat

namespace Operation

-- The stop token as `repeat_until` finds it, and the answers to the native operation of the step.
abbrev StepAnswers := Bool × Answers

variable (b : Backend) (enableImmediateIo : Bool)

-- What `adaptive_eager_control` says.
def control (op : Operation) : Bool :=
  enableImmediateIo && op.state.eager

def nativeStep (op : Operation) (a : StepAnswers) : Option Operation :=
  op.step {
    stopRequested := a.1
    result := (op.state.makeSender.positioned.start a.2 b (op.control enableImmediateIo)).1 }

-- No native call transfers more than it has been asked for.
def Bounded (op : Operation) (a : StepAnswers) : Prop :=
  let limit : Int := boundedIoSize op.state.makeSender.size
  a.2.probe ≤ limit ∧ ∀ rearms result, a.2.fate = .completed rearms result → result ≤ limit

def StepInRange (op : Operation) (a : StepAnswers) : Prop :=
  op.active → a.1 = false →
    op.state.makeSender.positioned.InRange a.2 b (op.control enableImmediateIo)

variable {b enableImmediateIo} {s : AllState} {op op' : Operation} {a : StepAnswers}
variable {as : List StepAnswers} {stop : Bool} {d : Direction} {file : Int} {buffer : Buffer}
  {offset : UInt64}

theorem Bounded.within (h : op.Bounded a) : op.Within {
    stopRequested := stop
    result := (op.state.makeSender.positioned.start a.2 b (op.control enableImmediateIo)).1 } := by
  intro ec n he
  have := Positioned.start_le (Int.natCast_nonneg _) h.1 h.2 he
  simp only [boundedIoSize] at this
  omega

theorem Inv.nativeStep (hi : op.Inv s) (hb : op.Bounded a)
    (h : op.nativeStep b enableImmediateIo a = some op') : op'.Inv s :=
  hi.step hb.within h

theorem randomAccess_initial (d : Direction) (file : Int) (buffer : Buffer) (offset : UInt64) :
    (randomAccessAllState d file buffer offset).Initial := by
  cases d
  · exact .randomAccessRead
  · exact .randomAccessWrite

theorem randomAccess_buffer : (randomAccessAllState d file buffer offset).buffer = buffer := by
  cases d <;> rfl

theorem Inv.offset_eq (hi : op.Inv (randomAccessAllState d file buffer offset)) :
    op.state.makeSender.positioned.offset = wrap (offset.toNat + op.state.transferred) := by
  rw [hi.makeSender]
  cases d <;> rfl

-- Nothing of the file beyond the limit is asked for.
theorem inRange_of_fits (h : offset.toNat + buffer.size ≤ 2 ^ 63)
    (hi : op.Inv (randomAccessAllState d file buffer offset)) : op.StepInRange b enableImmediateIo a :=
  fun ha _ => Positioned.inRange_of_le <| by
    have hlt := hi.lt ha
    rw [randomAccess_buffer] at hlt
    rw [hi.offset_eq, wrap]
    omega

theorem step_inactive {r : Round} (h : op.step r = some op')
    (hr : r.stopRequested = true ∨ r.result = .stopped ∨ ∃ ec ≠ 0, r.result = .value ec 0) :
    op'.active = false := by
  unfold step at h
  split at h
  case isTrue => cases h
  case isFalse =>
    split at h
    case isTrue =>
      cases h
      rfl
    case isFalse hn =>
      obtain hs | ⟨ec, hec, hs⟩ := hr.resolve_left hn
      · rw [hs] at h
        cases h
        rfl
      · rw [hs] at h
        simp only [AllState.writeAllStepComplete, hec, ne_eq, not_false_eq_true, if_true] at h
        cases h
        rfl

theorem active_of_step {r : Round} (h : op.step r = some op') : op.active = true := by
  unfold step at h
  split at h
  · cases h
  · simp_all

theorem randomAccess_request : (randomAccessAllState d file buffer offset).makeSender.positioned.offset =
    offset.toNat := by
  have := offset.toNat_lt
  cases d <;> exact Nat.mod_eq_of_lt this

-- The first step is the only one that probes, and the probe refuses the offset.
theorem inRange_of_eager (hv : 2 ^ 63 ≤ offset.toNat)
    (h : System.Along (nativeStep .uring true) Bounded
      (start (randomAccessAllState d file buffer offset) stop) as) :
    System.Along (nativeStep .uring true) (StepInRange .uring true)
      (start (randomAccessAllState d file buffer offset) stop) as := by
  have heager : (randomAccessAllState d file buffer offset).eager = true := by cases d <;> rfl
  refine h.imp (I := fun op => op.active → op.state = randomAccessAllState d file buffer offset)
    (fun {op a op'} hi _ h ha => ?_) (fun {op a} hi _ ha _ => ?_) fun _ => ?_
  · have hs := hi (active_of_step h)
    have hc : op.control true = true := by simp [control, hs, heager]
    unfold nativeStep at h
    rw [hc, hs] at h
    have hin := step_inactive h <| .inr <| Positioned.start_refused <| by
      rw [randomAccess_request]
      omega
    simp [hin] at ha
  · exact Positioned.inRange_of_checked <| .inr <| by simp [control, hi ha, heager]
  · unfold start
    split <;> [rfl; split <;> rfl]

section Reach

-- After `k` steps of one byte each.
def afterBytes (s : AllState) (k : Nat) : Operation where
  state := { s with transferred := k, eager := k = 0 }

theorem start_afterBytes (hs : buffer.size ≠ 0) :
    start (randomAccessAllState d file buffer offset) false =
      afterBytes (randomAccessAllState d file buffer offset) 0 := by
  cases d <;> simp [start, randomAccessAllState, randomAccessReadAllState, randomAccessWriteAllState, hs,
    afterBytes]

theorem afterBytes_inv {k : Nat} (hk : k < buffer.size) :
    (afterBytes (randomAccessAllState d file buffer offset) k).Inv
      (randomAccessAllState d file buffer offset) := by
  cases d <;> exact ⟨rfl, rfl, rfl, rfl, Nat.le_of_lt hk, fun _ => hk, fun _ => ⟨rfl, rfl⟩, nofun⟩

theorem nativeStep_oneByte {k : Nat} (hk : k + 1 < buffer.size) (ho : offset.toNat + k < 2 ^ 63) :
    nativeStep .uring enableImmediateIo (afterBytes (randomAccessAllState d file buffer offset) k)
      (false, Positioned.oneByte) =
      some (afterBytes (randomAccessAllState d file buffer offset) (k + 1)) := by
  have hi : (afterBytes (randomAccessAllState d file buffer offset) k).Inv _ :=
    afterBytes_inv (Nat.lt_of_succ_lt hk)
  have hoff :
      (afterBytes (randomAccessAllState d file buffer offset) k).state.makeSender.positioned.offset ≤
        2 ^ 63 - 1 := by
    rw [hi.offset_eq]
    simp only [afterBytes, wrap]
    omega
  have hrem : decide (1 = (afterBytes (randomAccessAllState d file buffer offset) k).state.remaining) =
      false := by
    refine decide_eq_false ?_
    rw [hi.remaining, randomAccess_buffer]
    simp only [afterBytes]
    omega
  have hwrap : wrap (k + 1) = k + 1 := Nat.mod_eq_of_lt (by have := buffer.size_lt; omega)
  have hfull : ¬buffer.size ≤ k + 1 := by omega
  rw [nativeStep, Positioned.start_oneByte hoff]
  simp only [step, hrem]
  cases d <;> simp [afterBytes, AllState.writeAllStepComplete, AllState.advance, hwrap, hfull,
    randomAccessAllState, randomAccessReadAllState, randomAccessWriteAllState]

theorem oneByte_bounded {k : Nat} (hk : k < buffer.size) :
    (afterBytes (randomAccessAllState d file buffer offset) k).Bounded (false, Positioned.oneByte) := by
  have hi : (afterBytes (randomAccessAllState d file buffer offset) k).Inv _ := afterBytes_inv hk
  have hle : (1 : Int) ≤ boundedIoSize
      (afterBytes (randomAccessAllState d file buffer offset) k).state.makeSender.size := by
    rw [hi.makeSender]
    simp only [AllState.requestFrom, randomAccess_buffer, afterBytes, boundedIoSize]
    omega
  exact ⟨hle, fun _ _ h => by cases h; exact hle⟩

-- One byte after the other, every position before the limit is reached.
theorem reach_afterBytes (enableImmediateIo : Bool) (d : Direction) (file : Int) {k m : Nat}
    (hk : k + m < buffer.size) (ho : offset.toNat + (k + m) ≤ 2 ^ 63) :
    System.run (nativeStep .uring enableImmediateIo)
        (afterBytes (randomAccessAllState d file buffer offset) k)
        (List.replicate m (false, Positioned.oneByte)) =
      some (afterBytes (randomAccessAllState d file buffer offset) (k + m)) ∧
    System.Along (nativeStep .uring enableImmediateIo) Bounded
      (afterBytes (randomAccessAllState d file buffer offset) k)
      (List.replicate m (false, Positioned.oneByte) ++ [(false, Positioned.oneByte)]) := by
  induction m generalizing k
  case zero => exact ⟨rfl, oneByte_bounded hk, fun _ _ => trivial⟩
  case succ m hi =>
    have hs : nativeStep .uring enableImmediateIo
        (afterBytes (randomAccessAllState d file buffer offset) k) (false, Positioned.oneByte) = _ :=
      nativeStep_oneByte (by omega) (by omega)
    have ⟨hr, hb⟩ := hi (k := k + 1) (by omega) (by omega)
    have he : k + 1 + m = k + (m + 1) := by omega
    refine ⟨?_, oneByte_bounded (by omega), fun op h => ?_⟩
    · rw [List.replicate_succ, System.run_cons, hs, Option.bind_some, hr, he]
    · cases hs.symm.trans h
      exact hb

-- Where the next step does not probe, nothing keeps its offset from the kernel.
theorem not_inRange_afterBytes {k : Nat} (hk : k < buffer.size)
    (hc : (afterBytes (randomAccessAllState d file buffer offset) k).control enableImmediateIo = false)
    (ho : 2 ^ 63 ≤ wrap (offset.toNat + k)) :
    ¬StepInRange .uring enableImmediateIo (afterBytes (randomAccessAllState d file buffer offset) k)
      (false, Positioned.oneByte) := fun h => by
  have hi : (afterBytes (randomAccessAllState d file buffer offset) k).Inv _ := afterBytes_inv hk
  have hr := h rfl rfl
  rw [hc] at hr
  have hle := hr.sent _ (List.mem_replicate.mpr ⟨Nat.succ_ne_zero 0, rfl⟩)
  rw [hi.offset_eq] at hle
  exact absurd hle (Nat.not_le.mpr (Nat.lt_of_lt_of_le (by decide) ho))

end Reach

theorem composed_inRange_iff :
    (∀ stop as, System.Along (nativeStep b enableImmediateIo) Bounded
        (start (randomAccessAllState d file buffer offset) stop) as →
      System.Along (nativeStep b enableImmediateIo) (StepInRange b enableImmediateIo)
        (start (randomAccessAllState d file buffer offset) stop) as) ↔
      b = .kqueue ∨ buffer.size = 0 ∨ offset.toNat + buffer.size ≤ 2 ^ 63 ∨
        enableImmediateIo = true ∧ 2 ^ 63 ≤ offset.toNat := by
  constructor
  · intro h
    cases b
    case kqueue => exact .inl rfl
    case uring =>
      by_contra hn
      simp only [reduceCtorEq, false_or, not_or, not_and, Nat.not_le] at hn
      obtain ⟨hs, hfit, hctl⟩ := hn
      have h := h false
      rw [start_afterBytes hs] at h
      by_cases hv : 2 ^ 63 ≤ offset.toNat
      case pos =>
        have hlt := offset.toNat_lt
        have hctl : enableImmediateIo = false := by
          cases enableImmediateIo
          · rfl
          · exact absurd hv (Nat.not_le.mpr (hctl rfl))
        have hin := (h [(false, Positioned.oneByte)] ⟨oneByte_bounded (Nat.pos_of_ne_zero hs),
          fun _ _ => trivial⟩).left
        refine not_inRange_afterBytes (Nat.pos_of_ne_zero hs) (by simp [control, hctl]) ?_ hin
        simp only [wrap]
        omega
      case neg =>
        -- The first position out of range, which the steps before have reached with short transfers.
        have hk : 0 + (2 ^ 63 - offset.toNat) < buffer.size := by omega
        have ho : offset.toNat + (0 + (2 ^ 63 - offset.toNat)) ≤ 2 ^ 63 := by omega
        obtain ⟨hr, hb⟩ := reach_afterBytes enableImmediateIo d file hk ho
        have hin := ((System.along_append hr).mp (h _ hb)).2.left
        refine not_inRange_afterBytes hk ?_ ?_ hin
        · simp only [control, afterBytes, Nat.zero_add]
          rw [decide_eq_false (by omega : ¬2 ^ 63 - offset.toNat = 0), Bool.and_false]
        · simp only [wrap]
          omega
  · rintro (rfl | hs | hfit | ⟨rfl, hv⟩) stop as hb
    · exact hb.imp (I := fun _ => True) (fun _ _ _ => trivial)
        (fun _ _ _ _ => Positioned.inRange_of_checked (.inl rfl)) trivial
    · have hstart : (start (randomAccessAllState d file buffer offset) stop).active = false := by
        cases d <;> cases stop <;> simp [start, randomAccessAllState, randomAccessReadAllState,
          randomAccessWriteAllState, hs, complete]
      refine hb.imp (I := fun op => op.active = false) (fun hi _ h => ?_) (fun hi _ ha => ?_) hstart
      · exact absurd (active_of_step h) (by simp [hi])
      · exact absurd ha (by simp [hi])
    · exact hb.imp (fun hi hb h => hi.nativeStep hb h) (fun hi _ => inRange_of_fits hfit hi)
        (start_inv (randomAccess_initial ..) _)
    · cases b
      · exact inRange_of_eager hv hb
      · exact hb.imp (I := fun _ => True) (fun _ _ _ => trivial)
          (fun _ _ _ _ => Positioned.inRange_of_checked (.inl rfl)) trivial

end Operation

-- The request of `async_read_some` and `async_write_some`.
def oneShot (buffer : Buffer) (offset : UInt64) : Positioned where
  data := buffer.data
  size := buffer.size
  offset := offset.toNat

theorem positioned_inRange_iff (b : Backend) (enableImmediateIo : Bool) (d : Direction) (file : Int)
    (buffer : Buffer) (offset : UInt64) :
    ((∀ a, (oneShot buffer offset).InRange a b enableImmediateIo) ↔
      b = .kqueue ∨ offset.toNat < 2 ^ 63 ∨ enableImmediateIo = true) ∧
    ((∀ stop as, System.Along (Operation.nativeStep b enableImmediateIo) Operation.Bounded
        (.start (randomAccessAllState d file buffer offset) stop) as →
      System.Along (Operation.nativeStep b enableImmediateIo) (Operation.StepInRange b enableImmediateIo)
        (.start (randomAccessAllState d file buffer offset) stop) as) ↔
      b = .kqueue ∨ buffer.size = 0 ∨ offset.toNat + buffer.size ≤ 2 ^ 63 ∨
        enableImmediateIo = true ∧ 2 ^ 63 ≤ offset.toNat) := by
  refine ⟨?_, Operation.composed_inRange_iff⟩
  rw [Positioned.inRange_iff, Nat.le_sub_one_iff_lt (by decide)]
  exact or_left_comm

-- Without the eager probe a read at the largest offset goes to the kernel as it is, where it means
-- the file position.
theorem fileOffset_reaches_kernel :
    ∃ a, ((oneShot { data := 4096, size := 8, size_lt := by decide } (-1)).start a .uring false).2 =
        [2 ^ 64 - 1] ∧
      ¬(oneShot { data := 4096, size := 8, size_lt := by decide } (-1)).InRange a .uring false := by
  refine ⟨Positioned.oneByte, by decide, fun h => ?_⟩
  exact absurd (h.sent (2 ^ 64 - 1) (by decide)) (by decide)

end Bnio.Transfer
