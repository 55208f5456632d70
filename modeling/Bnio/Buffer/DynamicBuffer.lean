import Bnio.Transfer.WriteAll

namespace Bnio.Buffer

open Transfer (Signal)

abbrev Byte := UInt8

-- The adapters for strings and byte vectors, which have the same code. `storage` is what their pointer
-- refers to.
structure DynamicBuffer where
  storage : List Byte
  preparedOffset : Nat := 0
  preparedSize : Nat := 0

-- `resize` of the storage fills with zeros.
def resize (storage : List Byte) (size : Nat) : List Byte :=
  storage.take size ++ List.replicate (size - storage.length) 0

namespace DynamicBuffer

variable (b : DynamicBuffer)

def prepare (size : Nat) : DynamicBuffer where
  storage := resize b.storage (b.storage.length + size)
  preparedOffset := b.storage.length
  preparedSize := size

def commit (size : Nat) : DynamicBuffer :=
  { b with
    storage := if size < b.preparedSize then resize b.storage (b.preparedOffset + size) else b.storage
    preparedSize := 0 }

-- Somebody writes through the view of the prepared region.
def store (position : Nat) (data : List Byte) : DynamicBuffer :=
  let start := b.preparedOffset + position
  { b with storage := b.storage.take start ++ data ++ b.storage.drop (start + data.length) }

-- The region behind the content holds these bytes, and is untouched from there on.
structure Holds (size : Nat) (content received : List Byte) (b : DynamicBuffer) : Prop where
  storage : b.storage = content ++ received ++ List.replicate (size - received.length) 0
  offset : b.preparedOffset = content.length
  prepared : b.preparedSize = size
  le : received.length ≤ size

variable {b} {size : Nat} {content received data : List Byte}

theorem holds_prepare : Holds size content [] (prepare ⟨content, 0, 0⟩ size) := by
  refine ⟨?_, rfl, rfl, Nat.zero_le _⟩
  simp [prepare, resize, List.take_of_length_le]

theorem Holds.store (h : b.Holds size content received) (hle : received.length + data.length ≤ size) :
    (b.store received.length data).Holds size content (received ++ data) := by
  refine ⟨?_, h.offset, h.prepared, by simpa using hle⟩
  have ht : b.storage.take (content.length + received.length) = content ++ received := by
    rw [h.storage, ← List.length_append, List.take_left]
  have hd : b.storage.drop (content.length + received.length + data.length) =
      List.replicate (size - (received ++ data).length) 0 := by
    rw [h.storage, ← List.length_append, List.drop_append, List.drop_of_length_le (by simp)]
    simp [Nat.sub_sub]
  simp only [DynamicBuffer.store, h.offset, ht, hd, List.append_assoc]

theorem Holds.store_nil (h : b.Holds size content received) (position : Nat) :
    (b.store position []).Holds size content received := by
  refine ⟨?_, h.offset, h.prepared, h.le⟩
  simpa [DynamicBuffer.store] using h.storage

theorem Holds.commit (h : b.Holds size content received) :
    (b.commit received.length).storage = content ++ received := by
  unfold DynamicBuffer.commit
  split
  case isTrue =>
    have hl : content.length + received.length - b.storage.length = 0 := by
      simp [h.storage]
    simp only [resize, h.offset, hl, List.replicate_zero, List.append_nil]
    rw [h.storage, ← List.length_append, List.take_left]
  case isFalse hge =>
    have hz : size - received.length = 0 := by
      rw [h.prepared] at hge
      omega
    simp [h.storage, hz]

theorem Holds.length (h : b.Holds size content received) : b.storage.length = content.length + size := by
  have := h.le
  simp [h.storage]
  omega

end DynamicBuffer

-- A read that works on a view: how it is started and goes on with the answers of its surroundings,
-- which of them are possible, what it reports, and the bytes that an answer puts in the view. The last
-- two fields are the answers behind which the read is stopped or reports an error.
structure Reader where
  State : Type
  Answer : Type
  start (stopRequested : Bool) : State
  step : System State Answer
  possible : State → Answer → Bool
  result : State → Option Signal
  stored : State → Answer → Nat
  position : State → Nat
  Stops : State → Answer → Prop
  Errs : State → Answer → Prop

namespace Reader

-- What one answer does to a read that has stored `n` bytes of at most `size`.
structure Advance (R : Reader) (size : Nat) (Inv : R.State → Nat → Prop) (s : R.State) (a : R.Answer)
    (n : Nat) (s' : R.State) : Prop where
  le : n + R.stored s a ≤ size
  position : 0 < R.stored s a → R.position s = n
  running : R.result s' = none → Inv s' (n + R.stored s a) ∧ ¬R.Stops s a ∧ ¬R.Errs s a
  value : ∀ {ec m}, R.result s' = some (.value ec m) → m = n + R.stored s a ∧ ¬R.Stops s a ∧
    (ec = 0 ∧ ¬R.Errs s a ∨ ec ≠ 0 ∧ R.Errs s a ∧ R.stored s a = 0)
  stopped : R.result s' = some .stopped → R.Stops s a

structure Lawful (R : Reader) (size : Nat) (Inv : R.State → Nat → Prop) : Prop where
  start_stopped : R.result (R.start true) = some .stopped
  start : R.result (R.start false) = none ∧ Inv (R.start false) 0
  step : ∀ {s a n s'}, Inv s n → R.possible s a → R.step s a = some s' → R.Advance size Inv s a n s'

end Reader

-- Where the operation is, from the sender on: `ended` by its call on the receiver, or `destroyed`
-- without having been started.
inductive Stage (σ : Type)
  | created | connected | running (s : σ) | ended (signal : Signal) | destroyed

-- A read whose holder is a `dynamic_buffer_holder`. `content` is the storage that the sender was created
-- on, and `received` are the bytes that have arrived.
structure DynamicRead (R : Reader) where
  content : List Byte
  buffer : DynamicBuffer
  stage : Stage R.State := .created
  received : List Byte := []

def prepareSize : Nat := 4096

namespace DynamicRead

inductive Action (R : Reader)
  | connect
  | start (stopRequested : Bool)
  | answer (a : R.Answer) (data : List Byte)
  | destroy

variable {R : Reader}

-- The holder prepares its region when the sender is created.
def create (R : Reader) (content : List Byte) : DynamicRead R where
  content := content
  buffer := DynamicBuffer.prepare ⟨content, 0, 0⟩ prepareSize

variable (r : DynamicRead R)

-- `set_value` and `set_stopped` of the receivers behind the read.
def complete : Signal → DynamicRead R
  | .value ec size => { r with
      stage := .ended (.value ec size)
      buffer := if ec = 0 then r.buffer.commit size else r.buffer }
  | .stopped       => { r with stage := .ended .stopped }

def proceed (s : R.State) : DynamicRead R :=
  match R.result s with
  | some signal => r.complete signal
  | none        => { r with stage := .running s }

def step : Action R → Option (DynamicRead R)
  | .connect =>
    match r.stage with
    | .created => some { r with stage := .connected }
    | _        => none
  | .start stopRequested =>
    match r.stage with
    | .connected => some (r.proceed (R.start stopRequested))
    | _          => none
  | .answer a data =>
    match r.stage with
    | .running s =>
      if R.possible s a ∧ data.length = R.stored s a then
        let r := { r with buffer := r.buffer.store (R.position s) data, received := r.received ++ data }
        (R.step s a).map r.proceed
      else none
    | _ => none
  | .destroy =>
    match r.stage with
    | .created | .connected => some { r with stage := .destroyed }
    | _                     => none

-- The storage has changed by what has been reported.
def Kept (r : DynamicRead R) : Prop :=
  match r.stage with
  | .ended (.value ec n)       => n = r.received.length ∧ (r.buffer.storage = r.content ++ r.received ∨
      ec ≠ 0 ∧ r.buffer.storage = r.content)
  | .ended .stopped | .destroyed => r.buffer.storage = r.content
  | _                          => True

-- The operation is started, goes on without a stop, and meets an error only when all of the region has
-- been filled.
def Fine (r : DynamicRead R) : Action R → Prop
  | .connect             => True
  | .start stopRequested => stopRequested = false
  | .answer a _          =>
    match r.stage with
    | .running s => ¬R.Stops s a ∧ (R.Errs s a → r.received.length = prepareSize)
    | _          => True
  | .destroy             => False

abbrev Holds (r : DynamicRead R) : Prop :=
  r.buffer.Holds prepareSize r.content r.received

def Inv (I : R.State → Nat → Prop) (r : DynamicRead R) : Prop :=
  match r.stage with
  | .created | .connected => r.Holds ∧ r.received = []
  | .running s            => r.Holds ∧ I s r.received.length
  | _                     => r.Kept

variable {r} {r' : DynamicRead R} {a : Action R} {I : R.State → Nat → Prop}

theorem create_inv (content : List Byte) : (create R content).Inv I :=
  ⟨DynamicBuffer.holds_prepare, rfl⟩

theorem Inv.kept (h : r.Inv I) : r.Kept := by
  unfold Inv at h
  split at h
  case h_1 hs | h_2 hs | h_3 hs => simp [Kept, hs]
  case h_4                      => exact h

-- A region that has not been committed is still there.
theorem Holds.storage_ne (h : r.Holds) : r.buffer.storage ≠ r.content := fun he => by
  have := h.length
  simp [he, prepareSize] at this

theorem Holds.full (h : r.Holds) (he : r.buffer.storage = r.content ++ r.received) :
    r.received.length = prepareSize := by
  have := h.length
  simp only [he, List.length_append] at this
  omega

-- One answer: what the two lemmas below need of it.
theorem Inv.answer {s s' : R.State} {b : R.Answer} {data : List Byte} (hR : R.Lawful prepareSize I)
    (h : r.Inv I) (hs : r.stage = .running s) (hp : R.possible s b) (hd : data.length = R.stored s b)
    (hb : R.step s b = some s') : R.Advance prepareSize I s b r.received.length s' ∧
      Holds { r with buffer := r.buffer.store (R.position s) data, received := r.received ++ data } := by
  have ⟨hh, hi⟩ : r.Holds ∧ I s r.received.length := by simpa only [Inv, hs] using h
  have adv := hR.step hi hp hb
  refine ⟨adv, ?_⟩
  cases data
  case nil         => simpa using hh.store_nil _
  case cons x data =>
    rw [adv.position (by simp [← hd])]
    exact hh.store (hd ▸ adv.le)

theorem kept_value (h : r.Holds) : (r.complete (.value 0 r.received.length)).Kept :=
  ⟨rfl, .inl (DynamicBuffer.Holds.commit h)⟩

-- Nothing is taken back behind an error,
theorem kept_error {ec : Int} {n : Nat} (h : r.Holds) (hec : ec ≠ 0) :
    (r.complete (.value ec n)).Kept ↔ n = r.received.length ∧ r.received.length = prepareSize := by
  simp only [complete, Kept, hec, if_false, not_false_eq_true, ne_eq, true_and]
  refine and_congr_right fun _ => ⟨fun hs => h.full (hs.resolve_right h.storage_ne), fun hl => .inl ?_⟩
  simpa [hl] using h.storage

-- or behind a stop.
theorem not_kept_stopped (h : r.Holds) : ¬(r.complete .stopped).Kept :=
  h.storage_ne

variable (hR : R.Lawful prepareSize I)
include hR

theorem Inv.keep_answer {s s' : R.State} {b : R.Answer} {data : List Byte} (h : r.Inv I)
    (hs : r.stage = .running s) (hp : R.possible s b) (hd : data.length = R.stored s b)
    (hb : R.step s b = some s') (hf : r.Fine (.answer b data)) :
    Inv I (proceed
      { r with buffer := r.buffer.store (R.position s) data, received := r.received ++ data } s') := by
  have ⟨adv, hh⟩ := h.answer hR hs hp hd hb
  have ⟨hstop, herr⟩ : ¬R.Stops s b ∧ (R.Errs s b → r.received.length = prepareSize) := by
    simpa only [Fine, hs] using hf
  unfold proceed
  cases hr : R.result s'
  case none => exact ⟨hh, by simpa [hd] using (adv.running hr).1⟩
  case some signal =>
    cases signal
    case stopped      => exact absurd (adv.stopped hr) hstop
    case value ec m =>
      have ⟨hm, _, hv⟩ := adv.value hr
      have hm : m = (r.received ++ data).length := by simp [hm, hd]
      subst hm
      obtain ⟨rfl, _⟩ | ⟨hne, he, hz⟩ := hv
      · exact kept_value hh
      · refine (kept_error hh hne).mpr ⟨rfl, ?_⟩
        simp [hd, hz, herr he]

theorem Inv.fine_answer {s s' : R.State} {b : R.Answer} {data : List Byte} (h : r.Inv I)
    (hs : r.stage = .running s) (hp : R.possible s b) (hd : data.length = R.stored s b)
    (hb : R.step s b = some s')
    (hk : Kept (proceed
      { r with buffer := r.buffer.store (R.position s) data, received := r.received ++ data } s')) :
    r.Fine (.answer b data) := by
  have ⟨adv, hh⟩ := h.answer hR hs hp hd hb
  simp only [Fine, hs]
  unfold proceed at hk
  cases hr : R.result s' <;> simp only [hr] at hk
  case none =>
    have ⟨_, hstop, herr⟩ := adv.running hr
    exact ⟨hstop, fun he => absurd he herr⟩
  case some signal =>
    cases signal
    case stopped    => exact absurd hk (not_kept_stopped hh)
    case value ec m =>
      have ⟨_, hstop, hv⟩ := adv.value hr
      refine ⟨hstop, fun he => ?_⟩
      obtain ⟨_, herr⟩ | ⟨hne, _, hz⟩ := hv
      · exact absurd he herr
      · have := ((kept_error hh hne).mp hk).2
        simpa [hd, hz] using this

theorem Inv.step (h : r.Inv I) (hf : r.Fine a) (hs : r.step a = some r') : r'.Inv I := by
  cases a <;> simp only [DynamicRead.step] at hs
  case connect =>
    split at hs <;> cases hs
    case h_1 hst => simpa only [Inv, hst] using h
  case start stopRequested =>
    split at hs <;> cases hs
    case h_1 hst =>
      obtain rfl : stopRequested = false := hf
      have ⟨hh, hn⟩ : r.Holds ∧ r.received = [] := by simpa only [Inv, hst] using h
      simp only [proceed, hR.start.1]
      exact ⟨hh, by simpa [hn] using hR.start.2⟩
  case answer b data =>
    split at hs
    case h_1 s hst =>
      split at hs
      case isTrue hg =>
        have ⟨s', hb, he⟩ := Option.map_eq_some_iff.mp hs
        exact he ▸ h.keep_answer hR hst hg.1 hg.2 hb hf
      case isFalse => cases hs
    case h_2 => cases hs
  case destroy => exact hf.elim

theorem Inv.fine (h : r.Inv I) (hs : r.step a = some r') (hk : r'.Kept) : r.Fine a := by
  cases a <;> simp only [DynamicRead.step] at hs
  case connect => trivial
  case start stopRequested =>
    split at hs <;> cases hs
    case h_1 hst =>
      have ⟨hh, _⟩ : r.Holds ∧ r.received = [] := by simpa only [Inv, hst] using h
      cases stopRequested
      case false => rfl
      case true  =>
        simp only [proceed, hR.start_stopped] at hk
        exact absurd hk (not_kept_stopped hh)
  case answer b data =>
    split at hs
    case h_1 s hst =>
      split at hs
      case isTrue hg =>
        have ⟨s', hb, he⟩ := Option.map_eq_some_iff.mp hs
        exact h.fine_answer hR hst hg.1 hg.2 hb (he ▸ hk)
      case isFalse => cases hs
    case h_2 => cases hs
  case destroy =>
    have hh : r.Holds := by
      split at hs <;> cases hs
      case h_1 hst => exact (by simpa only [Inv, hst] using h : r.Holds ∧ r.received = []).1
      case h_2 hst => exact (by simpa only [Inv, hst] using h : r.Holds ∧ r.received = []).1
    split at hs <;> cases hs <;> exact hh.storage_ne hk

theorem kept_iff_fine {content : List Byte} {as : List (Action R)}
    (h : System.run step (create R content) as = some r) :
    System.Always step Kept (create R content) as ↔ System.Along step Fine (create R content) as :=
  System.always_iff_along (I := Inv I) (fun hi hf hs => hi.step hR hf hs) Inv.kept
    (fun hi hs hk => hi.fine hR hs hk) (create_inv content) h

end DynamicRead
end Bnio.Buffer
