import Bnio.Lib.Transition

namespace Bnio.Transfer

def epipe : Int := 32

-- The value of an expression of type `std::size_t` or `std::uint64_t`.
def wrap (n : Nat) : Nat :=
  n % 2 ^ 64

structure Buffer where
  data : Nat
  size : Nat
  size_lt : size < 2 ^ 64

inductive Direction
  | read | write
  deriving DecidableEq

inductive Target
  | socket (descriptor flags : Int)
  | streamFile (descriptor : Int)
  | randomAccessFile (descriptor : Int) (offset : Nat)
  deriving DecidableEq

-- Where the step of an operation goes that has transferred this many bytes. Sockets and streaming
-- files have no position of their own.
def Target.advanced : Target → Nat → Target
  | randomAccessFile fd offset, transferred => randomAccessFile fd (wrap (offset + transferred))
  | target,                     _           => target

-- The native request of one step.
structure Request where
  target : Target
  direction : Direction
  data : Nat
  size : Nat
  deriving DecidableEq

-- How a sender completes; the empty error code is 0.
inductive Signal
  | value (ec : Int) (bytes : Nat)
  | stopped
  deriving DecidableEq

-- The state classes of read-all and write-all differ in their target and in what a step without any
-- bytes means.
structure AllState where
  target : Target
  direction : Direction
  zeroByteIsError : Bool
  buffer : Buffer
  transferred : Nat := 0
  done : Bool := false
  eager : Bool := true

def socketWriteAllState (socket : Int) (buffer : Buffer) (flags : Int) : AllState :=
  { target := .socket socket flags, direction := .write, zeroByteIsError := true, buffer }

def socketReadAllState (socket : Int) (buffer : Buffer) (flags : Int) : AllState :=
  { target := .socket socket flags, direction := .read, zeroByteIsError := false, buffer }

def streamFileWriteAllState (descriptor : Int) (buffer : Buffer) : AllState :=
  { target := .streamFile descriptor, direction := .write, zeroByteIsError := true, buffer }

def streamFileReadAllState (descriptor : Int) (buffer : Buffer) : AllState :=
  { target := .streamFile descriptor, direction := .read, zeroByteIsError := false, buffer }

def randomAccessWriteAllState (file : Int) (buffer : Buffer) (offset : Nat) : AllState :=
  { target := .randomAccessFile file offset, direction := .write, zeroByteIsError := true, buffer }

def randomAccessReadAllState (file : Int) (buffer : Buffer) (offset : Nat) : AllState :=
  { target := .randomAccessFile file offset, direction := .read, zeroByteIsError := false, buffer }

namespace AllState

-- The states an operation can be constructed with.
inductive Initial : AllState → Prop
  | socketWrite {socket buffer flags} : Initial (socketWriteAllState socket buffer flags)
  | socketRead {socket buffer flags} : Initial (socketReadAllState socket buffer flags)
  | streamFileWrite {descriptor buffer} : Initial (streamFileWriteAllState descriptor buffer)
  | streamFileRead {descriptor buffer} : Initial (streamFileReadAllState descriptor buffer)
  | randomAccessWrite {file buffer offset} : Initial (randomAccessWriteAllState file buffer offset)
  | randomAccessRead {file buffer offset} : Initial (randomAccessReadAllState file buffer offset)

variable (s : AllState)

def remaining : Nat :=
  wrap (s.buffer.size + 2 ^ 64 - s.transferred)

-- The request of `make_sender`, which covers `current_buffer`.
def makeSender : Request where
  target := s.target.advanced s.transferred
  direction := s.direction
  data := s.buffer.data + s.transferred
  size := s.remaining

def advance (bytes : Nat) : AllState :=
  let transferred := wrap (s.transferred + bytes)
  { s with transferred, done := s.done || s.buffer.size ≤ transferred }

def writeAllStepComplete (ec : Int) (bytes : Nat) : AllState × Signal :=
  if ec ≠ 0 then ({ s with done := true }, .value ec s.transferred)
  else if bytes = 0 then
    ({ s with done := true }, .value (if s.zeroByteIsError then epipe else 0) s.transferred)
  else
    let s := s.advance bytes
    (s, .value 0 s.transferred)

end AllState

-- One round of `repeat_until`: whether it finds the stop token cancelled, and what the native
-- operation of the step reports otherwise.
structure Round where
  stopRequested : Bool := false
  result : Signal
  deriving DecidableEq

-- `active` while the repeat operation has not completed; `calls` are the calls on the receiver.
structure Operation where
  state : AllState
  active : Bool := true
  calls : List Signal := []

namespace Operation

def complete (op : Operation) (signal : Signal) : Operation :=
  { op with active := false, calls := op.calls ++ [signal] }

def start (s : AllState) (stopRequested : Bool) : Operation :=
  if stopRequested then complete { state := s } .stopped
  else if s.buffer.size = 0 then complete { state := s } (.value 0 s.transferred)
  else { state := s }

-- The handler of the step factory and, behind it, the predicate of `repeat_until`.
def step (op : Operation) (r : Round) : Option Operation :=
  if !op.active then none
  else if r.stopRequested then some (op.complete .stopped)
  else
    match r.result with
    | .stopped     => some (op.complete .stopped)
    | .value ec bytes =>
      let s := { op.state with eager := bytes = op.state.remaining }
      let (s, value) := s.writeAllStepComplete ec bytes
      let op := { op with state := s }
      some (if s.done then op.complete value else op)

end Operation

-- The bytes a step has transferred; one that fails has transferred none.
def Round.moved (r : Round) : Nat :=
  match r.stopRequested, r.result with
  | false, .value ec bytes => if ec = 0 then bytes else 0
  | _,     _               => 0

namespace AllState

variable {s : AllState} {t n : Nat} {l : List (Request × Nat)}

-- The request for everything from byte `t` on.
def requestFrom (s : AllState) (t : Nat) : Request where
  target := s.target.advanced t
  direction := s.direction
  data := s.buffer.data + t
  size := s.buffer.size - t

-- Each request starts where the bytes that the one before has transferred end.
def Consecutive (s : AllState) : Nat → List (Request × Nat) → Prop
  | _, []          => True
  | t, (q, n) :: l => q = s.requestFrom t ∧ n ≤ q.size ∧ s.Consecutive (t + n) l

theorem Consecutive.concat (h : s.Consecutive t l) (hn : n ≤ s.buffer.size - (t + (l.map Prod.snd).sum)) :
    s.Consecutive t (l ++ [(s.requestFrom (t + (l.map Prod.snd).sum), n)]) := by
  induction l generalizing t
  case nil          => exact ⟨rfl, by simpa [requestFrom] using hn, trivial⟩
  case cons p l hi =>
    obtain ⟨q, m⟩ := p
    have he : t + (((q, m) :: l).map Prod.snd).sum = t + m + (l.map Prod.snd).sum := by simp; omega
    rw [he] at hn ⊢
    exact ⟨h.1, h.2.1, hi h.2.2 hn⟩

end AllState

namespace Operation

variable {s : AllState} {op op' : Operation} {r : Round} {rounds : List Round}

-- What the step requests and transfers.
def slices (op : Operation) (r : Round) : List (Request × Nat) :=
  if r.stopRequested then [] else [(op.state.makeSender, r.moved)]

-- No step transfers more than it has been asked for.
def Within (op : Operation) (r : Round) : Prop :=
  ∀ ec bytes, r.result = .value ec bytes → bytes ≤ op.state.makeSender.size

structure Inv (s : AllState) (op : Operation) : Prop where
  target : op.state.target = s.target
  direction : op.state.direction = s.direction
  zeroByte : op.state.zeroByteIsError = s.zeroByteIsError
  buffer : op.state.buffer = s.buffer
  le : op.state.transferred ≤ s.buffer.size
  lt : op.active → op.state.transferred < s.buffer.size
  pending : op.active → op.state.done = false ∧ op.calls = []
  ended : op.active = false → ∃ c, op.calls = [c]

theorem Inv.remaining (h : op.Inv s) : op.state.remaining = s.buffer.size - op.state.transferred := by
  have := s.buffer.size_lt
  have := h.le
  rw [AllState.remaining, h.buffer, wrap]
  omega

theorem Inv.makeSender (h : op.Inv s) : op.state.makeSender = s.requestFrom op.state.transferred := by
  simp [AllState.makeSender, AllState.requestFrom, h.target, h.direction, h.buffer, h.remaining]

-- Everything a round can do.
inductive Steps (op : Operation) (r : Round) : Operation → Prop
  | stopped (moved : r.moved = 0) : Steps op r (op.complete .stopped)
  | failed {ec : Int} {bytes : Nat} {eager : Bool} (moved : r.moved = 0) (ne : ec ≠ 0)
    (result : r.result = .value ec bytes) :
    Steps op r <| complete { op with state := { op.state with done := true, eager } }
      (.value ec op.state.transferred)
  | empty {eager : Bool} (moved : r.moved = 0) (round : r = { result := .value 0 0 }) :
    Steps op r <| complete { op with state := { op.state with done := true, eager } }
      (.value (if op.state.zeroByteIsError then epipe else 0) op.state.transferred)
  | filled {eager : Bool} (moved : 0 < r.moved) (issued : r.stopRequested = false)
    (full : op.state.transferred + r.moved = op.state.buffer.size) :
    Steps op r <| complete
      { op with state := { op.state with
        transferred := op.state.transferred + r.moved, done := true, eager } }
      (.value 0 (op.state.transferred + r.moved))
  | advanced {eager : Bool} (moved : 0 < r.moved) (issued : r.stopRequested = false)
    (lt : op.state.transferred + r.moved < op.state.buffer.size) :
    Steps op r { op with
      state := { op.state with transferred := op.state.transferred + r.moved, done := false, eager } }

theorem Steps.transferred (h : Steps op r op') :
    op'.state.transferred = op.state.transferred + r.moved := by
  cases h
  case filled   => rfl
  case advanced => rfl
  case stopped hm | failed hm _ _ | empty hm _ => simp [complete, hm]

theorem step_steps (hi : op.Inv s) (hw : op.Within r) (h : op.step r = some op') :
    op.active ∧ Steps op r op' := by
  unfold step at h
  by_cases ha : op.active
  case neg => simp [ha] at h
  case pos =>
    refine ⟨ha, ?_⟩
    obtain ⟨stopRequested, result⟩ := r
    cases stopRequested
    case true =>
      obtain rfl := Option.some.inj <| by simpa [ha] using h
      exact .stopped rfl
    case false =>
      cases result
      case stopped =>
        obtain rfl := Option.some.inj <| by simpa [ha] using h
        exact .stopped rfl
      case value ec bytes =>
        simp only [ha, Bool.not_true, Bool.false_eq_true, if_false, AllState.writeAllStepComplete] at h
        by_cases hec : ec = 0
        case neg =>
          obtain rfl := Option.some.inj <| by simpa [hec] using h
          exact .failed (by simp [Round.moved, hec]) hec rfl
        case pos =>
          subst hec
          by_cases hb : bytes = 0
          case pos =>
            subst hb
            obtain rfl := Option.some.inj <| by simpa using h
            exact .empty rfl rfl
          case neg =>
            have hle : bytes ≤ s.buffer.size - op.state.transferred := by
              have := hw 0 bytes rfl
              rwa [hi.makeSender] at this
            have := hi.lt ha
            have := s.buffer.size_lt
            have hwrap : wrap (op.state.transferred + bytes) = op.state.transferred + bytes :=
              Nat.mod_eq_of_lt (by omega)
            simp only [hb, AllState.advance, hwrap, (hi.pending ha).1, Bool.false_or, ne_eq,
              not_true_eq_false, if_false] at h
            by_cases hf : op.state.buffer.size ≤ op.state.transferred + bytes
            case pos =>
              obtain rfl := Option.some.inj <| by simpa [hf] using h
              exact .filled (Nat.pos_of_ne_zero hb) rfl (by simp [Round.moved, hi.buffer] at hf ⊢; omega)
            case neg =>
              have he : op' = { op with
                  state := { op.state with
                    transferred := op.state.transferred + bytes, done := false,
                    eager := bytes = op.state.remaining } } := by
                simpa [hf, ha] using (Option.some.inj h).symm
              exact he ▸ .advanced (Nat.pos_of_ne_zero hb) rfl (Nat.lt_of_not_le hf)

theorem complete_calls {c : Signal} (h : op.calls = []) : ∃ c', (op.complete c).calls = [c'] :=
  ⟨c, by simp [complete, h]⟩

theorem Inv.step (hi : op.Inv s) (hw : op.Within r) (h : op.step r = some op') : op'.Inv s := by
  have ⟨ha, hs⟩ := step_steps hi hw h
  have hlt := hi.lt ha
  have hc := (hi.pending ha).2
  cases hs
  case advanced hm hn hlt' =>
    rw [hi.buffer] at hlt'
    exact ⟨hi.target, hi.direction, hi.zeroByte, hi.buffer, Nat.le_of_lt hlt', fun _ => hlt',
      fun _ => ⟨rfl, hc⟩, hi.ended⟩
  case filled hm hn hf =>
    rw [hi.buffer] at hf
    exact ⟨hi.target, hi.direction, hi.zeroByte, hi.buffer, Nat.le_of_eq hf, nofun, nofun,
      fun _ => complete_calls hc⟩
  all_goals exact ⟨hi.target, hi.direction, hi.zeroByte, hi.buffer, hi.le, nofun, nofun,
    fun _ => complete_calls hc⟩

theorem start_inv (hs : s.Initial) (stopRequested : Bool) : (start s stopRequested).Inv s := by
  have ⟨ht, hd⟩ : s.transferred = 0 ∧ s.done = false := by cases hs <;> exact ⟨rfl, rfl⟩
  unfold start
  split
  case isTrue => exact ⟨rfl, rfl, rfl, rfl, by simp [complete, ht], nofun, nofun, fun _ => ⟨_, rfl⟩⟩
  case isFalse =>
    split
    case isTrue => exact ⟨rfl, rfl, rfl, rfl, by simp [complete, ht], nofun, nofun, fun _ => ⟨_, rfl⟩⟩
    case isFalse hn =>
      exact ⟨rfl, rfl, rfl, rfl, by simp [ht], fun _ => by simp [ht]; omega, fun _ => ⟨hd, rfl⟩, nofun⟩

theorem run_of_inactive (ha : op.active = false) (h : System.run step op rounds = some op') :
    rounds = [] := by
  cases rounds
  case nil       => rfl
  case cons r rs => simp [System.run_cons, step, ha] at h

-- Every round but the last one transfers something.
theorem rounds_le (hi : op.Inv s) (ha : op.active) (hw : System.Along step Within op rounds)
    (h : System.run step op rounds = some op') :
    (rounds.filter (0 < ·.moved)).length + op.state.transferred ≤ s.buffer.size ∧
      (rounds.filter (·.moved = 0)).length ≤ 1 := by
  induction rounds generalizing op
  case nil          => simpa using hi.le
  case cons r rs ih =>
    have ⟨m, hm, hr⟩ := System.run_cons_eq_some step |>.mp h
    have hlt := hi.lt ha
    have hin := hi.step hw.left hm
    have ⟨_, hs⟩ := step_steps hi hw.left hm
    cases hs
    case advanced hmv _ _ =>
      have := ih hin ha (hw.right _ hm) hr
      dsimp only at this
      have hne : ¬r.moved = 0 := by omega
      simp only [List.filter_cons, hmv, hne, decide_true, decide_false, if_true, List.length_cons,
        Bool.false_eq_true, if_false]
      omega
    case filled hmv _ hf =>
      obtain rfl := run_of_inactive rfl hr
      have hne : ¬r.moved = 0 := by omega
      simp [hmv, hne]
      omega
    case stopped hmv | failed hmv _ _ | empty hmv _ =>
      obtain rfl := run_of_inactive rfl hr
      simp [hmv]
      omega

-- What is reported when a round ends the operation.
theorem verdict {ec : Int} {n : Nat} (hi : op.Inv s) (hw : op.Within r) (h : op.step r = some op')
    (hc : op'.calls = [.value ec n]) : n = op'.state.transferred ∧
      (ec = 0 ↔ n = s.buffer.size ∨ s.zeroByteIsError = false ∧ r = { result := .value 0 0 }) := by
  have ⟨ha, hs⟩ := step_steps hi hw h
  have hnil := (hi.pending ha).2
  have hlt := hi.lt ha
  cases hs
  case stopped  => simp [complete, hnil] at hc
  case advanced => simp [hnil] at hc
  case failed hne hres =>
    obtain ⟨rfl, rfl⟩ : _ = ec ∧ _ = n := by simpa [complete, hnil] using hc
    refine ⟨rfl, iff_of_false hne ?_⟩
    rintro (he | ⟨_, he⟩)
    · omega
    · rw [he] at hres
      cases hres
      exact hne rfl
  case empty hr =>
    obtain ⟨rfl, rfl⟩ : _ = ec ∧ _ = n := by simpa [complete, hnil] using hc
    refine ⟨rfl, ?_⟩
    rw [hi.zeroByte]
    have : op.state.transferred ≠ s.buffer.size := by omega
    cases s.zeroByteIsError <;> simp [hr, this, epipe]
  case filled hf =>
    obtain ⟨rfl, rfl⟩ : 0 = ec ∧ _ = n := by simpa [complete, hnil] using hc
    exact ⟨rfl, iff_of_true rfl (.inl (hi.buffer ▸ hf))⟩

theorem Inv.slices_consecutive {l : List (Request × Nat)} (hi : op.Inv s)
    (hl : s.Consecutive 0 l ∧ op.state.transferred = (l.map Prod.snd).sum) (hw : op.Within r)
    (h : op.step r = some op') :
    s.Consecutive 0 (l ++ op.slices r) ∧
      op'.state.transferred = ((l ++ op.slices r).map Prod.snd).sum := by
  have ⟨ha, hs⟩ := step_steps hi hw h
  have hlt := hi.lt ha
  have hsum := hs.transferred
  have hle : r.moved ≤ s.buffer.size - op.state.transferred := by
    have := (hi.step hw h).le
    omega
  by_cases hr : r.stopRequested
  case pos =>
    have hm : r.moved = 0 := by simp [Round.moved, hr]
    simpa [slices, hr, hsum, hm] using hl
  case neg =>
    have hq : op.slices r = [(s.requestFrom (0 + (l.map Prod.snd).sum), r.moved)] := by
      simp [slices, hr, hi.makeSender, hl.2]
    rw [hq]
    refine ⟨hl.1.concat (by simpa [← hl.2] using hle), ?_⟩
    simp [hsum, hl.2]

section Eager

variable {op₁ op₂ : Operation}

-- What an operation is, the eager flag apart.
def blind (op : Operation) : Operation :=
  { op with state := { op.state with eager := true } }

theorem step_blind (h : op₁.blind = op₂.blind) :
    (op₁.step r).map blind = (op₂.step r).map blind := by
  obtain ⟨⟨_, _, _, _, _, _, _⟩, _, _⟩ := op₁
  obtain ⟨⟨_, _, _, _, _, _, _⟩, _, _⟩ := op₂
  simp only [blind, mk.injEq, AllState.mk.injEq] at h
  obtain ⟨⟨rfl, rfl, rfl, rfl, rfl, rfl, -⟩, rfl, rfl⟩ := h
  obtain ⟨_ | _, _ | _⟩ := r
  all_goals
    unfold step
    dsimp only
    split <;> rfl

theorem run_blind (rounds : List Round) (h : op₁.blind = op₂.blind) :
    (System.run step op₁ rounds).map blind = (System.run step op₂ rounds).map blind := by
  induction rounds generalizing op₁ op₂
  case nil => simpa using h
  case cons r rs hi =>
    have hs := step_blind (r := r) h
    simp only [System.run_cons]
    cases h₁ : op₁.step r <;> cases h₂ : op₂.step r <;>
      simp only [h₁, h₂, Option.map_some, Option.map_none] at hs ⊢
    case none.some => cases hs
    case some.none => cases hs
    case some.some => exact hi (Option.some.inj hs)

end Eager

-- How an operation stands that has taken the given rounds.
structure Account (s : AllState) (stopRequested : Bool) (rounds : List Round) (op : Operation)
    (count : Nat) : Prop where
  counted : count = ((System.gathered step slices (start s stopRequested) rounds).map Prod.snd).sum
  consecutive : s.Consecutive 0 (System.gathered step slices (start s stopRequested) rounds)
  no_underflow : op.state.transferred = count ∧ count ≤ s.buffer.size ∧
    op.state.remaining = s.buffer.size - count
  rounds_le : (rounds.filter (0 < ·.moved)).length ≤ s.buffer.size ∧
    (rounds.filter (·.moved = 0)).length ≤ 1
  goes_on : op.active → op.calls = [] ∧ ∀ r, (op.step r).isSome
  ends : op.active = false → op.calls.length = 1 ∧ ∀ r, op.step r = none
  count_eq : ∀ {ec n}, .value ec n ∈ op.calls → n = count
  write : s.direction = .write → ∀ {ec n}, .value ec n ∈ op.calls → (ec = 0 ↔ n = s.buffer.size)
  read : s.direction = .read → ∀ {ec n}, .value ec n ∈ op.calls →
    (ec = 0 ↔ n = s.buffer.size ∨ rounds.getLast? = some { result := .value 0 0 })
  eager : ∀ eager, (System.run step (start { s with eager } stopRequested) rounds).map Operation.calls =
    some op.calls

theorem run_inv (hs : s.Initial) {stopRequested : Bool}
    (hw : System.Along step Within (start s stopRequested) rounds)
    (h : System.run step (start s stopRequested) rounds = some op) : op.Inv s :=
  hw.invariant (I := (·.Inv s)) (fun hi hw h => hi.step hw h) (start_inv hs _) h

theorem run_verdict (hs : s.Initial) {stopRequested : Bool} {ec : Int} {n : Nat}
    (hw : System.Along step Within (start s stopRequested) rounds)
    (h : System.run step (start s stopRequested) rounds = some op) (hc : op.calls = [.value ec n]) :
    n = op.state.transferred ∧ (ec = 0 ↔ n = s.buffer.size ∨
      s.zeroByteIsError = false ∧ rounds.getLast? = some { result := .value 0 0 }) := by
  rcases List.eq_nil_or_concat rounds with rfl | ⟨rs, r, rfl⟩
  · obtain rfl := Option.some.inj h
    have ht : s.transferred = 0 := by cases hs <;> rfl
    unfold start at hc ⊢
    split at hc
    case isTrue => simp [complete] at hc
    case isFalse =>
      split at hc
      case isTrue hz =>
        obtain ⟨rfl, rfl⟩ : 0 = ec ∧ s.transferred = n := by simpa [complete] using hc
        simp [complete, *]
      case isFalse => simp at hc
  · rw [List.concat_eq_append] at hw h ⊢
    have ⟨m, hm, hr⟩ := Option.bind_eq_some_iff.mp <| System.run_append step ▸ h
    have ⟨hw₁, hw₂⟩ := (System.along_append hm).mp hw
    have ⟨_, hstep, he⟩ := System.run_cons_eq_some step |>.mp hr
    cases he
    simpa using verdict (run_inv hs hw₁ hm) hw₂.left hstep hc

theorem transfers (hs : s.Initial) (stopRequested : Bool)
    (hw : System.Along step Within (start s stopRequested) rounds)
    (h : System.run step (start s stopRequested) rounds = some op) :
    ∃ count, Account s stopRequested rounds op count := by
  have hi := run_inv hs hw h
  have hdir : s.zeroByteIsError = decide (s.direction = .write) := by cases hs <;> rfl
  have ht : s.transferred = 0 := by cases hs <;> rfl
  have ⟨_, hcons, hsum⟩ := hw.gathered_invariant
    (J := fun op l => op.Inv s ∧ s.Consecutive 0 l ∧ op.state.transferred = (l.map Prod.snd).sum)
    (fun hj hw h => ⟨hj.1.step hw h, hj.1.slices_consecutive hj.2 hw h⟩) (l := [])
    ⟨start_inv hs _, trivial, by unfold start; split <;> [skip; split] <;> simp [complete, ht]⟩ h
  rw [List.nil_append] at hcons hsum
  have hverdict : ∀ {ec n}, .value ec n ∈ op.calls → n = op.state.transferred ∧
      (ec = 0 ↔ n = s.buffer.size ∨
        s.zeroByteIsError = false ∧ rounds.getLast? = some { result := .value 0 0 }) := fun hc => by
    cases ha : op.active
    case true  => simp [(hi.pending ha).2] at hc
    case false =>
      have ⟨c, he⟩ := hi.ended ha
      obtain rfl : _ = c := by simpa [he] using hc
      exact run_verdict hs hw h he
  refine ⟨op.state.transferred, hsum, hcons, ⟨rfl, hi.le, hi.remaining⟩, ?_, fun ha => ?_, fun ha => ?_,
    fun hc => (hverdict hc).1, fun hd _ _ hc => ?_, fun hd _ _ hc => ?_, fun eager => ?_⟩
  · cases ha : (start s stopRequested).active
    case true =>
      have ⟨h₁, h₂⟩ := rounds_le (start_inv hs _) ha hw h
      exact ⟨Nat.le_trans (Nat.le_add_right _ _) h₁, h₂⟩
    case false => simp [run_of_inactive ha h]
  · refine ⟨(hi.pending ha).2, fun r => ?_⟩
    obtain ⟨_ | _, _ | _⟩ := r <;> simp [step, ha]
  · have ⟨c, he⟩ := hi.ended ha
    exact ⟨by simp [he], fun r => by simp [step, ha]⟩
  · simp [(hverdict hc).2, hdir, hd]
  · simp [(hverdict hc).2, hdir, hd]
  · have hb : (start { s with eager } stopRequested).blind = (start s stopRequested).blind := by
      unfold start
      split <;> [rfl; split <;> rfl]
    have hr := run_blind rounds hb
    rw [h] at hr
    have ⟨op', he, hb'⟩ := Option.map_eq_some_iff.mp hr
    have hc : op'.blind.calls = op.blind.calls := congrArg calls hb'
    exact he ▸ congrArg some hc

-- A positioned write-all of five bytes that goes out in two steps.
def fiveBytes : AllState :=
  randomAccessWriteAllState 3 { data := 4096, size := 5, size_lt := by decide } 10

theorem transfers_fiveBytes :
    ∃ op count, Account fiveBytes false [{ result := .value 0 2 }, { result := .value 0 3 }] op count ∧
      op.calls = [.value 0 5] := by
  have hw : System.Along step Within (start fiveBytes false)
      [{ result := .value 0 2 }, { result := .value 0 3 }] := by
    refine ⟨fun _ _ h => ?_, fun _ h => ⟨fun _ _ h' => ?_, fun _ _ => trivial⟩⟩
    · cases h
      decide
    · cases h
      cases h'
      decide
  have ⟨op, hr, hc⟩ := Option.map_eq_some_iff.mp
    (by decide : (System.run step (start fiveBytes false)
      [{ result := .value 0 2 }, { result := .value 0 3 }]).map Operation.calls = some [.value 0 5])
  have ⟨count, ha⟩ := transfers .randomAccessWrite false hw hr
  exact ⟨op, count, ha, hc⟩

end Operation
end Bnio.Transfer
