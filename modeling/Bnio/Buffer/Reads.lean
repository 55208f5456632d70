import Bnio.Buffer.DynamicBuffer
import Bnio.Tls.ReadBytes

namespace Bnio.Buffer

open Transfer (Signal)

section Tcp

open Transfer

-- `tcp_read_operation` over the read-all of the scheduler. The view is at `data` in memory.
def tcpReadState (socket flags : Int) (data : Nat) : AllState :=
  socketReadAllState socket { data, size := prepareSize, size_lt := by decide } flags

def tcpRead (socket flags : Int) (data : Nat) : Reader where
  State := Operation
  Answer := Round
  start := Operation.start (tcpReadState socket flags data)
  step := Operation.step
  possible op r :=
    match r.result with
    | .value _ bytes => bytes ≤ op.state.makeSender.size
    | .stopped       => true
  result op := op.calls.head?
  stored _ r := r.moved
  position op := op.state.transferred
  Stops _ r := r.stopRequested ∨ r.result = .stopped
  Errs _ r := r.stopRequested = false ∧ ∃ ec n, r.result = .value ec n ∧ ec ≠ 0

-- `tcp_read_operation` over one native read. Its byte count is clamped, so that an error reports none.
def tcpReadSome : Reader where
  State := Option Signal
  Answer := Signal
  start stopRequested := if stopRequested then some .stopped else none
  step
    | none,   a => some (some a)
    | some _, _ => none
  possible _
    | .value ec n => n ≤ prepareSize ∧ (ec = 0 ∨ n = 0)
    | .stopped    => true
  result := id
  stored _
    | .value _ n => n
    | .stopped   => 0
  position _ := 0
  Stops _ a := a = .stopped
  Errs _ a := ∃ ec n, a = .value ec n ∧ ec ≠ 0

theorem tcpReadSome_lawful : tcpReadSome.Lawful prepareSize fun s n => s = none ∧ n = 0 where
  start_stopped := rfl
  start := ⟨rfl, rfl, rfl⟩
  step {s a n s'} hi hp hs := by
    obtain ⟨rfl, rfl⟩ := hi
    obtain rfl : some a = s' := Option.some.inj hs
    cases a
    case stopped => exact ⟨Nat.zero_le _, nofun, nofun, nofun, fun _ => rfl⟩
    case value ec n =>
      have ⟨hn, hz⟩ : n ≤ prepareSize ∧ (ec = 0 ∨ n = 0) := of_decide_eq_true hp
      refine ⟨by simpa [tcpReadSome] using hn, fun _ => rfl, nofun, fun hv => ?_, nofun⟩
      cases hv
      refine ⟨(Nat.zero_add n).symm, nofun, ?_⟩
      by_cases hec : ec = 0
      case pos => exact .inl ⟨hec, fun ⟨_, _, he, hne⟩ => by cases he; exact hne hec⟩
      case neg => exact .inr ⟨hec, ⟨ec, n, rfl, hec⟩, hz.resolve_left hec⟩

-- A round completes with a stop exactly when it meets one.
theorem step_stopped_iff {op op' : Operation} {r : Round} (hc : op.calls = [])
    (h : op.step r = some op') :
    op'.calls.head? = some .stopped ↔ r.stopRequested ∨ r.result = .stopped := by
  unfold Operation.step at h
  obtain ⟨_ | _, _ | _⟩ := r <;> cases ha : op.active <;> simp only [ha] at h <;> cases h
  case false.value.true.refl =>
    simp only [Bool.false_eq_true, reduceCtorEq, or_self, iff_false]
    split
    · simp only [Operation.complete, AllState.writeAllStepComplete, hc]
      split <;> [skip; split] <;> simp
    · simp [hc]
  all_goals simp [Operation.complete, hc]

theorem tcpRead_lawful (socket flags : Int) (data : Nat) :
    (tcpRead socket flags data).Lawful prepareSize fun op n =>
      op.Inv (tcpReadState socket flags data) ∧ op.active ∧ op.state.transferred = n where
  start_stopped := rfl
  start := ⟨rfl, Operation.start_inv .socketRead false, rfl, rfl⟩
  step {op r n op'} hi hp hs := by
    obtain ⟨inv, hact, rfl⟩ := hi
    have hw : op.Within r := fun ec bytes hr => by simpa [tcpRead, hr] using hp
    have inv' := inv.step hw hs
    have hnil := (inv.pending hact).2
    have hstop := step_stopped_iff hnil hs
    have hle : op'.state.transferred ≤ prepareSize := inv'.le
    obtain ⟨_, hst⟩ := Operation.step_steps inv hw hs
    have hz : op.state.zeroByteIsError = false := inv.zeroByte
    have hsum := hst.transferred
    have hmoved : 0 < r.moved → ¬(tcpRead socket flags data).Errs op r := by
      rintro hm ⟨hs, ec, n, he, hne⟩
      simp [Round.moved, hs, he, hne] at hm
    refine ⟨hsum ▸ hle, fun _ => rfl, fun hr => ?_, fun {ec m} hr => ?_, hstop.mp⟩
    · have hns : ¬(tcpRead socket flags data).Stops op r := fun h => by
        cases (hstop.mpr h).symm.trans hr
      cases hst
      case advanced hm _ _ => exact ⟨⟨inv', hact, hsum⟩, hns, hmoved hm⟩
      all_goals simp [tcpRead, Operation.complete, hnil] at hr
    · have hns : ¬(tcpRead socket flags data).Stops op r := fun h => by
        cases (hstop.mpr h).symm.trans hr
      cases hst
      case stopped  => simp [tcpRead, Operation.complete, hnil] at hr
      case advanced => simp [tcpRead, hnil] at hr
      case failed hm hne he =>
        obtain ⟨rfl, rfl⟩ : _ = ec ∧ op.state.transferred = m := by
          simpa [tcpRead, Operation.complete, hnil] using hr
        refine ⟨by simp [tcpRead, hm], hns, .inr ⟨hne, ⟨?_, _, _, he, hne⟩, hm⟩⟩
        simpa using fun h => hns (.inl h)
      case empty hm he =>
        obtain ⟨rfl, rfl⟩ : 0 = ec ∧ op.state.transferred = m := by
          simpa [tcpRead, Operation.complete, hnil, hz] using hr
        refine ⟨by simp [tcpRead, hm], hns, .inl ⟨rfl, ?_⟩⟩
        rintro ⟨_, _, _, he', hne⟩
        rw [he] at he'
        cases he'
        exact hne rfl
      case filled hm _ _ =>
        obtain ⟨rfl, rfl⟩ : 0 = ec ∧ op.state.transferred + r.moved = m := by
          simpa [tcpRead, Operation.complete, hnil] using hr
        exact ⟨rfl, hns, .inl ⟨rfl, hmoved hm⟩⟩

end Tcp
section Tls

open Tls (IoOperation IoAction Stream)

def signal : Tls.Signal → Signal
  | .value ec bytes => .value ec bytes
  | .stopped        => .stopped

-- `ssl_io_operation` of a read. Only a positive result of `SSL_read` has put something in the view.
def tlsRead (stream : Stream) : Reader where
  State := IoOperation
  Answer := IoAction
  start := IoOperation.start (Tls.sslRead prepareSize) stream
  step := IoOperation.step
  possible op
    | .round _ x => x.ssl.result ≤ prepareSize
    | .transport t =>
      match t.result with
      | .value _ bytes => bytes ≤ op.io.state.transportSize
      | .stopped       => true
  result op := op.calls.head?.map signal
  stored op
    | .round false x => op.io.readBytes x
    | _              => 0
  position _ := 0
  Stops _
    | .round stopRequested x => stopRequested ∨ x.stopRequested
    | .transport t           => t.result = .stopped
  Errs op
    | .round stopRequested x => stopRequested = false ∧ x.stopRequested = false ∧ op.io.ReadBreaks x
    | .transport t           => t.Breaks

-- What an operation keeps that has not ended.
structure Unread (n : Nat) (op : IoOperation) : Prop where
  inv : op.Inv (Tls.sslRead prepareSize)
  calls : op.calls = []
  receiving : op.io.Receiving n
  le : n ≤ prepareSize

theorem tlsRead_advance {stream : Stream} {op : IoOperation} {a : IoAction} {n : Nat}
    {r : Tls.Io × List Tls.Effect} (h : Unread n op) (hs : op.step a = some (op.settle r))
    (hle : n + (tlsRead stream).stored op a ≤ prepareSize)
    (hn : 0 < (tlsRead stream).stored op a → n = 0)
    (hr : Tls.Io.Reads n ((tlsRead stream).stored op a) ((tlsRead stream).Stops op a)
      ((tlsRead stream).Errs op a) r) :
    (tlsRead stream).Advance prepareSize (fun op n => Unread n op) op a n (op.settle r) := by
  have inv := h.inv.step hs
  have hpos : 0 < (tlsRead stream).stored op a → (tlsRead stream).position op = n := fun hp =>
    (hn hp).symm
  cases hr
  case stopped io hstop =>
    have hres : (tlsRead stream).result (op.settle (io, [.stopped])) = some .stopped := by
      simp [tlsRead, IoOperation.settle, IoOperation.deliver, h.calls, signal]
    refine ⟨hle, hpos, fun hr => ?_, fun hr => ?_, fun _ => hstop⟩ <;> cases hres.symm.trans hr
  case running io e hns hfine hrec hd he =>
    have hcalls : (op.settle (io, [e])).calls = [] ∧ (op.settle (io, [e])).io = io := by
      simp only [List.mem_cons, List.not_mem_nil, or_false] at he
      obtain rfl | rfl | rfl := he <;> simp [IoOperation.settle, hd, h.calls]
    have hres : (tlsRead stream).result (op.settle (io, [e])) = none := by simp [tlsRead, hcalls.1]
    refine ⟨hle, hpos, fun _ => ⟨⟨inv, hcalls.1, hcalls.2.symm ▸ hrec, hle⟩, hns, hfine⟩, fun hr => ?_,
      fun hr => ?_⟩ <;> cases hres.symm.trans hr
  case ended io ec hns hb hd hec =>
    have hres : (tlsRead stream).result (op.settle (io, [.complete ec io.state.bytes])) =
        some (.value ec io.state.bytes) := by
      have hv : op.settle (io, [.complete ec io.state.bytes]) =
          { op with io, mode := .ended, calls := op.calls ++ [.value ec io.state.bytes] } :=
        IoOperation.settle_value hd rfl
      simp [tlsRead, hv, h.calls, signal]
    refine ⟨hle, hpos, fun hr => ?_, fun hr => ?_, fun hr => ?_⟩ <;> cases hres.symm.trans hr
    exact ⟨hb, hns, hec⟩

theorem tlsRead_lawful (stream : Stream) :
    (tlsRead stream).Lawful prepareSize fun op n => Unread n op where
  start_stopped := rfl
  start := ⟨rfl, Tls.IoOperation.start_inv .read prepareSize stream false, rfl,
    ⟨rfl, fun _ => rfl, Nat.zero_le _⟩, Nat.zero_le _⟩
  step {op a n op'} hi hp hs := by
    obtain ⟨hm, x, rfl, rfl⟩ | ⟨hm, x, rfl, rfl⟩ | ⟨hm, t, rfl, rfl⟩ := IoOperation.step_cases hs
    · have hle : n + (tlsRead stream).stored op (.round true x) ≤ prepareSize := hi.le
      exact tlsRead_advance (r := (op.io, [.stopped])) hi hs hle nofun (.stopped (.inl rfl))
    · have ⟨hready, _⟩ := hi.inv.ready hm
      have hread : op.io.state.application = .read := hready.application
      have hle : n + op.io.readBytes x ≤ prepareSize := by
        have hb : op.io.readBytes x ≤ prepareSize := by
          have hp : x.ssl.result ≤ prepareSize := of_decide_eq_true hp
          unfold Tls.Io.readBytes
          split <;> omega
        have := hi.receiving.eq_zero (x := x) hready
        have := hi.le
        omega
      refine tlsRead_advance hi hs hle (hi.receiving.eq_zero hready) ?_
      have hr := hi.receiving.startStep (x := x) hready hread
      simpa [tlsRead] using hr
    · have ⟨hw, _⟩ := hi.inv.waiting hm
      refine tlsRead_advance hi hs hi.le nofun ?_
      exact hi.receiving.transportDone hw.done hw.phase fun ec bytes ht => by
        simpa [tlsRead, ht] using hp

end Tls

-- The reads that take a dynamic buffer; the two reads of a TLS stream are one.
inductive Kind
  | tcpRead (socket flags : Int) (data : Nat)
  | tcpReadSome
  | tlsRead (stream : Tls.Stream)

def Kind.reader : Kind → Reader
  | .tcpRead socket flags data => Buffer.tcpRead socket flags data
  | .tcpReadSome               => Buffer.tcpReadSome
  | .tlsRead stream            => Buffer.tlsRead stream

theorem Kind.lawful (k : Kind) : ∃ Inv, k.reader.Lawful prepareSize Inv := by
  cases k
  case tcpRead socket flags data => exact ⟨_, tcpRead_lawful socket flags data⟩
  case tcpReadSome               => exact ⟨_, tcpReadSome_lawful⟩
  case tlsRead stream            => exact ⟨_, tlsRead_lawful stream⟩

namespace DynamicRead

theorem storage_iff (k : Kind) (content : List Byte) {as : List (Action k.reader)}
    {r : DynamicRead k.reader} (h : System.run step (create k.reader content) as = some r) :
    System.Always step Kept (create k.reader content) as ↔
      System.Along step Fine (create k.reader content) as :=
  have ⟨_, hR⟩ := k.lawful
  kept_iff_fine hR h

-- A read of two bytes that are there.
def twoBytes : List (Action Kind.tcpReadSome.reader) :=
  [.connect, .start false, .answer (.value 0 2) [1, 2]]

theorem storage_iff_twoBytes :
    System.Always step Kept (create Kind.tcpReadSome.reader [9]) twoBytes := by
  refine (storage_iff .tcpReadSome [9] rfl).mpr ⟨trivial, fun _ h => ?_⟩
  cases h
  refine ⟨rfl, fun _ h => ?_⟩
  cases h
  refine ⟨⟨nofun, fun ⟨_, _, he, hne⟩ => ?_⟩, fun _ _ => trivial⟩
  cases he
  exact absurd rfl hne

-- Two bytes arrive, and then the connection is reset: the rest of the region stays in the storage.
def reset : List (Action (Kind.tcpRead 3 0 0).reader) :=
  [.connect, .start false, .answer { result := .value 0 2 } [1, 2], .answer { result := .value 104 0 } []]

theorem reset_leaves_filler : ∃ r,
    System.run step (create (Kind.tcpRead 3 0 0).reader [9]) reset = some r ∧
      r.stage = .ended (.value 104 2) ∧
      r.buffer.storage = [9] ++ [1, 2] ++ List.replicate (prepareSize - 2) 0 ∧ ¬r.Kept := by
  have hh : DynamicBuffer.Holds prepareSize [9] [1, 2]
      (((DynamicBuffer.prepare ⟨[9], 0, 0⟩ prepareSize).store 0 [1, 2]).store 2 []) :=
    (DynamicBuffer.holds_prepare.store (by decide)).store_nil 2
  refine ⟨_, rfl, rfl, hh.storage, fun ⟨_, hk⟩ => ?_⟩
  have hne := hh.length
  obtain hk | ⟨_, hk⟩ := hk
  · cases (congrArg List.length hk).symm.trans hne
  · cases (congrArg List.length hk).symm.trans hne

end DynamicRead
end Bnio.Buffer
