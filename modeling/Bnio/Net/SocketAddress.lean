import Bnio.Net.Endpoint

namespace Bnio.Net

-- How a platform lays out a socket address: with or without the length in front of the family, its
-- number of AF_INET6 and its byte order.
structure Platform where
  hasLen : Bool
  afInet6 : UInt8
  littleEndian : Bool
  afInet6_ne : afInet6 ≠ 2

namespace Platform

def linux (littleEndian : Bool) : Platform :=
  ⟨false, 10, littleEndian, by decide⟩

def darwin : Platform :=
  ⟨true, 30, true, by decide⟩

end Platform

def afInet : UInt8 := 2

def sizeofSockaddrIn : Nat := 16
def sizeofSockaddrIn6 : Nat := 28
def sizeofSockaddrStorage : Nat := 128

-- A byte of the memory behind a pointer.
def byteAt (memory : List UInt8) (i : Nat) : UInt8 :=
  memory.getD i 0

namespace Platform

variable (p : Platform)

-- A 16-bit word in memory.
def store16 (x : UInt16) : List UInt8 :=
  if p.littleEndian then [Bytes.low x, Bytes.high x] else [Bytes.high x, Bytes.low x]

def load16 (memory : List UInt8) (i : Nat) : UInt16 :=
  if p.littleEndian then Bytes.join (byteAt memory (i + 1)) (byteAt memory i)
  else Bytes.join (byteAt memory i) (byteAt memory (i + 1))

def htons (x : UInt16) : UInt16 :=
  if p.littleEndian then Bytes.join (Bytes.low x) (Bytes.high x) else x

def ntohs (x : UInt16) : UInt16 :=
  p.htons x

-- `sa_family_t` has one byte behind the length, or two bytes without one.
def sizeofFamily : Nat :=
  if p.hasLen then 1 else 2

def storeFamily (family : UInt8) : List UInt8 :=
  if p.hasLen then [0, family] else p.store16 family.toUInt16

def loadFamily (memory : List UInt8) : UInt16 :=
  if p.hasLen then (byteAt memory 1).toUInt16 else p.load16 memory 0

end Platform

-- `storage_` and `size_`.
structure SocketAddress where
  storage : List UInt8 := .replicate sizeofSockaddrStorage 0
  size : Nat := 0

namespace SocketAddress

variable (p : Platform) (a : SocketAddress)

-- The sockaddr_in or sockaddr_in6 is written over the zeroed storage.
def fill (native : List UInt8) : SocketAddress where
  storage := native ++ .replicate (sizeofSockaddrStorage - native.length) 0
  size := native.length

def sockaddrIn (port : UInt16) (bytes : V4Bytes) : List UInt8 :=
  p.storeFamily afInet ++ p.store16 (p.htons port) ++ bytes.toList ++ .replicate 8 0

-- `sin6_flowinfo` stands before the address and `sin6_scope_id` behind it.
def sockaddrIn6 (port : UInt16) (bytes : V6Bytes) : List UInt8 :=
  p.storeFamily p.afInet6 ++ p.store16 (p.htons port) ++ .replicate 4 0 ++ bytes.toList ++ .replicate 4 0

def ofEndpoint (e : Endpoint) : SocketAddress :=
  match e.address.v4 with
  | some bytes => fill (sockaddrIn p e.port bytes)
  | none       =>
    match e.address.v6 with
    | some bytes => fill (sockaddrIn6 p e.port bytes)
    | none       => {}

def valid : Bool :=
  a.size ≠ 0

-- AF_UNSPEC is 0.
def family : UInt16 :=
  if a.valid then p.loadFamily a.storage else 0

def data : Option (List UInt8) :=
  if a.valid then some a.storage else none

end SocketAddress

def loadBytes (n : Nat) (memory : List UInt8) (i : Nat) : Vector UInt8 n :=
  .ofFn fun k => byteAt memory (i + k)

-- No endpoint is read through the null pointer.
def makeEndpoint (p : Platform) (address : Option (List UInt8)) (size : Nat) : Option Endpoint :=
  address.bind fun memory =>
    if size < p.sizeofFamily then none
    else if p.loadFamily memory = afInet.toUInt16 then
      if size < sizeofSockaddrIn then none
      else some (.ofAddress (.ofV4 (loadBytes 4 memory 4)) (p.ntohs (p.load16 memory 2)))
    else if p.loadFamily memory = p.afInet6.toUInt16 then
      if size < sizeofSockaddrIn6 then none
      else some (.ofAddress (.ofV6 (loadBytes 16 memory 8)) (p.ntohs (p.load16 memory 2)))
    else none

section Memory

variable {p : Platform} {memory memory' : List UInt8} {i n : Nat}

theorem byteAt_append_left {l : List UInt8} (h : i < l.length) :
    byteAt (l ++ memory) i = byteAt l i :=
  List.getD_append _ _ _ _ h

theorem byteAt_append_right {l : List UInt8} (h : l.length ≤ i) :
    byteAt (l ++ memory) i = byteAt memory (i - l.length) :=
  List.getD_append_right _ _ _ _ h

namespace Platform

-- The port is in network order on every platform.
theorem store16_htons (x : UInt16) : p.store16 (p.htons x) = [Bytes.high x, Bytes.low x] := by
  cases h : p.littleEndian <;> simp [store16, htons, h]

theorem ntohs_load16 :
    p.ntohs (p.load16 memory i) = Bytes.join (byteAt memory i) (byteAt memory (i + 1)) := by
  cases h : p.littleEndian <;> simp [load16, ntohs, htons, h]

theorem sizeofFamily_le : p.sizeofFamily ≤ 2 := by
  cases h : p.hasLen <;> simp [sizeofFamily, h]

theorem length_storeFamily {f : UInt8} : (p.storeFamily f).length = 2 := by
  cases h : p.hasLen <;> cases h' : p.littleEndian <;> simp [storeFamily, store16, h, h']

theorem loadFamily_storeFamily {f : UInt8} : p.loadFamily (p.storeFamily f ++ memory) = f.toUInt16 := by
  cases h : p.hasLen <;> cases h' : p.littleEndian <;>
    simp [loadFamily, storeFamily, store16, load16, byteAt, h, h']

theorem afInet6_ne_afInet : p.afInet6.toUInt16 ≠ afInet.toUInt16 := fun h =>
  p.afInet6_ne <| UInt8.toNat_inj.mp <| by simpa [afInet] using congrArg UInt16.toNat h

end Platform

theorem loadBytes_append {l : List UInt8} {v : Vector UInt8 n} (h : l.length = i) :
    loadBytes n (l ++ v.toList ++ memory) i = v := by
  refine Vector.ext fun k hk => ?_
  subst h
  rw [List.append_assoc]
  simp only [loadBytes, Vector.getElem_ofFn]
  rw [byteAt_append_right (by omega), byteAt_append_left (by simp; omega)]
  simp [byteAt, hk]

end Memory

section Format

variable {p : Platform} {memory : List UInt8} {size : Nat} {e : Endpoint}

theorem Endpoint.ofAddress_eq {a : Address} {port : UInt16} (h : a.type ≠ .unspecified) :
    Endpoint.ofAddress a port = { address := a, port, portless := (absurd · h) } := by
  simp [ofAddress, setAddress, setPort, h]

theorem Address.ofV4_v4Bytes {a : Address} (h : a.type = .v4) : ofV4 a.v4Bytes = a := by
  ext1
  · exact h.symm
  · rfl
  · exact (a.v6_zero (by simp [h])).symm

theorem Address.ofV6_v6Bytes {a : Address} (h : a.type = .v6) : ofV6 a.v6Bytes = a := by
  ext1
  · exact h.symm
  · exact (a.v4_zero (by simp [h])).symm
  · rfl

namespace SocketAddress

theorem length_sockaddrIn {port : UInt16} {bytes : V4Bytes} :
    (sockaddrIn p port bytes).length = sizeofSockaddrIn := by
  simp [sockaddrIn, Platform.length_storeFamily, Platform.store16_htons, sizeofSockaddrIn]

theorem length_sockaddrIn6 {port : UInt16} {bytes : V6Bytes} :
    (sockaddrIn6 p port bytes).length = sizeofSockaddrIn6 := by
  simp [sockaddrIn6, Platform.length_storeFamily, Platform.store16_htons, sizeofSockaddrIn6]

theorem data_fill {native : List UInt8} {n : Nat} (h : native.length = n) (hn : n ≠ 0) :
    (fill native).data = some (native ++ .replicate (sizeofSockaddrStorage - native.length) 0) := by
  simp [data, valid, fill, h, hn]

theorem ofEndpoint_of_v4 (h : e.version = .v4) :
    ofEndpoint p e = fill (sockaddrIn p e.port e.address.v4Bytes) := by
  simp [ofEndpoint, Address.v4, Address.isV4, show e.address.type = .v4 from h]

theorem ofEndpoint_of_v6 (h : e.version = .v6) :
    ofEndpoint p e = fill (sockaddrIn6 p e.port e.address.v6Bytes) := by
  simp [ofEndpoint, Address.v4, Address.isV4, Address.v6, Address.isV6,
    show e.address.type = .v6 from h]

theorem ofEndpoint_of_unspecified (h : e.version = .unspecified) : ofEndpoint p e = {} := by
  simp [ofEndpoint, Address.v4, Address.isV4, Address.v6, Address.isV6,
    show e.address.type = .unspecified from h]

theorem family_fill {f : UInt8} {rest : List UInt8} :
    (fill (p.storeFamily f ++ rest)).family p = f.toUInt16 := by
  rw [family, if_pos (by simp [valid, fill, Platform.length_storeFamily])]
  simp only [fill, List.append_assoc]
  exact Platform.loadFamily_storeFamily

end SocketAddress

theorem byteAt_behind_family {f : UInt8} (k : Nat) :
    byteAt (p.storeFamily f ++ memory) (k + 2) = byteAt memory k := by
  rw [byteAt_append_right (by rw [Platform.length_storeFamily]; omega), Platform.length_storeFamily]
  rfl

-- The port behind the family of a socket address.
theorem ntohs_load16_header {f : UInt8} {port : UInt16} :
    p.ntohs (p.load16 (p.storeFamily f ++ p.store16 (p.htons port) ++ memory) 2) = port := by
  rw [Platform.ntohs_load16, Platform.store16_htons, List.append_assoc, byteAt_behind_family 0,
    byteAt_behind_family 1]
  exact Bytes.join_high_low port

-- The fields of a sockaddr_in and of a sockaddr_in6, as they are read back.
theorem makeEndpoint_sockaddrIn {port : UInt16} {bytes : V4Bytes} (h : sizeofSockaddrIn ≤ size) :
    makeEndpoint p (some (SocketAddress.sockaddrIn p port bytes ++ memory)) size =
      some (.ofAddress (.ofV4 bytes) port) := by
  have hsize : ¬size < p.sizeofFamily :=
    Nat.not_lt.mpr <| Platform.sizeofFamily_le.trans <| Nat.le_trans (by decide) h
  have hbytes : loadBytes 4 (SocketAddress.sockaddrIn p port bytes ++ memory) 4 = bytes := by
    rw [SocketAddress.sockaddrIn, List.append_assoc]
    exact loadBytes_append (by simp [Platform.length_storeFamily, Platform.store16_htons])
  have hport : p.ntohs (p.load16 (SocketAddress.sockaddrIn p port bytes ++ memory) 2) = port := by
    simp only [SocketAddress.sockaddrIn, List.append_assoc]
    simp only [← List.append_assoc (p.storeFamily afInet)]
    exact ntohs_load16_header
  have hfamily : p.loadFamily (SocketAddress.sockaddrIn p port bytes ++ memory) = afInet.toUInt16 := by
    simp only [SocketAddress.sockaddrIn, List.append_assoc]
    exact Platform.loadFamily_storeFamily
  simp only [makeEndpoint, Option.bind_some, hsize, if_false, hfamily, if_true, Nat.not_lt.mpr h, hbytes,
    hport]

theorem makeEndpoint_sockaddrIn6 {port : UInt16} {bytes : V6Bytes} (h : sizeofSockaddrIn6 ≤ size) :
    makeEndpoint p (some (SocketAddress.sockaddrIn6 p port bytes ++ memory)) size =
      some (.ofAddress (.ofV6 bytes) port) := by
  have hsize : ¬size < p.sizeofFamily :=
    Nat.not_lt.mpr <| Platform.sizeofFamily_le.trans <| Nat.le_trans (by decide) h
  have hbytes : loadBytes 16 (SocketAddress.sockaddrIn6 p port bytes ++ memory) 8 = bytes := by
    rw [SocketAddress.sockaddrIn6, List.append_assoc]
    exact loadBytes_append (by simp [Platform.length_storeFamily, Platform.store16_htons])
  have hport : p.ntohs (p.load16 (SocketAddress.sockaddrIn6 p port bytes ++ memory) 2) = port := by
    simp only [SocketAddress.sockaddrIn6, List.append_assoc]
    simp only [← List.append_assoc (p.storeFamily p.afInet6)]
    exact ntohs_load16_header
  have hfamily : p.loadFamily (SocketAddress.sockaddrIn6 p port bytes ++ memory) =
      p.afInet6.toUInt16 := by
    simp only [SocketAddress.sockaddrIn6, List.append_assoc]
    exact Platform.loadFamily_storeFamily
  simp only [makeEndpoint, Option.bind_some, hsize, if_false, hfamily, Platform.afInet6_ne_afInet,
    if_true, Nat.not_lt.mpr h, hbytes, hport]

-- What is written is read back.
theorem makeEndpoint_ofEndpoint :
    makeEndpoint p (SocketAddress.ofEndpoint p e).data (SocketAddress.ofEndpoint p e).size =
      if e.version = .unspecified then none else some e := by
  cases hv : e.version
  case unspecified =>
    simp [SocketAddress.ofEndpoint_of_unspecified hv, SocketAddress.data, SocketAddress.valid,
      makeEndpoint]
  case v4 =>
    rw [SocketAddress.ofEndpoint_of_v4 hv,
      SocketAddress.data_fill SocketAddress.length_sockaddrIn (by decide)]
    simp only [SocketAddress.fill]
    rw [makeEndpoint_sockaddrIn SocketAddress.length_sockaddrIn.ge, Address.ofV4_v4Bytes hv,
      Endpoint.ofAddress_eq (by simp [show e.address.type = .v4 from hv])]
    simp
  case v6 =>
    rw [SocketAddress.ofEndpoint_of_v6 hv,
      SocketAddress.data_fill SocketAddress.length_sockaddrIn6 (by decide)]
    simp only [SocketAddress.fill]
    rw [makeEndpoint_sockaddrIn6 SocketAddress.length_sockaddrIn6.ge, Address.ofV6_v6Bytes hv,
      Endpoint.ofAddress_eq (by simp [show e.address.type = .v6 from hv])]
    simp

theorem makeEndpoint_cases (h : makeEndpoint p (some memory) size = some e) :
    (p.loadFamily memory = afInet.toUInt16 ∧ sizeofSockaddrIn ≤ size ∧
      e = .ofAddress (.ofV4 (loadBytes 4 memory 4)) (p.ntohs (p.load16 memory 2))) ∨
    (p.loadFamily memory = p.afInet6.toUInt16 ∧ sizeofSockaddrIn6 ≤ size ∧
      e = .ofAddress (.ofV6 (loadBytes 16 memory 8)) (p.ntohs (p.load16 memory 2))) := by
  simp only [makeEndpoint, Option.bind_some] at h
  split at h
  case isTrue  => cases h
  case isFalse =>
    split at h
    case isTrue hf  =>
      split at h
      case isTrue    => cases h
      case isFalse n => exact .inl ⟨hf, Nat.not_lt.mp n, (Option.some.inj h).symm⟩
    case isFalse =>
      split at h
      case isFalse => cases h
      case isTrue hf =>
        split at h
        case isTrue    => cases h
        case isFalse n => exact .inr ⟨hf, Nat.not_lt.mp n, (Option.some.inj h).symm⟩

-- Where an endpoint of a version stands in its socket address: the port and the address.
def carried : Version → List Nat
  | .unspecified => []
  | .v4          => .range' 2 6
  | .v6          => .range' 2 2 ++ .range' 8 16

-- What the socket address `a` has in common with the memory.
structure Carries (p : Platform) (a : SocketAddress) (version : Version) (memory : List UInt8)
    (size : Nat) : Prop where
  size   : a.size ≤ size
  family : a.family p = p.loadFamily memory
  bytes  : ∀ i ∈ carried version, byteAt a.storage i = byteAt memory i

theorem loadBytes_toList {n i : Nat} (k : Nat) (h : k < n) :
    byteAt (loadBytes n memory i).toList k = byteAt memory (i + k) := by
  simp [byteAt, loadBytes, h]

theorem carries_v4 (hf : p.loadFamily memory = afInet.toUInt16) (hs : sizeofSockaddrIn ≤ size) :
    Carries p (.fill (SocketAddress.sockaddrIn p (p.ntohs (p.load16 memory 2)) (loadBytes 4 memory 4)))
      .v4 memory size where
  size   := SocketAddress.length_sockaddrIn.trans_le hs
  family := by
    simp only [hf, SocketAddress.sockaddrIn, List.append_assoc]
    exact SocketAddress.family_fill
  bytes i hi := by
    obtain ⟨k, rfl, hk⟩ : ∃ k, i = k + 2 ∧ k < 6 := ⟨i - 2, by simp [carried] at hi; omega⟩
    simp only [SocketAddress.fill, SocketAddress.sockaddrIn, List.append_assoc, Platform.store16_htons,
      Platform.ntohs_load16, Bytes.high_join, Bytes.low_join]
    rw [byteAt_behind_family k]
    obtain _ | _ | k := k
    · rfl
    · rfl
    · refine (byteAt_append_right (l := [_, _]) (by simp)).trans ?_
      rw [byteAt_append_left (by simp; omega)]
      exact (loadBytes_toList k (by omega)).trans (by rw [Nat.add_comm 4 k])

theorem carries_v6 (hf : p.loadFamily memory = p.afInet6.toUInt16) (hs : sizeofSockaddrIn6 ≤ size) :
    Carries p (.fill (SocketAddress.sockaddrIn6 p (p.ntohs (p.load16 memory 2)) (loadBytes 16 memory 8)))
      .v6 memory size where
  size   := SocketAddress.length_sockaddrIn6.trans_le hs
  family := by
    simp only [hf, SocketAddress.sockaddrIn6, List.append_assoc]
    exact SocketAddress.family_fill
  bytes i hi := by
    obtain ⟨k, rfl, hk⟩ : ∃ k, i = k + 2 ∧ (k < 2 ∨ 6 ≤ k ∧ k < 22) :=
      ⟨i - 2, by simp [carried] at hi; omega⟩
    simp only [SocketAddress.fill, SocketAddress.sockaddrIn6, List.append_assoc, Platform.store16_htons,
      Platform.ntohs_load16, Bytes.high_join, Bytes.low_join]
    rw [byteAt_behind_family k]
    obtain _ | _ | k := k
    · rfl
    · rfl
    · refine (byteAt_append_right (l := [_, _]) (by simp)).trans ?_
      rw [byteAt_append_right (by simp; omega), byteAt_append_left (by simp; omega)]
      refine (loadBytes_toList _ (by simp; omega)).trans (congrArg (byteAt memory) ?_)
      simp only [List.length_cons, List.length_nil, List.length_replicate]
      omega

-- What is read is in the memory, and would be written the same way again.
theorem carries_of_makeEndpoint (h : makeEndpoint p (some memory) size = some e) :
    Carries p (SocketAddress.ofEndpoint p e) e.version memory size := by
  obtain ⟨hf, hs, rfl⟩ | ⟨hf, hs, rfl⟩ := makeEndpoint_cases h
  · rw [Endpoint.ofAddress_eq (by simp [Address.ofV4, Address.setV4Bytes])]
    exact carries_v4 hf hs
  · rw [Endpoint.ofAddress_eq (by simp [Address.ofV6, Address.setV6])]
    exact carries_v6 hf hs

-- Nothing behind the given size is looked at.
theorem makeEndpoint_congr {memory' : List UInt8} (h : ∀ i < size, byteAt memory i = byteAt memory' i) :
    makeEndpoint p (some memory) size = makeEndpoint p (some memory') size := by
  by_cases hs : size < sizeofSockaddrIn
  case pos =>
    have hs' : size < sizeofSockaddrIn6 := Nat.lt_of_lt_of_le hs (by decide)
    simp [makeEndpoint, hs, hs']
  case neg =>
    have hle : 16 ≤ size := Nat.not_lt.mp hs
    have hload : ∀ i, i + 1 < 16 → p.load16 memory i = p.load16 memory' i := fun i hi => by
      simp only [Platform.load16, h i (by omega), h (i + 1) (by omega)]
    have hfamily : p.loadFamily memory = p.loadFamily memory' := by
      simp only [Platform.loadFamily, hload 0 (by decide), h 1 (by omega)]
    have hbytes : ∀ n i, i + n ≤ size → loadBytes n memory i = loadBytes n memory' i := fun n i hi =>
      Vector.ext fun k hk => by
        simp only [loadBytes, Vector.getElem_ofFn]
        exact h _ (by omega)
    simp only [makeEndpoint, Option.bind_some, hfamily, hload 2 (by decide), hbytes 4 4 (by omega)]
    by_cases h6 : size < sizeofSockaddrIn6
    case pos => simp only [h6, if_true]
    case neg => rw [hbytes 16 8 (by simp only [sizeofSockaddrIn6] at h6; omega)]

-- On every platform: an endpoint is read back from its socket address as it was written, and no
-- endpoint is read from the address of one without a version; an endpoint that is read from any memory
-- has its family, port and address there, and fits into the given size; and the memory behind that size
-- has no part in it.
theorem socketAddress_faithful (p : Platform) :
    (∀ e, makeEndpoint p (SocketAddress.ofEndpoint p e).data (SocketAddress.ofEndpoint p e).size =
      if e.version = .unspecified then none else some e) ∧
    (∀ memory size e, makeEndpoint p (some memory) size = some e →
      Carries p (SocketAddress.ofEndpoint p e) e.version memory size) ∧
    ∀ memory memory' size, (∀ i < size, byteAt memory i = byteAt memory' i) →
      makeEndpoint p (some memory) size = makeEndpoint p (some memory') size :=
  ⟨fun _ => makeEndpoint_ofEndpoint, fun _ _ _ => carries_of_makeEndpoint,
    fun _ _ _ => makeEndpoint_congr⟩

-- 127.0.0.1:8080
example : (SocketAddress.ofEndpoint (.linux true)
    (.ofAddress (.ofV4 #v[127, 0, 0, 1]) 8080)).storage.take 8 = [2, 0, 31, 144, 127, 0, 0, 1] := by
  decide

example : (SocketAddress.ofEndpoint .darwin (.ofAddress (.ofV4 #v[127, 0, 0, 1]) 8080)).storage.take 8 =
    [0, 2, 31, 144, 127, 0, 0, 1] := by
  decide

end Format

end Bnio.Net
