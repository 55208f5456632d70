import Bnio.Net.SocketAddress

namespace Bnio.Net

-- A text of a query: `host_`, `host_size_` and `host_valid_`, or those of the service. The storage has
-- room for `n` bytes and a nul.
structure TextField (n : Nat) where
  storage : Vector UInt8 (n + 1) := .replicate (n + 1) 0
  size : Nat := 0
  valid : Bool := true
  size_le : size ≤ n := by simp
  terminated : ∀ i (hi : i < n + 1), size ≤ i → storage[i] = 0 := by simp

-- What `std::to_chars` makes of a number.
def toChars (value : Nat) : List UInt8 :=
  (Nat.toDigits 10 value).map fun c => .ofNat c.toNat

namespace TextField

variable {n : Nat} (f : TextField n)

-- The bytes of `value` are copied into the zeroed storage.
def put (value : List UInt8) (h : value.length ≤ n) : TextField n where
  storage := .ofFn fun i => value.getD i 0
  size := value.length
  size_le := h
  terminated i hi hs := by simp [hs]

def refuse : TextField n where
  valid := false

def assign (_ : TextField n) (value : List UInt8) : TextField n × Bool :=
  if h : value.length ≤ n then (put value h, true) else (refuse, false)

def setPort (_ : TextField n) (port : UInt16) : TextField n × Bool :=
  if h : (toChars port.toNat).length ≤ n then (put (toChars port.toNat) h, true) else (refuse, false)

-- The text as a C function reads it; the null pointer is `none`.
def cString : Option (List UInt8) :=
  if f.size = 0 then none else some (f.storage.toList.takeWhile (· ≠ 0))

end TextField

inductive Transport
  | any | tcp | udp
  deriving DecidableEq, Repr

namespace QueryFlags

def passive : UInt32 := 1
def canonicalName : UInt32 := 2
def numericHost : UInt32 := 4
def numericService : UInt32 := 8

end QueryFlags

def hasDnsQueryFlag (flags flag : UInt32) : Bool :=
  flags &&& flag ≠ 0

-- `basic_dns_query`.
structure DnsQuery (hostCapacity serviceCapacity : Nat) where
  host : TextField hostCapacity := {}
  service : TextField serviceCapacity := {}
  addressVersion : Version := .unspecified
  transport : Transport := .tcp
  flags : UInt32 := 0

-- `dns_query_view`, with the texts it points to.
structure QueryView where
  host : Option (List UInt8)
  service : Option (List UInt8)
  addressVersion : Version
  transport : Transport
  flags : UInt32
  valid : Bool
  deriving DecidableEq

inductive QueryCall
  | setHost (host : List UInt8)
  | setService (service : List UInt8)
  | setPort (port : UInt16)
  | setAddressVersion (version : Version)
  | setTransport (transport : Transport)
  | setFlags (flags : UInt32)

namespace DnsQuery

variable {h s : Nat} (q : DnsQuery h s)

def valid : Bool :=
  q.host.valid && q.service.valid

def apply : QueryCall → DnsQuery h s
  | .setHost host           => { q with host := (q.host.assign host).1 }
  | .setService service     => { q with service := (q.service.assign service).1 }
  | .setPort port           => { q with service := (q.service.setPort port).1 }
  | .setAddressVersion v    => { q with addressVersion := v }
  | .setTransport transport => { q with transport }
  | .setFlags flags         => { q with flags }

def view : QueryView where
  host := q.host.cString
  service := q.service.cString
  addressVersion := q.addressVersion
  transport := q.transport
  flags := q.flags
  valid := q.valid

end DnsQuery

-- The hints for `getaddrinfo`; its flags are AI_PASSIVE, AI_CANONNAME, AI_NUMERICHOST and
-- AI_NUMERICSERV.
structure Hints where
  family : UInt8
  socktype : Nat
  protocol : Nat
  passive : Bool
  canonname : Bool
  numericHost : Bool
  numericServ : Bool
  deriving DecidableEq

structure Addrinfo where
  addr : Option (List UInt8)
  addrlen : Nat

inductive Answer
  | results (l : List Addrinfo)
  -- `result` is not 0, `errno` is what the call has left
  | failure (result : Int) (errno : Int)

abbrev Getaddrinfo := Option (List UInt8) → Option (List UInt8) → Hints → Answer

-- A code of the generic category or of `dns_category`.
inductive ErrorCode
  | none
  | invalidArgument
  | generic (errno : Int)
  | dns (result : Int)
  deriving DecidableEq, Repr

def nativeFamily (p : Platform) : Version → UInt8
  | .v4          => afInet
  | .v6          => p.afInet6
  | .unspecified => 0

-- SOCK_STREAM and SOCK_DGRAM.
def nativeSocketType : Transport → Nat
  | .tcp => 1
  | .udp => 2
  | .any => 0

-- IPPROTO_TCP and IPPROTO_UDP.
def nativeProtocol : Transport → Nat
  | .tcp => 6
  | .udp => 17
  | .any => 0

def nativeHints (p : Platform) (version : Version) (transport : Transport) (flags : UInt32) : Hints where
  family := nativeFamily p version
  socktype := nativeSocketType transport
  protocol := nativeProtocol transport
  passive := hasDnsQueryFlag flags QueryFlags.passive
  canonname := hasDnsQueryFlag flags QueryFlags.canonicalName
  numericHost := hasDnsQueryFlag flags QueryFlags.numericHost
  numericServ := hasDnsQueryFlag flags QueryFlags.numericService

-- EAI_SYSTEM.
def eaiSystem (p : Platform) : Int :=
  if p.hasLen then 11 else -11

def makeResolveError (p : Platform) (result errno : Int) : ErrorCode :=
  if result = eaiSystem p ∧ errno ≠ 0 then .generic errno else .dns result

-- The loop over the results; `count` endpoints are in the output so far.
def storeResults (p : Platform) : List Addrinfo → List Endpoint → Nat → List Endpoint × Nat
  | [],      output, count => (output, count)
  | a :: as, output, count =>
    match makeEndpoint p a.addr a.addrlen with
    | none   => storeResults p as output count
    | some e =>
      if count ≥ output.length then (output, count)
      else storeResults p as (output.set count e) (count + 1)

structure Resolution where
  ec : ErrorCode
  output : List Endpoint
  count : Nat

def resolveDnsPlatform (p : Platform) (getaddrinfo : Getaddrinfo) (q : QueryView)
    (output : List Endpoint) (count : Nat) : Resolution :=
  if !q.valid then ⟨.invalidArgument, output, count⟩
  else
    match getaddrinfo q.host q.service (nativeHints p q.addressVersion q.transport q.flags) with
    | .failure result errno => ⟨makeResolveError p result errno, output, count⟩
    | .results l            =>
      let (output, count) := storeResults p l output count
      ⟨.none, output, count⟩

-- `dns_result_view`: the endpoints behind its pointer, which may be null.
structure ResultView where
  data : Option (List Endpoint)
  size : Nat
  covers : ∀ l, data = some l → l.length = size

def ResultView.valid (v : ResultView) : Bool :=
  v.data.isSome || v.size = 0

def ResultView.endpoints (v : ResultView) : List Endpoint :=
  v.data.getD []

def resolveDns {h s : Nat} (p : Platform) (getaddrinfo : Getaddrinfo) (q : DnsQuery h s)
    (result : ResultView) : Resolution :=
  if !result.valid then ⟨.invalidArgument, result.endpoints, 0⟩
  else resolveDnsPlatform p getaddrinfo q.view result.endpoints 0

-- What the calls on a query ask for: each of them overrides the calls before it.
structure Wanted where
  host : List UInt8 := []
  service : List UInt8 := []
  addressVersion : Version := .unspecified
  transport : Transport := .tcp
  flags : UInt32 := 0

namespace Wanted

def apply (w : Wanted) : QueryCall → Wanted
  | .setHost host           => { w with host }
  | .setService service     => { w with service }
  | .setPort port           => { w with service := toChars port.toNat }
  | .setAddressVersion v    => { w with addressVersion := v }
  | .setTransport transport => { w with transport }
  | .setFlags flags         => { w with flags }

-- A C function sees a text up to its first nul, and no empty one.
def text (value : List UInt8) : Option (List UInt8) :=
  if value = [] then none else some (value.takeWhile (· ≠ 0))

-- The first endpoints of the answer go to the front of the output, as many as there is room for.
def resolve (p : Platform) (getaddrinfo : Getaddrinfo) (hostCapacity serviceCapacity : Nat)
    (result : ResultView) (w : Wanted) : Resolution :=
  if ¬result.valid ∨ hostCapacity < w.host.length ∨ serviceCapacity < w.service.length then
    ⟨.invalidArgument, result.endpoints, 0⟩
  else
    match getaddrinfo (text w.host) (text w.service)
        (nativeHints p w.addressVersion w.transport w.flags) with
    | .failure code errno => ⟨makeResolveError p code errno, result.endpoints, 0⟩
    | .results l          =>
      let found := l.filterMap fun a => makeEndpoint p a.addr a.addrlen
      let count := min found.length result.endpoints.length
      ⟨.none, found.take count ++ result.endpoints.drop count, count⟩

end Wanted

section Refinement

variable {h s n : Nat} {p : Platform} {q : DnsQuery h s} {w : Wanted}

-- A field holds the text, or has refused it.
def TextField.Holds (f : TextField n) (value : List UInt8) : Prop :=
  if hv : value.length ≤ n then f = .put value hv else f = .refuse

theorem TextField.holds_assign {f : TextField n} {value : List UInt8} :
    (f.assign value).1.Holds value := by
  unfold assign Holds
  split <;> rfl

theorem TextField.holds_setPort {f : TextField n} {port : UInt16} :
    (f.setPort port).1.Holds (toChars port.toNat) := by
  unfold setPort Holds
  split <;> rfl

theorem TextField.Holds.valid {f : TextField n} {value : List UInt8} (hf : f.Holds value) :
    f.valid = decide (value.length ≤ n) := by
  unfold Holds at hf
  split at hf
  case isTrue hv  => simp [hf, put, hv]
  case isFalse hv => simp [hf, refuse, hv]

theorem TextField.toList_put {value : List UInt8} {hv : value.length ≤ n} :
    (put value hv).storage.toList = value ++ .replicate (n + 1 - value.length) 0 := by
  refine List.ext_getElem (by simp; omega) fun i h₁ h₂ => ?_
  simp only [put, Vector.getElem_toList, Vector.getElem_ofFn]
  by_cases hi : i < value.length
  case pos => simp [hi]
  case neg => simp [Nat.not_lt.mp hi]

theorem takeWhile_append_zeros {l : List UInt8} {k : Nat} :
    (l ++ .replicate k 0).takeWhile (· ≠ 0) = l.takeWhile (· ≠ 0) := by
  induction l
  case nil         => cases k <;> simp [List.replicate_succ]
  case cons a l hi => simp only [List.cons_append, List.takeWhile_cons, hi]

theorem TextField.Holds.cString {f : TextField n} {value : List UInt8} (hf : f.Holds value)
    (hv : value.length ≤ n) : f.cString = Wanted.text value := by
  rw [Holds, dif_pos hv] at hf
  subst hf
  rw [TextField.cString, toList_put, takeWhile_append_zeros, Wanted.text]
  simp [put]

theorem TextField.holds_init : ({} : TextField n).Holds [] := by
  have hs : Vector.replicate (n + 1) (0 : UInt8) = .ofFn fun i => ([] : List UInt8).getD i 0 :=
    Vector.ext fun i hi => by simp
  simp [Holds, put, hs]

-- Every call leaves a query that holds what has been asked for.
structure Asks (q : DnsQuery h s) (w : Wanted) : Prop where
  host           : q.host.Holds w.host
  service        : q.service.Holds w.service
  addressVersion : q.addressVersion = w.addressVersion
  transport      : q.transport = w.transport
  flags          : q.flags = w.flags

theorem asks_init : Asks ({} : DnsQuery h s) {} := by
  refine ⟨?_, ?_, rfl, rfl, rfl⟩ <;> exact TextField.holds_init

theorem Asks.apply (ha : Asks q w) (c : QueryCall) : Asks (q.apply c) (w.apply c) := by
  cases c
  case setHost           => exact { ha with host := TextField.holds_assign }
  case setService        => exact { ha with service := TextField.holds_assign }
  case setPort           => exact { ha with service := TextField.holds_setPort }
  case setAddressVersion => exact { ha with addressVersion := rfl }
  case setTransport      => exact { ha with transport := rfl }
  case setFlags          => exact { ha with flags := rfl }

theorem Asks.calls (ha : Asks q w) (cs : List QueryCall) :
    Asks (cs.foldl DnsQuery.apply q) (cs.foldl Wanted.apply w) := by
  induction cs generalizing q w
  case nil          => exact ha
  case cons c cs hi => exact hi (ha.apply c)

-- The endpoints found go behind the first `count` ones, until the output is full.
theorem storeResults_eq {as : List Addrinfo} {output : List Endpoint} {count : Nat}
    (hc : count ≤ output.length) :
    let found := as.filterMap fun a => makeEndpoint p a.addr a.addrlen
    let k := min found.length (output.length - count)
    storeResults p as output count =
      (output.take count ++ found.take k ++ output.drop (count + k), count + k) := by
  induction as generalizing output count
  case nil          => simp [storeResults]
  case cons a as hi =>
    unfold storeResults
    cases he : makeEndpoint p a.addr a.addrlen
    case none   => simpa [he] using hi hc
    case some e =>
      simp only [List.filterMap_cons, he, List.length_cons]
      split
      case isTrue hfull =>
        obtain rfl : count = output.length := by omega
        simp
      case isFalse hroom =>
        have htake : (output.set count e).take (count + 1) = output.take count ++ [e] := by
          rw [List.take_add_one, List.take_set_of_le le_rfl, List.getElem?_set_self (by omega)]
          rfl
        have hdrop : ∀ j, (output.set count e).drop (count + 1 + j) = output.drop (count + 1 + j) :=
            fun j =>
          List.drop_set_of_lt (by omega)
        have hmin : ∀ m, min (m + 1) (output.length - count) =
            min m (output.length - (count + 1)) + 1 := by omega
        rw [hi (by simp; omega), htake, hdrop, List.length_set, hmin, List.take_succ_cons]
        simp [Nat.add_assoc, Nat.add_comm 1]

theorem resolveDns_of_asks {getaddrinfo : Getaddrinfo} {result : ResultView} (ha : Asks q w) :
    resolveDns p getaddrinfo q result = w.resolve p getaddrinfo h s result := by
  have hvalid : q.valid = decide (w.host.length ≤ h ∧ w.service.length ≤ s) := by
    simp [DnsQuery.valid, ha.host.valid, ha.service.valid]
  unfold resolveDns Wanted.resolve resolveDnsPlatform
  simp only [DnsQuery.view, hvalid]
  cases hr : result.valid
  case false => simp
  case true  =>
    by_cases hfit : w.host.length ≤ h ∧ w.service.length ≤ s
    case neg =>
      have hover : h < w.host.length ∨ s < w.service.length := by omega
      simp [hfit, hover]
    case pos =>
      have hover : ¬(h < w.host.length ∨ s < w.service.length) := by omega
      simp only [hfit, hover, ha.host.cString hfit.1, ha.service.cString hfit.2, ha.addressVersion,
        ha.transport, ha.flags]
      simp only [and_self, decide_true, Bool.not_true, Bool.false_eq_true, not_true_eq_false, or_self,
        if_false]
      split
      · rfl
      · rw [storeResults_eq (Nat.zero_le _)]
        simp

-- Whatever calls have been made on a query, the resolver is asked for what the last of them have set,
-- and nothing of the texts before; the endpoints of its answer that can be read are stored in their
-- order from the front of the output on, as many as fit, and the rest of the output and the output of a
-- failed resolution are as they were.
theorem resolve_as_wanted (p : Platform) (getaddrinfo : Getaddrinfo) (hostCapacity serviceCapacity : Nat)
    (calls : List QueryCall) (result : ResultView) :
    resolveDns p getaddrinfo (calls.foldl DnsQuery.apply ({} : DnsQuery hostCapacity serviceCapacity))
      result =
    (calls.foldl Wanted.apply {}).resolve p getaddrinfo hostCapacity serviceCapacity result :=
  resolveDns_of_asks (asks_init.calls calls)

end Refinement

end Bnio.Net
