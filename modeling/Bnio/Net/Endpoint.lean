import Bnio.Lib.Bytes

namespace Bnio.Net

abbrev V4Bytes := Vector UInt8 4
abbrev V6Bytes := Vector UInt8 16

inductive Version
  | unspecified | v4 | v6
  deriving DecidableEq, Repr

-- `ip::address`. The bytes of the version an address is not of are zero.
@[ext]
structure Address where
  type : Version := .unspecified
  v4Bytes : V4Bytes := .replicate 4 0
  v6Bytes : V6Bytes := .replicate 16 0
  v4_zero : type ≠ .v4 → v4Bytes = .replicate 4 0 := by simp
  v6_zero : type ≠ .v6 → v6Bytes = .replicate 16 0 := by simp
  deriving DecidableEq

namespace Address

def setV4Bytes (_ : Address) (value : V4Bytes) : Address :=
  { type := .v4, v4Bytes := value }

def setV6 (_ : Address) (value : V6Bytes) : Address :=
  { type := .v6, v6Bytes := value }

-- The addresses made from nothing but their bytes.
def ofV4 (value : V4Bytes) : Address :=
  ({} : Address).setV4Bytes value

def ofV6 (value : V6Bytes) : Address :=
  ({} : Address).setV6 value

def isV4 (a : Address) : Bool :=
  a.type = .v4

def isV6 (a : Address) : Bool :=
  a.type = .v6

-- The null pointer is `none`.
def v4 (a : Address) : Option V4Bytes :=
  if a.isV4 then some a.v4Bytes else none

def v6 (a : Address) : Option V6Bytes :=
  if a.isV6 then some a.v6Bytes else none

end Address

-- `ip::endpoint`. An endpoint without an address has no port.
@[ext]
structure Endpoint where
  address : Address := {}
  port : UInt16 := 0
  portless : address.type = .unspecified → port = 0 := by simp
  deriving DecidableEq

namespace Endpoint

variable (e : Endpoint)

def version : Version :=
  e.address.type

def reset (_ : Endpoint) : Endpoint :=
  {}

def setAddress (address : Address) : Endpoint :=
  if h : address.type ≠ .unspecified then { address, port := e.port, portless := (absurd · h) }
  else e.reset

def setPort (port : UInt16) : Endpoint :=
  if h : e.address.type = .unspecified then e
  else { e with port, portless := (absurd · h) }

-- The constructor from an address and a port.
def ofAddress (address : Address) (port : UInt16) : Endpoint :=
  (({} : Endpoint).setAddress address).setPort port

end Endpoint
end Bnio.Net
