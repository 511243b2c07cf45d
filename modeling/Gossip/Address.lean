/-!
Network addresses and how they are written. An IPv4 address is four decimal octets. An IPv6
address is eight hexadecimal groups, where the first of the longest runs of at least two zero
groups gives way to a double colon; an IPv4 address mapped into IPv6 keeps its dotted form.
-/

set_option autoImplicit false
set_option relaxedAutoImplicit false

namespace Gossip

/-- Four octets, the most significant first. -/
structure Ipv4 where
  a : UInt8
  b : UInt8
  c : UInt8
  d : UInt8
  deriving DecidableEq, Repr

/-- Eight groups of 16 bits, the most significant first. -/
structure Ipv6 where
  groups : List UInt16
  length_eq : groups.length = 8 := by rfl
  deriving DecidableEq, Repr

inductive Ip where
  | v4 (address : Ipv4)
  | v6 (address : Ipv6)
  deriving DecidableEq, Repr

/-- An address, an optional scope of it, and a port. -/
structure SocketAddress where
  ip : Ip
  port : UInt16
  scope : UInt32 := 0
  deriving DecidableEq, Repr

def decimal (n : Nat) : List Char := Nat.toDigits 10 n

def hexadecimal (n : Nat) : List Char := Nat.toDigits 16 n

namespace Ipv4

def chars (ip : Ipv4) : List Char :=
  decimal ip.a.toNat ++ '.' :: decimal ip.b.toNat ++ '.' :: decimal ip.c.toNat ++
    '.' :: decimal ip.d.toNat

/-- The part of an address that a mask keeps. -/
def masked (ip mask : Ipv4) : Ipv4 :=
  ⟨ip.a &&& mask.a, ip.b &&& mask.b, ip.c &&& mask.c, ip.d &&& mask.d⟩

/-- The first two octets as one group of an IPv6 address. -/
def highGroup (ip : Ipv4) : UInt16 := .ofNat (ip.a.toNat * 256 + ip.b.toNat)

/-- The last two octets as one group of an IPv6 address. -/
def lowGroup (ip : Ipv4) : UInt16 := .ofNat (ip.c.toNat * 256 + ip.d.toNat)

def ofGroups (high low : UInt16) : Ipv4 :=
  ⟨.ofNat (high.toNat / 256), .ofNat (high.toNat % 256), .ofNat (low.toNat / 256),
    .ofNat (low.toNat % 256)⟩

end Ipv4

namespace Ipv6

def ofList? (groups : List UInt16) : Option Ipv6 :=
  if h : groups.length = 8 then some ⟨groups, h⟩ else none

/-- The IPv4 address that is mapped into this one, if there is one. -/
def mapped? (ip : Ipv6) : Option Ipv4 :=
  match ip.groups with
  | [0, 0, 0, 0, 0, 0xFFFF, high, low] => some (Ipv4.ofGroups high low)
  | _ => none

/-- The zero groups at the head of a list. -/
def zeroRun (groups : List UInt16) : Nat := (groups.takeWhile (· == 0)).length

/-- The start and the length of the first of the longest runs of zero groups. -/
def longestZeros : List UInt16 → Nat × Nat
  | [] => (0, 0)
  | g :: rest =>
    let (start, size) := longestZeros rest
    let here := zeroRun (g :: rest)
    if size ≤ here then (0, here) else (start + 1, size)

/-- Groups separated by colons. -/
def joinGroups (groups : List UInt16) : List Char :=
  ((groups.map fun g ↦ hexadecimal g.toNat).intersperse [':']).flatten

def chars (ip : Ipv6) : List Char :=
  match ip.mapped? with
  | some v4 => ':' :: ':' :: 'f' :: 'f' :: 'f' :: 'f' :: ':' :: v4.chars
  | none =>
    let (start, size) := longestZeros ip.groups
    if 1 < size then
      joinGroups (ip.groups.take start) ++ ':' :: ':' ::
        joinGroups (ip.groups.drop (start + size))
    else joinGroups ip.groups

end Ipv6

namespace Ip

def chars : Ip → List Char
  | .v4 ip => ip.chars
  | .v6 ip => ip.chars

def display (ip : Ip) : String := String.ofList ip.chars

/-- The IPv4 address that an address is, or is the mapped form of. -/
def ipv4? : Ip → Option Ipv4
  | .v4 ip => some ip
  | .v6 ip => ip.mapped?

end Ip

/-- An IPv6 address stands in brackets in front of its port. -/
def SocketAddress.display (s : SocketAddress) : String :=
  let port := ':' :: decimal s.port.toNat
  match s.ip with
  | .v4 ip => String.ofList (ip.chars ++ port)
  | .v6 ip =>
    let scope := if s.scope = 0 then [] else '%' :: decimal s.scope.toNat
    String.ofList ('[' :: ip.chars ++ scope ++ ']' :: port)

end Gossip
