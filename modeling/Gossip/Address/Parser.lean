import Gossip.Address
import Gossip.Error

/-!
Reading addresses. Octets are decimal without leading zeros; groups are one to four hexadecimal
digits of either case; a double colon stands for at least one zero group, and the last two
groups may be a dotted IPv4 address. Every function takes the characters that are left and
gives back what it did not use; whole texts are accepted only when nothing is left.
-/

set_option autoImplicit false
set_option relaxedAutoImplicit false

namespace Gossip.Address

/-- A reader of characters that gives its value with the characters behind it. -/
abbrev Parser (α : Type) := List Char → Option (α × List Char)

def hexDigit? (c : Char) : Option Nat :=
  let n := c.toNat
  if 48 ≤ n ∧ n ≤ 57 then some (n - 48)
  else if 97 ≤ n ∧ n ≤ 102 then some (n - 87)
  else if 65 ≤ n ∧ n ≤ 70 then some (n - 55)
  else none

def digit? (base : Nat) (c : Char) : Option Nat :=
  match hexDigit? c with
  | some n => if n < base then some n else none
  | none => none

/-- The run of digits at the head of a text. -/
def run (base : Nat) : List Char → List Nat × List Char
  | [] => ([], [])
  | c :: rest =>
    match digit? base c with
    | some n =>
      let (digits, after) := run base rest
      (n :: digits, after)
    | none => ([], c :: rest)

/-- A number of at least one digit and at most `most`, below a bound. -/
def number (base most bound : Nat) (zeros : Bool) : Parser Nat := fun s ↦
  let (digits, rest) := run base s
  let n := digits.foldl (fun n d ↦ n * base + d) 0
  if digits = [] ∨ most < digits.length ∨ bound ≤ n then none
  else if zeros = false ∧ digits.head? = some 0 ∧ 1 < digits.length then none
  else some (n, rest)

/-- A number below 256 of at most three digits, without leading zeros. -/
def octet : Parser UInt8 := fun s ↦
  (number 10 3 256 false s).map fun (n, rest) ↦ (.ofNat n, rest)

/-- One to four hexadecimal digits. -/
def group : Parser UInt16 := fun s ↦
  (number 16 4 65536 true s).map fun (n, rest) ↦ (.ofNat n, rest)

/-- A port may be written with leading zeros. -/
def port : Parser UInt16 := fun s ↦
  (number 10 s.length 65536 true s).map fun (n, rest) ↦ (.ofNat n, rest)

def char (c : Char) : List Char → Option (List Char)
  | [] => none
  | d :: rest => if d = c then some rest else none

/-- Four octets with points between them. -/
def ipv4 : Parser Ipv4 := fun s ↦ do
  let (a, s) ← octet s
  let s ← char '.' s
  let (b, s) ← octet s
  let s ← char '.' s
  let (c, s) ← octet s
  let s ← char '.' s
  let (d, s) ← octet s
  return (⟨a, b, c, d⟩, s)

/-- A colon in front of every group but the first. -/
def separated {α : Type} (first : Bool) (parser : Parser α) : Parser α := fun s ↦
  if first then parser s
  else
    match char ':' s with
    | some rest => parser rest
    | none => none

/-- Up to `room` groups, the last two possibly dotted; tells whether they were. -/
def groups : Nat → Bool → List Char → List UInt16 × Bool × List Char
  | 0, _, s => ([], false, s)
  | room + 1, first, s =>
    match if room = 0 then none else separated first ipv4 s with
    | some (ip, rest) => ([ip.highGroup, ip.lowGroup], true, rest)
    | none =>
      match separated first group s with
      | some (g, rest) =>
        let (gs, dotted, rest) := groups room false rest
        (g :: gs, dotted, rest)
      | none => ([], false, s)

/-- Eight groups, or fewer around one double colon. The groups on its two sides number at most
seven; zeros take the place of the ones that are missing. -/
def ipv6 : Parser Ipv6 := fun s ↦
  let (head, dotted, rest) := groups 8 true s
  if head.length = 8 then (Ipv6.ofList? head).map (·, rest)
  else if dotted then none
  else
    match char ':' rest with
    | none => none
    | some rest =>
      match char ':' rest with
      | none => none
      | some rest =>
        let (tail, _, rest) := groups (7 - head.length) true rest
        let zeros := List.replicate (8 - head.length - tail.length) 0
        (Ipv6.ofList? (head ++ zeros ++ tail)).map (·, rest)

def ip : Parser Ip := fun s ↦
  match ipv4 s with
  | some (ip, rest) => some (.v4 ip, rest)
  | none => (ipv6 s).map fun (ip, rest) ↦ (.v6 ip, rest)

/-- A parser that has to use the whole text. -/
def whole {α : Type} (parser : Parser α) (text : String) : Option α :=
  match parser text.toList with
  | some (a, []) => some a
  | _ => none

/-- An IPv4 address, a colon and a port. -/
def socketV4 : Parser SocketAddress := fun s ↦ do
  let (ip, s) ← ipv4 s
  let s ← char ':' s
  let (port, s) ← port s
  return ({ ip := .v4 ip, port }, s)

/-- A scope is optional, but a percent sign has to be followed by one. -/
def scope (s : List Char) : Option (UInt32 × List Char) :=
  match char '%' s with
  | none => some (0, s)
  | some rest => (number 10 rest.length UInt32.size true rest).map fun (n, rest) ↦ (.ofNat n, rest)

/-- An IPv6 address in brackets, with an optional scope, then a colon and a port. -/
def socketV6 : Parser SocketAddress := fun s ↦ do
  let s ← char '[' s
  let (ip, s) ← ipv6 s
  let (scope, s) ← scope s
  let s ← char ']' s
  let s ← char ':' s
  let (port, s) ← port s
  return ({ ip := .v6 ip, port, scope }, s)

def socket : Parser SocketAddress := fun s ↦
  match socketV4 s with
  | some answer => some answer
  | none => socketV6 s

end Address

namespace Ip

def parse? (text : String) : Option Ip := Address.whole Address.ip text

end Ip

def Ipv4.parse? (text : String) : Option Ipv4 := Address.whole Address.ipv4 text

def SocketAddress.parse? (text : String) : Option SocketAddress :=
  Address.whole Address.socket text

/-- The socket address of a peer that is known by the text of its address. -/
def resolve (addr : String) (port : UInt16) : Except Error SocketAddress :=
  match Ip.parse? addr with
  | some ip => .ok { ip, port }
  | none => .error (.transport ("Invalid address '" ++ addr ++ "': invalid IP address syntax"))

/-- Two addresses share a network if both are IPv4, mapped or not, and agree under the mask, or
if neither is. A text that is no address counts as not being IPv4. -/
def sameSubnet (mask : Ipv4) (first second : String) : Bool :=
  match (Ip.parse? first).bind Ip.ipv4?, (Ip.parse? second).bind Ip.ipv4? with
  | some a, some b => a.masked mask = b.masked mask
  | none, none => true
  | _, _ => false

end Gossip
