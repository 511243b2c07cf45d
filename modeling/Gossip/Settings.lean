import Gossip.Address
import Gossip.Error
import Gossip.Sha256
import Gossip.Time

/-!
How a node is set up. Zero stands for a default in most settings; normalising puts the default
in its place, derives the inbound buffer from the fan-out and the lifetime of members from the
heartbeat cycle, and refuses a packet size in which no packet could fit. A derived value that
leaves its type ends the program.
-/

set_option autoImplicit false
set_option relaxedAutoImplicit false

namespace Gossip

/-- How packets leave and enter a node. -/
inductive Mode where
  | udp
  | tcp
  | tc
  | xdp
  deriving DecidableEq, Repr

namespace Mode

/-- Whether broadcasts go out in batches through an offload program. -/
def isOffload : Mode → Bool
  | .udp | .tcp => false
  | .tc | .xdp => true

/-- Whether inbound units are whole frames. -/
def receivesFrames : Mode → Bool
  | .xdp => true
  | _ => false

def display : Mode → String
  | .udp => "UDP"
  | .tcp => "TCP"
  | .tc => "TC"
  | .xdp => "XDP"

/-- A mode by its name, in letters of either case. -/
def parse (text : String) : Except Error Mode :=
  let name := String.ofList (text.toList.map Char.toUpper)
  if name = "UDP" then .ok .udp
  else if name = "TCP" then .ok .tcp
  else if name = "TC" then .ok .tc
  else if name = "XDP" then .ok .xdp
  else .error (.unknownMode name)

end Mode

/-- A secret as it travels: its digest, where no secret stays no secret. -/
def hashSecret (secret : String) : String :=
  if secret = "" then "" else Sha256.hexDigest (Utf8.encode secret)

/-- The default fan-out. -/
def Settings.defaultAmount : UInt64 := 30

/-- The default time between two heartbeats. -/
def Settings.defaultCycle : Span := .ofSeconds 6

/-- The default packet size; units of this size or more are refused. -/
def Settings.defaultSize : UInt64 := 16384

/-- The settings of a node. -/
structure Settings where
  listen : Option Ip := none
  amount : UInt64 := Settings.defaultAmount
  cycle : Span := Settings.defaultCycle
  buffer : UInt64 := 0
  size : UInt64 := Settings.defaultSize
  lifetime : Span := .zero
  secret : String := ""
  mode : Mode := .udp
  mask : Ipv4 := ⟨255, 255, 255, 0⟩
  gateway : String := ""
  deriving DecidableEq

namespace Settings

/-- The smallest packet size that is accepted. -/
def leastSize : UInt64 := 64

def orDefault (default n : UInt64) : UInt64 := if n = 0 then default else n

def cycleOrDefault (cycle : Span) : Span := if cycle.nanos = 0 then defaultCycle else cycle

/-- Room for three rounds of the fan-out. -/
def derivedBuffer (amount : UInt64) : Except Error UInt64 :=
  if amount.toNat * 3 < UInt64.size then .ok (amount * 3) else .error .overflow

/-- Five cycles and two seconds. -/
def derivedLifetime (cycle : Span) : Except Error Span :=
  match (cycle.times? 5).bind (·.plus? (.ofSeconds 2)) with
  | some span => .ok span
  | none => .error .overflow

def bufferOrDerived (amount buffer : UInt64) : Except Error UInt64 :=
  if buffer = 0 then derivedBuffer amount else .ok buffer

def lifetimeOrDerived (cycle lifetime : Span) : Except Error Span :=
  if lifetime.nanos ≤ cycle.nanos then derivedLifetime cycle else .ok lifetime

/-- The settings with every default and derived value in its place. -/
def normalize (s : Settings) : Except Error Settings :=
  let amount := orDefault defaultAmount s.amount
  let cycle := cycleOrDefault s.cycle
  match bufferOrDerived amount s.buffer with
  | .error error => .error error
  | .ok buffer =>
    let size := orDefault defaultSize s.size
    match lifetimeOrDerived cycle s.lifetime with
    | .error error => .error error
    | .ok lifetime =>
      if size < leastSize then .error (.packetTooSmall size)
      else .ok { s with amount, cycle, buffer, size, lifetime }

end Settings

end Gossip
