import Gossip.Address.Parser
import Gossip.Link

/-!
Packets over sockets. A datagram is received into a buffer of the packet size, and one that
fills the buffer may have been cut, so it is refused; a packet size that no buffer can have ends
the program. A stream carries one packet up to its end; reading stops one byte behind the packet
size. Both refuse units of the packet size or more and pass on nothing that was cut. What a host
can bind and reach decides how sending and binding fail.
-/

set_option autoImplicit false
set_option relaxedAutoImplicit false

namespace Gossip

namespace Socket

/-- What a buffer of the given size holds of a datagram. -/
def receiveDatagram (size : Nat) (datagram : Bytes) : Except Error Bytes :=
  let got := datagram.take size
  if size ≤ got.length then .error (.oversized got.length size) else .ok got

/-- The most bytes that a buffer can have. -/
def bufferLimit : Nat := UInt64.size / 2 - 1

/-- Receives one datagram into a buffer of the packet size, if there can be such a buffer. -/
def receive (size : UInt64) (datagram : Bytes) : Except Error Bytes :=
  if bufferLimit < size.toNat then .error .overflow else receiveDatagram size.toNat datagram

/-- The first bytes of a stream that comes in pieces, as many as there is room for. -/
def gather (room : Nat) : List Bytes → Bytes
  | [] => []
  | piece :: rest => piece.take room ++ gather (room - piece.length) rest

/-- A stream: its pieces, and whether it ended in time. -/
structure Stream where
  pieces : List Bytes
  ended : Bool := true

/-- Reads the packet of one stream from a peer. The room is one byte more than the packet
size, which has to fit 64 bits. -/
def readStream (size : UInt64) (peer : String) (stream : Stream) : Except Error Bytes :=
  if UInt64.size ≤ size.toNat + 1 then .error .overflow
  else
    let got := gather (size.toNat + 1) stream.pieces
    if stream.ended = false ∧ got.length ≤ size.toNat then
      .error (.transport ("Timed out reading from " ++ peer))
    else if size.toNat ≤ got.length then .error (.oversized got.length size.toNat)
    else if got = [] then
      .error (.transport ("Connection from " ++ peer ++ " closed without data"))
    else .ok got

/-- Why the system refuses a socket operation. -/
inductive Refusal where
  | messageTooLong
  | familyUnsupported
  | addressInUse
  | addressNotAvailable
  | networkUnreachable
  deriving DecidableEq, Repr

def Refusal.message : Refusal → String
  | .messageTooLong => "Message too long (os error 90)"
  | .familyUnsupported => "Address family not supported by protocol (os error 97)"
  | .addressInUse => "Address already in use (os error 98)"
  | .addressNotAvailable => "Cannot assign requested address (os error 99)"
  | .networkUnreachable => "Network is unreachable (os error 101)"

/-- What a host lets its sockets do: the addresses they may be bound to, those to which it has
a route for datagrams, and those to which it can connect. -/
structure Host where
  binds : Ip → Bool
  routes : Ip → Bool
  connects : Ip → Bool

/-- A host without any interface. What may be bound is what no interface has to own, and a
datagram to no address at all stays on the host; nothing else can be reached. -/
def Host.isolated : Host where
  binds
    | .v4 _ => true
    | .v6 ip => ip.mapped?.isSome || ip.groups.all (· == 0)
  routes target := target = .v4 ⟨0, 0, 0, 0⟩
  connects _ := false

/-- The longest datagram that a socket takes. -/
def datagramLimit : Nat := 65535

/-- The longest datagram that leaves in a packet of a family. -/
def packetLimit : Ip → Nat
  | .v4 _ => 65507
  | .v6 _ => 65527

/-- A datagram leaves only from an address of the family of its target. -/
def sameFamily : Ip → Ip → Bool
  | .v4 _, .v4 _ => true
  | .v6 _, .v6 _ => true
  | _, _ => false

/-- Why a datagram from one address to another is refused, if it is. -/
def refuseDatagram (host : Host) (source target : Ip) (size : Nat) : Option Refusal :=
  if datagramLimit < size then some .messageTooLong
  else if !sameFamily source target then some .familyUnsupported
  else if !host.routes target then some .networkUnreachable
  else if packetLimit target < size then some .messageTooLong
  else none

def sendError (target : SocketAddress) (refusal : Refusal) : Error :=
  .transport ("Failed to send to " ++ target.display ++ ": " ++ refusal.message)

def connectError (target : SocketAddress) (refusal : Refusal) : Error :=
  .transport ("Failed to connect to " ++ target.display ++ ": " ++ refusal.message)

def bindError (address : SocketAddress) (refusal : Refusal) : Error :=
  .transport ("Failed to bind to " ++ address.display ++ ": " ++ refusal.message)

/-- Sends one datagram to the text of an address. -/
def sendDatagram (host : Host) (source : Ip) (s : Send) : Except Error Unit :=
  match resolve s.addr s.port with
  | .error error => .error error
  | .ok target =>
    match refuseDatagram host source target.ip s.bytes.length with
    | some refusal => .error (sendError target refusal)
    | none => .ok ()

/-- Connects to the text of an address, to send one packet there. -/
def connect (host : Host) (s : Send) : Except Error Unit :=
  match resolve s.addr s.port with
  | .error error => .error error
  | .ok target =>
    if host.connects target.ip then .ok () else .error (connectError target .networkUnreachable)

/-- Binds an address, of which `taken` tells whether somebody has it. -/
def bind (host : Host) (address : SocketAddress) (taken : Bool) : Except Error Unit :=
  if taken then .error (bindError address .addressInUse)
  else if host.binds address.ip then .ok ()
  else .error (bindError address .addressNotAvailable)

/-- The link of a host whose packets leave as datagrams, without an offload program. -/
def datagramLink (host : Host) (source : Ip) : Link Unit where
  send s w := (sendDatagram host source s, w)
  register _ _ := Action.skip
  pin _ := Action.skip

end Socket

end Gossip
