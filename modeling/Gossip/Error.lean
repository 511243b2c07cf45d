import Gossip.Json.Reader

/-!
What can go wrong, by cause. Each cause has a kind, under which callers tell errors apart, and
a message. Arithmetic that leaves its type has no message: it ends the program.
-/

set_option autoImplicit false
set_option relaxedAutoImplicit false

namespace Gossip

/-- Everything that can go wrong. -/
inductive Error where
  | unreadable (fault : Json.Fault)
  | unknownType (tag : UInt8)
  | noPayload (size : Nat)
  | oversized (size limit : Nat)
  | batchRefused (batch : UInt16) (reason : String)
  | tooManyTargets (count limit : Nat)
  | transport (cause : String)
  | socket (cause : String)
  | alreadyRunning
  | notJoined
  | unknownMode (text : String)
  | packetTooSmall (size : UInt64)
  | offloadMissing (mode : String)
  | overflow
  deriving DecidableEq, Repr

namespace Error

/-- The kinds under which callers tell errors apart. -/
inductive Kind where
  | serialization
  | invalidPacket
  | oversized
  | offload
  | tooManyTargets
  | transport
  | socket
  | alreadyRunning
  | notJoined
  | invalidSettings
  | overflow
  deriving DecidableEq, Repr

def kind : Error → Kind
  | .unreadable _ => .serialization
  | .unknownType _ | .noPayload _ => .invalidPacket
  | .oversized _ _ => .oversized
  | .batchRefused _ _ => .offload
  | .tooManyTargets _ _ => .tooManyTargets
  | .transport _ => .transport
  | .socket _ => .socket
  | .alreadyRunning => .alreadyRunning
  | .notJoined => .notJoined
  | .unknownMode _ | .packetTooSmall _ | .offloadMissing _ => .invalidSettings
  | .overflow => .overflow

def message : Error → String
  | .unreadable .early => "Serialization error: the text ends too early"
  | .unreadable .malformed => "Serialization error: malformed text"
  | .unreadable .mismatched => "Serialization error: a value of the wrong kind"
  | .unknownType tag => "Invalid packet: unknown packet type " ++ toString tag.toNat
  | .noPayload size => "Invalid packet: frame of " ++ toString size ++ " bytes has no payload"
  | .oversized size limit =>
    "Datagram too large: " ++ toString size ++ " bytes (limit: " ++ toString limit ++ ")"
  | .batchRefused batch reason =>
    "Failed to register batch " ++ toString batch.toNat ++ " with offload: " ++ reason
  | .tooManyTargets count limit =>
    "Too many targets: " ++ toString count ++ " (max: " ++ toString limit ++ ")"
  | .transport cause => "Transport error: " ++ cause
  | .socket cause => "I/O error: " ++ cause
  | .alreadyRunning => "Heartbeat task already running"
  | .notJoined => "Node has not joined the cluster"
  | .unknownMode text =>
    "Invalid configuration: unknown transport mode '" ++ text ++
      "' (expected UDP, TCP, TC or XDP)"
  | .packetTooSmall size =>
    "Invalid configuration: packet size " ++ toString size.toNat ++
      " is too small to hold a packet"
  | .offloadMissing mode => "Invalid configuration: " ++ mode ++ " mode needs an offload program"
  | .overflow => "arithmetic overflow"

end Error

end Gossip
