import Gossip.Offload
import Gossip.Rate

/-!
A network in memory. Endpoints are registered by address and port, and each has a bounded inbox
that its holder reads. Like a network of datagrams it drops what it cannot deliver: packets to
nobody, to a full inbox, to an inbox whose holder is gone, and those that the loss rate claims.
Every delivery that is tried is counted once, as delivered or as dropped. An endpoint with an
offload program attached copies a packet that carries a registered key to all its targets.
-/

set_option autoImplicit false
set_option relaxedAutoImplicit false

namespace Gossip

/-- An inbox, whose holder may be gone. -/
structure Inbox where
  key : String
  capacity : Nat
  frames : Bool
  queue : List Bytes := []
  held : Bool := true
  deriving DecidableEq

/-- The inboxes by number, the number under which each address is registered, the loss rate
with the draws that decide at a rate between the extremes, and the counters. -/
structure Fabric where
  inboxes : List Inbox := []
  routes : Table String Nat := .empty
  rate : Rate := .zero false
  draws : Nat → Bool := fun _ ↦ false
  delivered : Nat := 0
  dropped : Nat := 0

/-- What a holder that waits for a unit finds. -/
inductive Receipt where
  | unit (bytes : Bytes)
  | pending
  | disconnected
  deriving DecidableEq

namespace Inbox

/-- Whether a unit can be put in. -/
def accepts (box : Inbox) : Bool := box.held && box.queue.length < box.capacity

/-- A unit as the holder of an inbox gets it. -/
def unitOf (box : Inbox) (bytes : Bytes) : Bytes := if box.frames then frame bytes else bytes

/-- Puts a unit in, whether there is room or not. -/
def push (box : Inbox) (bytes : Bytes) : Inbox :=
  { box with queue := box.queue ++ [box.unitOf bytes] }

end Inbox

namespace Fabric

/-- Registers an endpoint, in the place of one that has the same address. -/
def register (f : Fabric) (addr : String) (port : UInt16) (capacity : Nat) (frames : Bool) :
    Nat × Fabric :=
  let key := peerKey addr port
  (f.inboxes.length,
    { f with
      inboxes := f.inboxes ++ [{ key, capacity := max capacity 1, frames }]
      routes := f.routes.insert key f.inboxes.length })

/-- The most units an inbox can be made for. -/
def capacityLimit : Nat := UInt64.size / 8 - 1

/-- Registers an endpoint, if an inbox of its capacity can be made. -/
def openEndpoint (f : Fabric) (addr : String) (port : UInt16) (capacity : Nat) (frames : Bool) :
    Except Error (Nat × Fabric) :=
  if capacityLimit < capacity then .error .overflow
  else .ok (f.register addr port capacity frames)

/-- Takes an endpoint off the network; what it has received stays to be read. -/
def disconnect (f : Fabric) (addr : String) (port : UInt16) : Fabric :=
  { f with routes := f.routes.erase (peerKey addr port) }

/-- Whether the next delivery is lost. -/
def loses (f : Fabric) : Bool :=
  match f.rate with
  | .zero _ => false
  | .between _ => f.draws (f.delivered + f.dropped)
  | .one => true

/-- The number of the inbox that takes a packet to a key. -/
def taker? (f : Fabric) (key : String) : Option Nat :=
  if f.loses then none
  else
    match f.routes.get? key with
    | none => none
    | some i =>
      match f.inboxes[i]? with
      | none => none
      | some box => if box.accepts then some i else none

/-- Tries one delivery, and counts it. -/
def deliver (f : Fabric) (key : String) (bytes : Bytes) : Fabric :=
  match f.taker? key with
  | none => { f with dropped := f.dropped + 1 }
  | some i =>
    { f with
      inboxes := f.inboxes.modify i (·.push bytes)
      delivered := f.delivered + 1 }

/-- Delivers a stamped copy to every target, the first of which has the given index. -/
def replicate (bytes : Bytes) : Nat → List Target → Fabric → Fabric
  | _, [], f => f
  | i, target :: rest, f =>
    replicate bytes (i + 1) rest (f.deliver target.key (stampReplica i bytes))

/-- Sends a packet from an endpoint that may have an offload program attached. -/
def send (f : Fabric) (attached : Option Offload) (s : Send) : Fabric :=
  match attached.bind (·.replicas? s.bytes) with
  | some targets => replicate s.bytes 0 targets f
  | none => f.deliver s.key s.bytes

/-- The unit that waits longest in an inbox. -/
def take (f : Fabric) (i : Nat) : Option Bytes × Fabric :=
  match f.inboxes[i]? with
  | some { queue := unit :: rest, .. } =>
    (some unit, { f with inboxes := f.inboxes.modify i ({ · with queue := rest }) })
  | _ => (none, f)

/-- All units that wait in an inbox, the longest waiting first. -/
def takeAll (f : Fabric) (i : Nat) : List Bytes × Fabric :=
  ((f.inboxes[i]?.map (·.queue)).getD [],
    { f with inboxes := f.inboxes.modify i ({ · with queue := [] }) })

/-- Whether an inbox can still get units. -/
def isRouted (f : Fabric) (i : Nat) : Bool := f.routes.entries.any fun e ↦ e.2 = i

/-- Takes a unit, or tells whether one may still come. -/
def receive (f : Fabric) (i : Nat) : Receipt × Fabric :=
  match f.take i with
  | (some unit, f) => (.unit unit, f)
  | (none, f) => (if f.isRouted i then .pending else .disconnected, f)

/-- The error of a holder that waits for more after the last unit. -/
def disconnectedError (key : String) : Error :=
  .transport ("Endpoint " ++ key ++ " disconnected")

/-- The holder of an inbox goes away. -/
def drop (f : Fabric) (i : Nat) : Fabric :=
  { f with inboxes := f.inboxes.modify i ({ · with held := false, queue := [] }) }

/-- The link of an endpoint next to an offload program, which may be attached to it. -/
def link (attached : Bool) : Link (Fabric × Offload) where
  send s w := (.ok (), w.1.send (if attached then some w.2 else none) s, w.2)
  register key targets w :=
    match w.2.register key targets with
    | .ok o => (.ok (), w.1, o)
    | .error error => (.error error, w)
  pin version w := (.ok (), w.1, w.2.pin version)

end Fabric

end Gossip
