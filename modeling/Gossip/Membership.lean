import Gossip.Address.Parser
import Gossip.Member
import Gossip.Table
import Gossip.Time

/-!
The members a node knows of. Each value of a member is stored with the second it was last seen.
Nothing sweeps the store: entries older than the lifetime are dropped by the look at the live
members that finds them too old. The lifetime counts in whole seconds, taken into 64 signed
bits, so that a lifetime of 2^63 seconds or more is negative. A member outside the local subnet
is stored with the link-layer address of the gateway, through which it is reached.
-/

set_option autoImplicit false
set_option relaxedAutoImplicit false

namespace Gossip

/-- The local member, how long and by which rules others are kept, and the second at which each
stored value was last seen. -/
structure Membership where
  self : Member
  lifetime : Span
  mask : Ipv4
  gateway : String
  seen : Table Member Int
  deriving DecidableEq

namespace Membership

/-- A store that knows only its own member. -/
def start (self : Member) (lifetime : Span) (mask : Ipv4) (gateway : String) (now : Instant) :
    Membership :=
  { self := self.withAddr, lifetime, mask, gateway,
    seen := Table.empty.insert self.withAddr now.seconds }

/-- The value under which a member is stored. -/
def normalize (m : Membership) (member : Member) : Member :=
  let member := member.withAddr
  if sameSubnet m.mask member.addr m.self.addr then member
  else { member with mac := m.gateway }

/-- Stores a member as seen now, and tells whether this value of it is new. -/
def set (m : Membership) (member : Member) (now : Instant) : Membership × Bool :=
  let member := m.normalize member
  ({ m with seen := m.seen.insert member now.seconds }, !m.seen.contains member)

/-- Refreshes the local member. -/
def touch (m : Membership) (now : Instant) : Membership :=
  { m with seen := m.seen.insert m.self now.seconds }

/-- The lifetime in seconds, as a signed number of 64 bits. -/
def ttl (m : Membership) : Int := Int.bmod m.lifetime.seconds UInt64.size

/-- Whether an entry that was last seen at a second is still alive. -/
def isLive (m : Membership) (now : Instant) (lastSeen : Int) : Bool :=
  now.seconds - lastSeen ≤ m.ttl

/-- Drops the entries that are too old. -/
def expire (m : Membership) (now : Instant) : Membership :=
  { m with seen := m.seen.filter fun e ↦ m.isLive now e.2 }

/-- The stored members, whether they are too old or not. -/
def members (m : Membership) : List Member := m.seen.keys

/-- The members among some that are not this node. -/
def others (m : Membership) (members : List Member) : List Member :=
  members.filter fun member ↦ ¬member.SamePeer m.self

def contains (m : Membership) (member : Member) : Bool := m.seen.contains member

def size (m : Membership) : Nat := m.seen.size

end Membership

/-- What an operation finds when it looks around: the time, and an order in which live members
are listed. The store promises no order, so any arrangement of the members may be seen. -/
structure Moment where
  now : Instant
  arrange : List Member → List Member := id
  arrange_perm : ∀ members, (arrange members).Perm members := by exact fun _ ↦ .refl _

/-- The live members as they are listed at a moment, and the store without the other ones. -/
def Membership.look (m : Membership) (moment : Moment) : Membership × List Member :=
  let m := m.expire moment.now
  (m, moment.arrange m.members)

end Gossip
