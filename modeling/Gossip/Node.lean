import Gossip.Batch
import Gossip.Membership
import Gossip.Packet
import Gossip.Settings

/-!
A node at rest: its settings, the members it knows, the metadata it holds, and the ring of batch
keys if it broadcasts in batches. Building a node normalises its settings and demands an offload
program for the modes that need one; the other modes leave the program alone.
-/

set_option autoImplicit false
set_option relaxedAutoImplicit false

namespace Gossip

/-- A node at rest. -/
structure Node where
  settings : Settings
  membership : Membership
  metadata : Metadata := {}
  batching : Option KeyRing := none
  deriving DecidableEq

namespace Node

/-- This node as its cluster knows it. -/
def self (node : Node) : Member := node.membership.self

/-- A node that knows only itself, or the reason why it cannot be built. -/
def build (self : Member) (settings : Settings) (offload : Bool) (now : Instant) :
    Except Error Node :=
  match settings.normalize with
  | .error error => .error error
  | .ok settings =>
    if settings.mode.isOffload ∧ offload = false then
      .error (.offloadMissing settings.mode.display)
    else
      .ok
        { settings
          membership := .start self settings.lifetime settings.mask settings.gateway now
          batching := if settings.mode.isOffload then some .fresh else none }

end Node

end Gossip
