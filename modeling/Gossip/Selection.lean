import Gossip.Infected

/-!
Choosing whom a wave reaches next: the first members of a list that are neither this node nor
infected, up to a given number. Each one is marked as it is chosen, so no peer is chosen twice.
-/

set_option autoImplicit false
set_option relaxedAutoImplicit false

namespace Gossip

/-- Whether a wave passes over a member. -/
def passesOver (self : Member) (infected : Infected) (m : Member) : Bool :=
  m.SamePeer self || infected.contains m

/-- The members a wave goes to next, and the marks it then carries. -/
def selectTargets (self : Member) : List Member → Nat → Infected → List Member × Infected
  | [], _, infected => ([], infected)
  | _ :: _, 0, infected => ([], infected)
  | m :: rest, amount + 1, infected =>
    if passesOver self infected m then selectTargets self rest (amount + 1) infected
    else
      let (targets, infected) := selectTargets self rest amount (infected.insert m)
      (m :: targets, infected)

end Gossip
