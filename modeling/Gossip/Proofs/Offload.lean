import Gossip.Fabric
import Gossip.Journal

/-!
An offload program next to a transport. The transport may be of any kind: whether a packet goes out
is its affair, and it may look at the tables of the program to copy the packet. It never changes
them; only registrations and pins do.
-/

set_option autoImplicit false
set_option relaxedAutoImplicit false

namespace Gossip

/-- The link that sends by a transport and keeps the tables of a program beside it. -/
def Offload.beside {τ : Type} (transport : Offload → Send → Action τ) : Link (τ × Offload) where
  send s w :=
    let (result, state) := transport w.2 s w.1
    (result, state, w.2)
  register key targets w :=
    match w.2.register key targets with
    | .ok o => (.ok (), w.1, o)
    | .error error => (.error error, w)
  pin version w := (.ok (), w.1, w.2.pin version)

/-- The network in memory is such a transport, whether the program is attached to it or not. -/
theorem Fabric.link_eq_beside (attached : Bool) :
    Fabric.link attached =
      Offload.beside fun o s f ↦ (.ok (), f.send (if attached then some o else none) s) :=
  rfl

end Gossip
