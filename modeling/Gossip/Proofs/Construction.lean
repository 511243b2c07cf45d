import Gossip.Node
import Gossip.Proofs.Settings

/-!
What a node starts with. Its settings are normal, and so it makes no difference whether they were
normalised before; it knows its own member, holds no metadata, and has a fresh ring of batch keys if
its mode asks for an offload program.
-/

set_option autoImplicit false
set_option relaxedAutoImplicit false

namespace Gossip

/-- The settings of a node that has been built are normal, and all else in it follows from them. -/
theorem Node.eq_of_build {self : Member} {settings : Settings} {offload : Bool} {now : Instant}
    {node : Node} (h : Node.build self settings offload now = .ok node) :
    settings.normalize = .ok node.settings ∧ node =
      { settings := node.settings
        membership :=
          .start self node.settings.lifetime node.settings.mask node.settings.gateway now
        batching := if node.settings.mode.isOffload then some .fresh else none } := by
  unfold build at h
  split at h
  · exact absurd h (by simp)
  next normal hnormal =>
    split at h
    · exact absurd h (by simp)
    · obtain rfl := Except.ok.inj h
      exact ⟨hnormal, rfl⟩

/-- The mode stays, and decides whether the node has a ring of batch keys. -/
theorem Node.batching_eq_of_build {self : Member} {settings : Settings} {offload : Bool}
    {now : Instant} {node : Node} (h : Node.build self settings offload now = .ok node) :
    node.settings.mode = settings.mode ∧
      node.batching = if settings.mode.isOffload then some .fresh else none := by
  obtain ⟨hnormal, heq⟩ := Node.eq_of_build h
  have hmode : node.settings.mode = settings.mode := (Settings.completes_of_normalize hnormal).mode
  rw [← hmode]
  exact ⟨rfl, congrArg Node.batching heq⟩

/-- A node whose mode asks for an offload program broadcasts in batches. -/
theorem Node.batching_of_build {self : Member} {settings : Settings} {offload : Bool}
    {now : Instant} {node : Node} (h : Node.build self settings offload now = .ok node)
    (hmode : settings.mode.isOffload = true) : node.batching = some .fresh :=
  (Node.batching_eq_of_build h).2.trans (if_pos hmode)

/-- Settings may be normalised before a node is built from them. -/
theorem Node.build_of_normalize {settings normal : Settings} (h : settings.normalize = .ok normal)
    (self : Member) (offload : Bool) (now : Instant) :
    Node.build self normal offload now = Node.build self settings offload now := by
  unfold build
  rw [h, (Settings.usable_of_normalize h).normalize_eq_self]

end Gossip
