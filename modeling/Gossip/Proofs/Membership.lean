import Gossip.Membership
import Gossip.Proofs.Table

/-!
Who is stored after an operation of the member store. Storing adds one value, under the key of the
member that was meant; looking around drops values and lists no others.
-/

set_option autoImplicit false
set_option relaxedAutoImplicit false

namespace Gossip

theorem id_perm (members : List Member) : (id members).Perm members := .refl members

/-- A moment at which members are listed as they are stored. -/
def Moment.plain (now : Instant) : Moment where
  now
  arrange_perm := id_perm

namespace Membership

variable (membership : Membership)

/-- A member is stored under the key of the address it is reached at. -/
theorem key_normalize (member : Member) :
    (membership.normalize member).key = member.withAddr.key := by
  unfold normalize
  dsimp only
  split <;> rfl

theorem mem_members_set {member m : Member} (now : Instant) :
    m ∈ (membership.set member now).1.members ↔
      m = membership.normalize member ∨ m ∈ membership.members :=
  Table.mem_keys_insert membership.seen _ _ m

variable {membership}

theorem mem_members_of_mem_expire {m : Member} {now : Instant}
    (hm : m ∈ (membership.expire now).members) : m ∈ membership.members := by
  obtain ⟨e, he, rfl⟩ := List.mem_map.mp hm
  exact List.mem_map.mpr ⟨e, (List.mem_filter.mp he).1, rfl⟩

theorem mem_members_of_mem_look {m : Member} {moment : Moment}
    (hm : m ∈ (membership.look moment).2) : m ∈ membership.members :=
  mem_members_of_mem_expire ((moment.arrange_perm _).subset hm)

end Membership

end Gossip
