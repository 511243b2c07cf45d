import Gossip.Batch
import Gossip.Offload
import Gossip.Proofs.Table

/-!
The groups of a broadcast and their keys. The groups are the list of targets cut into pieces none
of which is empty or longer than the program can hold; the keys of the ring have three digits;
and what is registered under a key is found there. So no registration of a broadcast is refused.
-/

set_option autoImplicit false
set_option relaxedAutoImplicit false

namespace Gossip

/-! ### Groups -/

theorem flatten_map_range {α : Type} (l : List α) (size n : Nat) :
    ((List.range n).map fun i ↦ (l.drop (size * i)).take size).flatten = l.take (size * n) := by
  induction n with
  | zero => simp
  | succ n ih =>
    rw [List.range_succ, List.map_append, List.flatten_append, ih, List.map_singleton,
      List.flatten_singleton, Nat.mul_succ, List.take_add]

theorem flatten_groups {α : Type} (targets : List α) : (groups targets).flatten = targets := by
  rw [groups, flatten_map_range]
  refine List.take_of_length_le ?_
  unfold groupSize
  omega

theorem mem_groups {α : Type} {targets group : List α} (h : group ∈ groups targets) :
    group ≠ [] ∧ group.length ≤ groupSize := by
  obtain ⟨i, hi, rfl⟩ := List.mem_map.mp h
  have hstart : groupSize * i < targets.length := by
    have := List.mem_range.mp hi
    unfold groupSize at *
    omega
  refine ⟨fun hnil ↦ ?_, List.length_take_le _ _⟩
  have hlength := congrArg List.length hnil
  rw [List.length_take, List.length_drop, List.length_nil] at hlength
  unfold groupSize at *
  omega

/-- The first group is cut off first. -/
theorem groups_of_ne_nil {α : Type} {targets : List α} (h : targets ≠ []) :
    groups targets = targets.take groupSize :: groups (targets.drop groupSize) := by
  have hpositive := List.length_pos_iff.mpr h
  have hcount : (targets.length + groupSize - 1) / groupSize =
      ((targets.drop groupSize).length + groupSize - 1) / groupSize + 1 := by
    rw [List.length_drop]
    unfold groupSize
    omega
  have hshift (i : Nat) : targets.drop (groupSize * (i + 1)) =
      (targets.drop groupSize).drop (groupSize * i) := by
    rw [List.drop_drop, Nat.mul_succ, Nat.add_comm]
  unfold groups
  rw [hcount, List.range_succ_eq_map, List.map_cons, List.map_map]
  congr 1
  exact List.map_congr_left fun i _ ↦ congrArg (List.take groupSize) (hshift i)

/-! ### Keys -/

theorem KeyRing.toNat_key (ring : KeyRing) : ring.key.value.toNat = ring.last := by
  have := ring.most
  rw [KeyRing.key, UInt16.toNat_ofNat']
  omega

theorem BatchKey.ofWord?_value (key : BatchKey) : BatchKey.ofWord? key.value = some key :=
  dif_pos key.ne_zero

/-! ### Registrations -/

/-- A list that fits is registered, and found again. -/
theorem Offload.register_eq_ok (o : Offload) (key : BatchKey) {targets : List Target}
    (h : targets.length ≤ Offload.capacity) :
    ∃ o' : Offload, o.register key targets = .ok o' ∧ o'.batch? key = some targets :=
  ⟨_, if_neg (Nat.not_lt.mpr h), Table.get?_insert _ _ _⟩

end Gossip
