import Gossip.Packet.Wire
import Gossip.Proofs.Json.Record
import Gossip.Proofs.Settings
import Gossip.Proofs.Socket
import Mathlib.Data.List.Forall2

/-!
How long a packet is. All members of the object are written, whatever the packet says, so that no
packet is shorter than the one in which every member has its shortest value. The least packet size
that settings are accepted with is far below that: with a size of 64 to 197 bytes, nothing that is
received can be a packet.
-/

set_option autoImplicit false
set_option relaxedAutoImplicit false

namespace Gossip

/-! ### The parts of a packet -/

namespace Json

theorem length_writeNat_zero_le (n : Nat) : (writeNat 0).length ≤ (writeNat n).length := by
  have hzero : (writeNat 0).length = 1 := by decide
  rw [hzero]
  by_cases h : n < 10
  · rw [writeNat_of_lt h]
    exact Nat.le_refl 1
  · rw [writeNat_of_le (Nat.not_lt.mp h), List.length_append]
    exact Nat.le_add_left 1 _

theorem length_writeInt_zero_le (n : Int) : (writeInt 0).length ≤ (writeInt n).length := by
  have habs := length_writeNat_zero_le n.natAbs
  rw [writeInt, if_neg (Int.lt_irrefl 0), writeInt]
  split
  · exact Nat.le_succ_of_le habs
  · exact habs

theorem length_writeText_empty_le (text : String) :
    (writeText "").length ≤ (writeText text).length := by
  unfold writeText
  simp

theorem length_writeBool_true_le (b : Bool) :
    (writeBool true).length ≤ (writeBool b).length := by
  cases b <;> decide

theorem length_writeMember_le (name : String) {value longer : Bytes}
    (h : value.length ≤ longer.length) :
    (writeMember name value).length ≤ (writeMember name longer).length := by
  unfold writeMember
  rw [List.length_append, List.length_append]
  exact Nat.add_le_add_left (Nat.succ_le_succ h) _

/-- An object with longer members is longer. -/
theorem length_writeObject_le {written longer : List Bytes}
    (h : List.Forall₂ (fun value more : Bytes ↦ value.length ≤ more.length) written longer) :
    (writeObject written).length ≤ (writeObject longer).length := by
  have hrest {written longer : List Bytes}
      (h : List.Forall₂ (fun value more : Bytes ↦ value.length ≤ more.length) written longer) :
      (written.flatMap (commaByte :: ·)).length ≤ (longer.flatMap (commaByte :: ·)).length := by
    induction h with
    | nil => exact Nat.le_refl _
    | cons hvalue _ ih =>
      rw [List.flatMap_cons, List.flatMap_cons, List.length_append, List.length_append]
      exact Nat.add_le_add (Nat.succ_le_succ hvalue) ih
  cases h with
  | nil => exact Nat.le_refl _
  | cons hvalue htail =>
    have hlength := hrest htail
    rw [writeObject, writeObject, flatten_intersperse_cons, flatten_intersperse_cons]
    simp only [List.length_cons, List.length_append]
    omega

theorem length_writeObject_nil_le (written : List Bytes) :
    (writeObject []).length ≤ (writeObject written).length := by
  simp [writeObject]

end Json

open Json

theorem Metadata.length_write_default_le (m : Metadata) :
    (write {}).length ≤ m.write.length :=
  length_writeObject_le <|
    .cons (length_writeMember_le _ (length_writeNat_zero_le _)) <|
    .cons (length_writeMember_le _ (length_writeInt_zero_le _)) <|
    .cons (length_writeMember_le _ (length_writeText_empty_le _)) .nil

theorem Member.length_write_default_le (m : Member) : (write {}).length ≤ m.write.length :=
  length_writeObject_le <|
    .cons (length_writeMember_le _ (length_writeText_empty_le _)) <|
    .cons (length_writeMember_le _ (length_writeNat_zero_le _)) <|
    .cons (length_writeMember_le _ (length_writeText_empty_le _)) <|
    .cons (length_writeMember_le _ (length_writeText_empty_le _)) <|
    .cons (length_writeMember_le _ (length_writeText_empty_le _)) <|
    .cons (length_writeMember_le _ (length_writeText_empty_le _)) .nil

theorem Infected.length_write_empty_le (set : Infected) :
    (write .empty).length ≤ set.write.length :=
  length_writeObject_nil_le _

/-! ### The shortest packet -/

namespace Packet

/-- A packet about nobody, with nothing in it but the flag that takes fewer bytes when it is set. -/
def shortest : Packet := ⟨"", .heartbeat ⟨{}, .empty, {}, true⟩⟩

theorem length_shortest : shortest.encode.length = 197 := by decide +kernel

/-- Whatever a wire form holds, its text is no shorter. -/
theorem length_shortest_le_write (w : Wire) : shortest.encode.length ≤ w.write.length :=
  length_writeObject_le <|
    .cons (length_writeMember_le _ (length_writeNat_zero_le _)) <|
    .cons (length_writeMember_le _ (length_writeNat_zero_le _)) <|
    .cons (length_writeMember_le _ (length_writeNat_zero_le _)) <|
    .cons (length_writeMember_le _ w.metadata.length_write_default_le) <|
    .cons (length_writeMember_le _ w.node.length_write_default_le) <|
    .cons (length_writeMember_le _ w.infected.length_write_empty_le) <|
    .cons (length_writeMember_le _ (length_writeBool_true_le _)) <|
    .cons (length_writeMember_le _ (length_writeText_empty_le _)) .nil

theorem le_length_encode (p : Packet) : 197 ≤ p.encode.length :=
  length_shortest ▸ length_shortest_le_write (Wire.ofPacket p)

theorem exists_length_lt_iff {size : Nat} :
    (∃ p : Packet, p.encode.length < size) ↔ 197 < size :=
  ⟨fun ⟨p, hp⟩ ↦ Nat.lt_of_le_of_lt p.le_length_encode hp,
    fun h ↦ ⟨shortest, length_shortest ▸ h⟩⟩

end Packet

/-! ### Packet sizes -/

namespace Settings

/-- Settings are accepted with a packet size from 64 bytes on, but there are packets below the size
only from 198 bytes on. These, and no others, are passed on when they come as a datagram or as a
stream. -/
theorem holds_packet_iff {s d : Settings} (h : s.normalize = .ok d) :
    64 ≤ d.size.toNat ∧
      ((∃ p : Packet, p.encode.length < d.size.toNat) ↔ 198 ≤ d.size.toNat) ∧
      ∀ p : Packet, p.encode.length < d.size.toNat ↔ Socket.Passes d.size p.encode := by
  refine ⟨(usable_of_normalize h).size, Packet.exists_length_lt_iff, fun p ↦ ?_⟩
  refine (Socket.passes_iff ?_).symm
  exact List.ne_nil_of_length_pos (Nat.lt_of_lt_of_le (by decide) p.le_length_encode)

/-- The shortest packet passes under a size of one byte more. -/
theorem holds_packet_of_198 :
    ∃ d, normalize { size := 198 } = .ok d ∧ d.size.toNat = 198 ∧
      Packet.shortest.encode.length < d.size.toNat ∧
      Socket.Passes d.size Packet.shortest.encode := by
  have h : normalize { size := 198 } = .ok _ := rfl
  obtain ⟨-, -, hpasses⟩ := holds_packet_iff h
  have hshorter : Packet.shortest.encode.length < 198 := Packet.length_shortest ▸ Nat.lt_succ_self _
  exact ⟨_, h, rfl, hshorter, (hpasses _).mp hshorter⟩

/-- The least size that is accepted is below every packet. -/
theorem least_size_holds_no_packet :
    ∃ d, normalize { size := 64 } = .ok d ∧ d.size = 64 ∧
      ∀ p : Packet, ¬p.encode.length < d.size.toNat := by
  refine ⟨_, rfl, rfl, fun p hp ↦ ?_⟩
  exact absurd (Packet.exists_length_lt_iff.mp ⟨p, hp⟩) (by decide)

end Settings

end Gossip
