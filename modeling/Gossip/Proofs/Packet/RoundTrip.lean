import Gossip.Packet.Wire
import Gossip.Proofs.Base64
import Gossip.Proofs.Infected
import Gossip.Proofs.Json.Cut

/-!
The codec of packets. Metadata, members, infected sets and the flat wire form are each read back
from what is written of them, whatever the counter of the wire form is; a packet is recovered from
its wire form, since the parts that its message has no use for are written as their defaults.
-/

set_option autoImplicit false
set_option relaxedAutoImplicit false

namespace Gossip

open Json

/-! ### The parts of a packet -/

theorem Metadata.represents_payload (data : Bytes) :
    Represents Metadata.payload (writeText (Base64.encode data)) data := by
  refine EndsEarly.represents (fun cut hcut hshort ↦ ?_) fun rest hrest ↦ ?_
  · unfold Metadata.payload
    rw [endsEarly_text _ cut hcut hshort]
  · unfold Metadata.payload
    rw [reads_text _ rest hrest]
    dsimp only
    rw [Base64.decode?_encode]

theorem Metadata.represents_write (m : Metadata) : Represents Metadata.reader m.write m := by
  refine represents_record (c := ⟨m, ["Data", "Update", "Size"]⟩) ?_
  refine .cons (slotMember_eq_ok rfl (by simp)) (((represents_unsigned64 m.size).map _).map _) ?_
  refine .cons (slotMember_eq_ok rfl (by simp)) (((represents_signed64 m.version).map _).map _) ?_
  refine .cons (slotMember_eq_ok rfl (by simp))
    ((((Metadata.represents_payload m.data).nullable [] (by decide) (by decide)).map _).map _) ?_
  exact .nil _

theorem Member.represents_write (m : Member) : Represents Member.reader m.write m := by
  refine represents_record
    (c := ⟨m, ["LinkName", "PrivateData", "Name", "Mac", "Port", "Addr"]⟩) ?_
  refine .cons (slotMember_eq_ok rfl (by simp)) (((represents_text m.addr).map _).map _) ?_
  refine .cons (slotMember_eq_ok rfl (by simp)) (((represents_unsigned16 m.port).map _).map _) ?_
  refine .cons (slotMember_eq_ok rfl (by simp)) (((represents_text m.mac).map _).map _) ?_
  refine .cons (slotMember_eq_ok rfl (by simp)) (((represents_text m.name).map _).map _) ?_
  refine .cons (slotMember_eq_ok rfl (by simp)) (((represents_text m.privateData).map _).map _) ?_
  refine .cons (slotMember_eq_ok rfl (by simp)) (((represents_text m.linkName).map _).map _) ?_
  exact .nil _

theorem Infected.spells_entries (entries : List (String × Bool)) (set : Infected) :
    Spells (fun set key ↦ .ok (Json.bool.map fun flag ↦ set.put key flag)) set
      (entries.map fun e ↦ writeMember e.1 (writeBool e.2))
      (entries.foldl (fun set e ↦ set.put e.1 e.2) set) := by
  induction entries generalizing set with
  | nil => exact .nil set
  | cons e entries ih => exact .cons rfl ((represents_bool e.2).map _) (ih (set.put e.1 e.2))

theorem Infected.represents_write (set : Infected) :
    Represents Infected.reader set.write set := by
  have h := represents_object (Infected.spells_entries set.entries .empty)
  rwa [show set.entries.foldl (fun set e ↦ set.put e.1 e.2) .empty = set from
    set.ofList_entries] at h

/-- The members of a written wire form give back the wire form. -/
theorem Wire.spells_write (w : Wire) : ∃ written, w.write = writeObject written ∧
    Spells (slotMember Wire.slots) ⟨{}, []⟩ written
      ⟨w, ["SecretKey", "IsUpdate", "Infected", "Node", "Metadata", "Mapkey", "Count", "Type"]⟩ := by
  have hinfected : Represents (nullable .empty Infected.reader) w.infected.write w.infected :=
    w.infected.represents_write.nullable .empty (by decide) (by decide)
  refine ⟨_, rfl, ?_⟩
  refine .cons (slotMember_eq_ok rfl (by simp)) (((represents_unsigned8 w.tag).map _).map _) ?_
  refine .cons (slotMember_eq_ok rfl (by simp)) (((represents_unsigned16 w.count).map _).map _) ?_
  refine .cons (slotMember_eq_ok rfl (by simp)) (((represents_unsigned16 w.batch).map _).map _) ?_
  refine .cons (slotMember_eq_ok rfl (by simp)) ((w.metadata.represents_write.map _).map _) ?_
  refine .cons (slotMember_eq_ok rfl (by simp)) ((w.node.represents_write.map _).map _) ?_
  refine .cons (slotMember_eq_ok rfl (by simp)) ((hinfected.map _).map _) ?_
  refine .cons (slotMember_eq_ok rfl (by simp)) (((represents_bool w.isUpdate).map _).map _) ?_
  refine .cons (slotMember_eq_ok rfl (by simp)) (((represents_text w.secret).map _).map _) ?_
  exact .nil _

theorem Wire.reads_write (w : Wire) : Reads Wire.reader w.write w := by
  obtain ⟨written, hwrite, hspells⟩ := w.spells_write
  rw [hwrite]
  exact reads_record hspells.takes

/-! ### Whole packets -/

theorem readDocument_of_reads {α : Type} {reader : Reader α} {bytes : Bytes} {a : α}
    (h : Reads reader bytes a) : readDocument reader bytes = .ok a := by
  unfold readDocument document
  rw [h.ok_nil]
  rfl

theorem BatchKey.ofWord?_toWord (batch : Option BatchKey) :
    BatchKey.ofWord? (BatchKey.toWord batch) = batch := by
  cases batch with
  | none => rfl
  | some key => exact dif_pos key.ne_zero

theorem Wire.packet?_ofPacket (p : Packet) : (Wire.ofPacket p).packet? = .ok p := by
  obtain ⟨secret, message⟩ := p
  cases message with
  | heartbeat h => rfl
  | forward h batch =>
    rw [show (Wire.ofPacket ⟨secret, .forward h batch⟩).packet? =
      .ok ⟨secret, .forward h (BatchKey.ofWord? (BatchKey.toWord batch))⟩ from rfl,
      BatchKey.ofWord?_toWord]
  | swapRequest s => rfl
  | swapResponse s => rfl

/-- The counter is not part of a packet. -/
theorem Wire.packet?_count (w : Wire) (count : UInt16) :
    { w with count }.packet? = w.packet? :=
  rfl

theorem Packet.decode_write (w : Wire) : Packet.decode w.write = w.packet? := by
  unfold Packet.decode
  rw [readDocument_of_reads w.reads_write]

theorem Packet.decode_encode (p : Packet) : Packet.decode p.encode = .ok p := by
  rw [Packet.encode, Packet.decode_write, Wire.packet?_ofPacket]

/-- Every packet is read back from its bytes, so two packets never have the same bytes. -/
theorem Packet.encode_faithful :
    (∀ p : Packet, Packet.decode p.encode = .ok p) ∧ Function.Injective Packet.encode := by
  refine ⟨Packet.decode_encode, fun p q h ↦ ?_⟩
  have hread := Packet.decode_encode p
  rw [h, Packet.decode_encode] at hread
  exact (Except.ok.inj hread).symm

end Gossip
