import Gossip.Proofs.Packet.Layout

/-!
What the offload program may do to packets. It finds the batch of every packet whose key has three
digits, and writes any digit it likes where the counter stands: the packet still has the same batch
and reads as the same packet, and behind any headers it gives back the bytes that were sent.
-/

set_option autoImplicit false
set_option relaxedAutoImplicit false

namespace Gossip

open Json

/-- A byte that is a digit is the byte of that digit. -/
theorem exists_digitByte {b : UInt8} (h : isDigit b = true) : ∃ d < 10, b = digitByte d := by
  have hrange : 0x30 ≤ b.toNat ∧ b.toNat ≤ 0x39 := by
    simpa [isDigit, UInt8.le_iff_toNat_le] using h
  have hbytes : ∀ d < 10, UInt8.ofNat (0x30 + d) = digitByte d := by decide
  refine ⟨b.toNat - 0x30, by omega, ?_⟩
  rw [← hbytes _ (by omega), Nat.add_sub_cancel' hrange.1, UInt8.ofNat_toNat]

/-- The offload program reads keys of three digits. -/
def BatchKey.HasThreeDigits (key : BatchKey) : Prop :=
  100 ≤ key.value.toNat ∧ key.value.toNat ≤ 999

/-- The offload program finds no batch where there is none, and any batch that it can read. -/
theorem Wire.peekBatch_write {w : Wire} (htag : w.tag.toNat < 10) (hcount : w.count.toNat < 10)
    (hbatch : ∀ key, BatchKey.ofWord? w.batch = some key → key.HasThreeDigits) :
    peekBatch w.write = BatchKey.ofWord? w.batch := by
  by_cases h : w.batch = 0
  · rw [peekBatch_write_of_zero htag hcount h, h]
    rfl
  · have hdigits := hbatch ⟨w.batch, h⟩ (dif_pos h)
    exact peekBatch_write_of_three htag hcount hdigits.1 hdigits.2

namespace Packet

/-- The batch whose replicas a packet becomes. -/
def batch? (p : Packet) : Option BatchKey :=
  match p.message with
  | .forward _ batch => batch
  | .heartbeat _ | .swapRequest _ | .swapResponse _ => none

variable (p : Packet)

theorem ofWord?_batch : BatchKey.ofWord? (Wire.ofPacket p).batch = p.batch? := by
  obtain ⟨secret, message⟩ := p
  cases message with
  | forward h batch => exact BatchKey.ofWord?_toWord batch
  | heartbeat _ | swapRequest _ | swapResponse _ => rfl

theorem encode_ne_nil : p.encode ≠ [] := by
  rw [encode, Wire.write_eq (Wire.tag_ofPacket_lt p) (Wire.count_ofPacket_lt p)]
  exact List.cons_ne_nil _ _

theorem getElem?_counter : p.encode[counterOffset]? = some zeroByte := by
  rw [encode, Wire.getElem?_counter (Wire.tag_ofPacket_lt p) (Wire.count_ofPacket_lt p),
    Wire.count_ofPacket]
  rfl

/-- With another digit as its counter, a packet is written like its wire form with that counter. -/
theorem exists_write_of_digit {b : UInt8} (hb : isDigit b = true) :
    ∃ count : UInt16, count.toNat < 10 ∧
      p.encode.set counterOffset b = ({ Wire.ofPacket p with count } : Wire).write := by
  obtain ⟨d, hd, rfl⟩ := exists_digitByte hb
  refine ⟨.ofNat d, ?_, Wire.set_counter (Wire.tag_ofPacket_lt p) (Wire.count_ofPacket_lt p) hd⟩
  rw [UInt16.toNat_ofNat']
  omega

/-- The digit that the program writes on a replica. -/
theorem stampReplica_encode (index : Nat) :
    isDigit (replicaDigit index) = true ∧
      stampReplica index p.encode = p.encode.set counterOffset (replicaDigit index) := by
  constructor
  · rw [replicaDigit_eq]
    exact isDigit_digitByte _ (Nat.mod_lt _ (by decide))
  · unfold stampReplica
    rw [getElem?_counter]
    rfl

/-- A cleared counter is the one that was written. -/
theorem set_counter_zero (b : UInt8) :
    (p.encode.set counterOffset b).set counterOffset zeroByte = p.encode := by
  obtain ⟨hlength, hzero⟩ := List.getElem?_eq_some_iff.mp p.getElem?_counter
  rw [List.set_set, ← hzero, List.set_getElem_self]

/-- Assumes: if a packet has a batch, the key of it has three digits. The counter of the packet is
written as zero, and the offload program finds its batch, or none if it has none. If any digit is
written where the counter stands, as the program does on replicas, then the program finds the same,
the packet reads as it did, and behind any headers of their size the bytes that were sent are
found, with the counter they had. -/
theorem keeps_under_offload (hbatch : ∀ key, p.batch? = some key → key.HasThreeDigits) :
    p.encode[counterOffset]? = some zeroByte ∧ peekBatch p.encode = p.batch? ∧
      (∀ b, isDigit b = true → ∀ header : Bytes, header.length = headerSize →
        let stamped := p.encode.set counterOffset b
        peekBatch stamped = p.batch? ∧ decode stamped = .ok p ∧
          stripFrame (header ++ stamped) = .ok p.encode) ∧
      ∀ index, ∃ b, isDigit b = true ∧
        stampReplica index p.encode = p.encode.set counterOffset b := by
  have hpeek (count : UInt16) (hcount : count.toNat < 10) :
      peekBatch ({ Wire.ofPacket p with count } : Wire).write = p.batch? := by
    rw [← p.ofWord?_batch] at hbatch ⊢
    exact Wire.peekBatch_write (Wire.tag_ofPacket_lt p) hcount hbatch
  refine ⟨p.getElem?_counter, hpeek _ (Wire.count_ofPacket_lt p), fun b hb header hheader ↦ ?_,
    fun index ↦ ⟨replicaDigit index, p.stampReplica_encode index⟩⟩
  obtain ⟨count, hcount, hwrite⟩ := p.exists_write_of_digit hb
  refine ⟨?_, ?_, ?_⟩
  · rw [hwrite]
    exact hpeek count hcount
  · rw [hwrite, decode_write, Wire.packet?_count, Wire.packet?_ofPacket]
  · have hstamped : p.encode.set counterOffset b ≠ [] := by
      simpa using p.encode_ne_nil
    rw [stripFrame_append hheader hstamped, set_counter_zero]

/-- A packet for the batch behind which the ring of keys starts again. -/
def lastInRing : Packet :=
  ⟨"s", .forward (.alive { addr := "10.0.0.1", port := 80 }) (some ⟨999, by decide⟩)⟩

/-- Its seventh replica, behind headers that are not empty. -/
theorem lastInRing_keeps_under_offload :
    (∀ key, lastInRing.batch? = some key → key.HasThreeDigits) ∧
      let replica := lastInRing.encode.set counterOffset 0x37
      isDigit 0x37 = true ∧ peekBatch replica = some ⟨999, by decide⟩ ∧
        decode replica = .ok lastInRing ∧
        stripFrame (List.replicate headerSize 0xFF ++ replica) = .ok lastInRing.encode := by
  have hbatch : ∀ key, lastInRing.batch? = some key → key.HasThreeDigits := by
    rintro key ⟨⟩
    exact ⟨by decide, by decide⟩
  obtain ⟨-, -, hstamped, -⟩ := keeps_under_offload lastInRing hbatch
  exact ⟨hbatch, rfl, hstamped 0x37 rfl _ List.length_replicate⟩

end Packet

end Gossip
