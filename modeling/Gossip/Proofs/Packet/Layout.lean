import Gossip.Packet.Offsets
import Gossip.Proofs.Packet.RoundTrip

/-!
Where things stand in a written packet. While tag and counter are single digits, the counter is
the byte at its offset and the batch key starts at its own. Stamping a replica therefore writes
another counter, taking a frame apart writes a zero, and neither changes what the packet is read
as. The offload program finds exactly the batch keys of three digits.
-/

set_option autoImplicit false
set_option relaxedAutoImplicit false

namespace Gossip

open Json

namespace Wire

/-- The bytes in front of the counter. -/
def front (tag : Nat) : Bytes :=
  openBrace :: writeText "Type" ++ [colonByte, digitByte tag, commaByte] ++ writeText "Count" ++
    [colonByte]

/-- The bytes between the counter and the batch key. -/
def middle : Bytes := commaByte :: writeText "Mapkey" ++ [colonByte]

/-- The bytes behind the batch key. -/
def back (w : Wire) : Bytes :=
  [writeMember "Metadata" w.metadata.write, writeMember "Node" w.node.write,
    writeMember "Infected" w.infected.write, writeMember "IsUpdate" (writeBool w.isUpdate),
    writeMember "SecretKey" (writeText w.secret)].flatMap (commaByte :: ·) ++ [closeBrace]

theorem length_front (tag : Nat) : (front tag).length = counterOffset := rfl

theorem length_front_middle (tag : Nat) (b : UInt8) :
    (front tag ++ b :: middle).length = batchOffset :=
  rfl

theorem back_eq_cons (w : Wire) : ∃ tail, w.back = commaByte :: tail := ⟨_, rfl⟩

/-- Assumes: a tag and a counter of one digit. -/
theorem write_eq {w : Wire} (htag : w.tag.toNat < 10) (hcount : w.count.toNat < 10) :
    w.write = front w.tag.toNat ++ digitByte w.count.toNat ::
      (middle ++ (writeNat w.batch.toNat ++ w.back)) := by
  rw [write, writeObject, flatten_intersperse_cons, List.flatMap_cons, List.flatMap_cons,
    writeNat_of_lt htag, writeNat_of_lt hcount, back, front, middle]
  simp only [writeMember, List.append_assoc, List.cons_append, List.nil_append]

/-- Another byte where the counter stands. -/
theorem set_counter {w : Wire} (htag : w.tag.toNat < 10) (hcount : w.count.toNat < 10) {d : Nat}
    (hd : d < 10) :
    w.write.set counterOffset (digitByte d) = { w with count := .ofNat d }.write := by
  have hword : (UInt16.ofNat d).toNat = d := by
    rw [UInt16.toNat_ofNat']
    omega
  have hwritten : ({ w with count := .ofNat d } : Wire).write = _ :=
    write_eq htag (by rw [hword]; exact hd)
  rw [hwritten, write_eq htag hcount, ← length_front w.tag.toNat,
    List.set_append_right _ _ (Nat.le_refl _), Nat.sub_self, List.set_cons_zero, hword]
  rfl

theorem getElem?_counter {w : Wire} (htag : w.tag.toNat < 10) (hcount : w.count.toNat < 10) :
    w.write[counterOffset]? = some (digitByte w.count.toNat) := by
  rw [write_eq htag hcount, ← length_front w.tag.toNat,
    List.getElem?_append_right (Nat.le_refl _), Nat.sub_self, List.getElem?_cons_zero]

end Wire

/-! ### Stamps and frames -/

theorem replicaDigit_eq (index : Nat) : replicaDigit index = digitByte ((index + 1) % 10) := by
  have h : ∀ d < 10, UInt8.ofNat (48 + d) = digitByte d := by decide
  exact h _ (Nat.mod_lt _ (by decide))

theorem stampReplica_write {w : Wire} (htag : w.tag.toNat < 10) (hcount : w.count.toNat < 10)
    (index : Nat) :
    stampReplica index w.write = { w with count := .ofNat ((index + 1) % 10) }.write := by
  have hdigit : (index + 1) % 10 < 10 := Nat.mod_lt _ (by decide)
  unfold stampReplica
  rw [Wire.getElem?_counter htag hcount]
  dsimp only
  rw [if_pos (isDigit_digitByte _ hcount), replicaDigit_eq, Wire.set_counter htag hcount hdigit]

/-- A frame with headers of their size, whatever they are. -/
theorem stripFrame_append {header payload : Bytes} (hheader : header.length = headerSize)
    (hpayload : payload ≠ []) :
    stripFrame (header ++ payload) = .ok (payload.set counterOffset zeroByte) := by
  have hlength : ¬(header ++ payload).length ≤ headerSize := by
    have := List.length_pos_iff.mpr hpayload
    rw [List.length_append]
    omega
  rw [stripFrame, if_neg hlength, List.drop_left' hheader]

theorem stripFrame_frame {payload : Bytes} (h : payload ≠ []) :
    stripFrame (frame payload) = .ok (payload.set counterOffset zeroByte) :=
  stripFrame_append List.length_replicate h

theorem stripFrame_frame_write {w : Wire} (htag : w.tag.toNat < 10)
    (hcount : w.count.toNat < 10) :
    stripFrame (frame w.write) = .ok { w with count := 0 }.write := by
  have hwritten : w.write ≠ [] := by
    rw [Wire.write_eq htag hcount]
    exact List.cons_ne_nil _ _
  have hzero : zeroByte = digitByte 0 := by decide
  rw [stripFrame_frame hwritten, hzero, Wire.set_counter htag hcount (by decide)]
  rfl

/-! ### The batch key -/

theorem drop_batchOffset {w : Wire} (htag : w.tag.toNat < 10) (hcount : w.count.toNat < 10) :
    w.write.drop batchOffset = writeNat w.batch.toNat ++ w.back := by
  have hsplit : w.write = (Wire.front w.tag.toNat ++ digitByte w.count.toNat :: Wire.middle) ++
      (writeNat w.batch.toNat ++ w.back) := by
    rw [Wire.write_eq htag hcount, List.append_assoc, List.cons_append]
  rw [hsplit, ← Wire.length_front_middle w.tag.toNat (digitByte w.count.toNat),
    List.drop_append_of_le_length (Nat.le_refl _), List.drop_length, List.nil_append]

theorem spellsKey_write {w : Wire} (htag : w.tag.toNat < 10) (hcount : w.count.toNat < 10) :
    spellsKey w.write = true := by
  rw [Wire.write_eq htag hcount]
  rfl

/-- The three digits of a number that has three. -/
theorem writeNat_of_three {n : Nat} (hl : 100 ≤ n) (hm : n ≤ 999) :
    writeNat n = [digitByte (n / 100), digitByte (n / 10 % 10), digitByte (n % 10)] := by
  have hhundreds : n / 10 / 10 = n / 100 := Nat.div_div_eq_div_mul n 10 10
  rw [writeNat_of_le (by omega), writeNat_of_le (by omega), writeNat_of_lt (by omega),
    hhundreds]
  rfl

theorem threeDigits?_digitByte {a b c : Nat} (ha : a < 10) (hb : b < 10) (hc : c < 10) :
    threeDigits? (digitByte a) (digitByte b) (digitByte c) = some ((a * 10 + b) * 10 + c) := by
  rw [threeDigits?, isDigit_digitByte a ha, isDigit_digitByte b hb, isDigit_digitByte c hc,
    digitValue_digitByte a ha, digitValue_digitByte b hb, digitValue_digitByte c hc]
  rfl

theorem peekBatch_write_of_three {w : Wire} (htag : w.tag.toNat < 10)
    (hcount : w.count.toNat < 10) (hl : 100 ≤ w.batch.toNat) (hm : w.batch.toNat ≤ 999) :
    peekBatch w.write = BatchKey.ofWord? w.batch := by
  have hnumber : (w.batch.toNat / 100 * 10 + w.batch.toNat / 10 % 10) * 10 +
      w.batch.toNat % 10 = w.batch.toNat := by omega
  unfold peekBatch
  rw [if_pos (spellsKey_write htag hcount), drop_batchOffset htag hcount,
    writeNat_of_three hl hm]
  dsimp only [List.cons_append]
  rw [threeDigits?_digitByte (by omega) (by omega) (by omega), hnumber]
  dsimp only
  rw [UInt16.ofNat_toNat]

/-- Without a batch the digit zero stands in front of a comma. -/
theorem peekBatch_write_of_zero {w : Wire} (htag : w.tag.toNat < 10)
    (hcount : w.count.toNat < 10) (hbatch : w.batch = 0) : peekBatch w.write = none := by
  obtain ⟨tail, hback⟩ := w.back_eq_cons
  have hzero : writeNat (UInt16.toNat 0) = [zeroByte] := by decide
  have hcomma (c : UInt8) : threeDigits? zeroByte commaByte c = none := by
    rw [threeDigits?, show isDigit commaByte = false by decide]
    simp
  unfold peekBatch
  rw [if_pos (spellsKey_write htag hcount), drop_batchOffset htag hcount, hbatch, hzero, hback]
  cases tail with
  | nil => rfl
  | cons c tail =>
    dsimp only [List.cons_append, List.nil_append]
    rw [hcomma]

/-! ### Packets -/

theorem Wire.tag_ofPacket (p : Packet) : (Wire.ofPacket p).tag = p.message.tag := by
  obtain ⟨secret, message⟩ := p
  cases message <;> rfl

theorem Message.tag_lt (message : Message) : message.tag.toNat < 10 := by
  cases message <;> simp [Message.tag]

theorem Wire.count_ofPacket (p : Packet) : (Wire.ofPacket p).count = 0 := by
  obtain ⟨secret, message⟩ := p
  cases message <;> rfl

theorem Wire.tag_ofPacket_lt (p : Packet) : (Wire.ofPacket p).tag.toNat < 10 := by
  rw [Wire.tag_ofPacket]
  exact p.message.tag_lt

theorem Wire.count_ofPacket_lt (p : Packet) : (Wire.ofPacket p).count.toNat < 10 := by
  rw [Wire.count_ofPacket]
  decide

/-- Bytes that an endpoint reads as a packet, whether it gets them raw or in a frame. -/
def Carries (p : Packet) (bytes : Bytes) : Prop :=
  Packet.decode bytes = .ok p ∧
    ∃ payload, stripFrame (frame bytes) = .ok payload ∧ Packet.decode payload = .ok p

theorem carries_write {p : Packet} {w : Wire} (htag : w.tag.toNat < 10)
    (hcount : w.count.toNat < 10) (hpacket : w.packet? = .ok p) : Carries p w.write := by
  refine ⟨?_, _, stripFrame_frame_write htag hcount, ?_⟩
  · rw [Packet.decode_write, hpacket]
  · rw [Packet.decode_write, Wire.packet?_count, hpacket]

theorem carries_encode (p : Packet) : Carries p p.encode :=
  carries_write (Wire.tag_ofPacket_lt p) (Wire.count_ofPacket_lt p) (Wire.packet?_ofPacket p)

theorem carries_stampReplica (p : Packet) (index : Nat) :
    Carries p (stampReplica index p.encode) := by
  have hdigit : (UInt16.ofNat ((index + 1) % 10)).toNat < 10 := by
    rw [UInt16.toNat_ofNat']
    omega
  rw [Packet.encode, stampReplica_write (Wire.tag_ofPacket_lt p) (Wire.count_ofPacket_lt p)]
  refine carries_write (Wire.tag_ofPacket_lt p) hdigit ?_
  rw [Wire.packet?_count, Wire.packet?_ofPacket]

end Gossip
