import Gossip.Proofs.Packet.RoundTrip
import Mathlib.Data.List.TakeWhile

/-!
Where a packet ends. Nothing outside its bytes tells how long a packet is, where it comes in a
stream of its own: its closing brace does. A packet that is cut short is never taken for a shorter
one, nor for anything but a text that ends too early, and bytes behind a packet are noticed unless
they are all white space.
-/

set_option autoImplicit false
set_option relaxedAutoImplicit false

namespace Gossip

open Json

theorem skipBlank_eq_nil {bytes : Bytes} :
    skipBlank bytes = [] ↔ ∀ b ∈ bytes, isBlank b = true :=
  List.dropWhile_eq_nil_iff

theorem Wire.reader_cut (w : Wire) {cut : Bytes} (hcut : cut <+: w.write) (hshort : cut ≠ w.write) :
    Wire.reader cut = .error .early := by
  obtain ⟨written, hwrite, hspells⟩ := w.spells_write
  rw [hwrite] at hcut hshort
  exact endsEarly_record hspells cut hcut hshort

theorem Wire.reader_append (w : Wire) (rest : Bytes) :
    Wire.reader (w.write ++ rest) = .ok (w, rest) := by
  obtain ⟨written, hwrite, hspells⟩ := w.spells_write
  rw [hwrite]
  exact record_writeObject hspells.takes rest

namespace Packet

variable (p : Packet)

theorem decode_cut {cut : Bytes} (hcut : cut <+: p.encode) (hshort : cut ≠ p.encode) :
    decode cut = .error (.unreadable .early) := by
  unfold decode readDocument document
  rw [(Wire.ofPacket p).reader_cut hcut hshort]

/-- What stands behind a packet is white space, or it is not a packet any more. -/
theorem decode_encode_append (rest : Bytes) :
    decode (p.encode ++ rest) =
      if skipBlank rest = [] then .ok p else .error (.unreadable .malformed) := by
  unfold decode readDocument document
  rw [encode, Wire.reader_append]
  dsimp only
  by_cases hblank : skipBlank rest = []
  · rw [if_pos hblank, if_pos hblank]
    exact Wire.packet?_ofPacket p
  · rw [if_neg hblank, if_neg hblank]

/-- The bytes of a packet show where it ends: a proper part of them from the left is a text that
ends too early, with white space behind them they are still that packet, and with any other byte
behind them they are malformed. -/
theorem decode_tells_extent (p : Packet) :
    (∀ cut, cut <+: p.encode → cut ≠ p.encode → decode cut = .error (.unreadable .early)) ∧
      ∀ rest, ((∀ b ∈ rest, isBlank b = true) → decode (p.encode ++ rest) = .ok p) ∧
        ((∃ b ∈ rest, isBlank b = false) →
          decode (p.encode ++ rest) = .error (.unreadable .malformed)) := by
  refine ⟨fun cut hcut hshort ↦ p.decode_cut hcut hshort, fun rest ↦ ⟨fun hblank ↦ ?_, ?_⟩⟩
  · rw [decode_encode_append, if_pos (skipBlank_eq_nil.mpr hblank)]
  · rintro ⟨b, hb, hother⟩
    rw [decode_encode_append, if_neg fun hnil ↦ ?_]
    exact absurd (skipBlank_eq_nil.mp hnil b hb) (by rw [hother]; decide)

/-- A packet whose last text is an escape and a character of two bytes. -/
def signed : Packet := ⟨"\"é", .swapRequest ⟨{ addr := "10.0.0.1", port := 80 }, {}⟩⟩

/-- The packet is cut short within that character, and within that escape; then a line feed, and
then a second brace, come behind it. -/
theorem signed_tells_extent :
    ∃ front, signed.encode = front ++ [0x5C, 0x22, 0xC3, 0xA9, 0x22, 0x7D] ∧
      decode (front ++ [0x5C, 0x22, 0xC3]) = .error (.unreadable .early) ∧
      decode (front ++ [0x5C]) = .error (.unreadable .early) ∧
      decode (signed.encode ++ [0x0A]) = .ok signed ∧
      decode (signed.encode ++ [0x7D]) = .error (.unreadable .malformed) := by
  obtain ⟨hcut, hbehind⟩ := decode_tells_extent signed
  have hend : signed.encode = signed.encode.take 205 ++ [0x5C, 0x22, 0xC3, 0xA9, 0x22, 0x7D] :=
    (List.take_append_drop 205 signed.encode).symm
  obtain ⟨front, hfront⟩ : ∃ front,
      signed.encode = front ++ [0x5C, 0x22, 0xC3, 0xA9, 0x22, 0x7D] := ⟨_, hend⟩
  have hearly {last : Bytes} (hpart : last <+: [0x5C, 0x22, 0xC3, 0xA9, 0x22, 0x7D])
      (hshort : last ≠ [0x5C, 0x22, 0xC3, 0xA9, 0x22, 0x7D]) :
      decode (front ++ last) = .error (.unreadable .early) := by
    refine hcut _ ?_ fun h ↦ hshort (List.append_cancel_left (h.trans hfront))
    rw [hfront]
    exact (List.prefix_append_right_inj front).mpr hpart
  exact ⟨front, hfront, hearly (by decide) (by decide), hearly (by decide) (by decide),
    (hbehind [0x0A]).1 (List.forall_mem_singleton.mpr rfl),
    (hbehind [0x7D]).2 ⟨0x7D, List.mem_singleton_self _, rfl⟩⟩

end Packet

end Gossip
