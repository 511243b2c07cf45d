import Gossip.Metadata
import Gossip.Proofs.Base64.Canonical
import Gossip.Proofs.Json.Whole

/-!
The payload of metadata as a value in a document. What is accepted is `null`, for the empty payload,
or a string, however its characters are escaped, that spells the text of exactly the payload that is
read. A string that spells anything else is well formed but no payload.
-/

set_option autoImplicit false
set_option relaxedAutoImplicit false

namespace Gossip

open Json

/-! ### Words and values that may be `null` -/

namespace Json

theorem word_eq_ok_iff {letters s rest : Bytes} :
    word letters s = .ok rest ↔ s = letters ++ rest := by
  induction letters generalizing s with
  | nil => simp [word]
  | cons c letters ih =>
    cases s with
    | nil => simp [word]
    | cons b s =>
      rw [word, List.cons_append, List.cons.injEq]
      split
      next hb => rw [ih, and_iff_right hb]
      next hb => simp [hb]

/-- Where `null` may stand for a default, what is accepted is what the reader accepts, and `null`. -/
theorem nullable_eq_ok_iff {α : Type} {reader : Reader α} (hblank : IgnoresBlank reader)
    (hnull : ∀ s x, reader (0x6E :: s) ≠ .ok x) {default a : α} {s rest : Bytes} :
    nullable default reader s = .ok (a, rest) ↔ reader s = .ok (a, rest) ∨
      skipBlank s = 0x6E :: (nullTail ++ rest) ∧ a = default := by
  rw [← hblank s]
  unfold nullable
  cases hs : skipBlank s with
  | nil => simp
  | cons b tail =>
    dsimp only
    split
    next hb =>
      subst hb
      rw [or_iff_right (hnull tail _), List.cons.injEq, and_iff_right rfl, ← word_eq_ok_iff]
      cases word nullTail tail with
      | error fault => simp [Except.map]
      | ok more => simp [Except.map, eq_comm, and_comm]
    next hb => simp [hb]

theorem exists_quote_of_text {s rest : Bytes} {written : String}
    (h : text s = .ok (written, rest)) : ∃ tail, skipBlank s = quoteByte :: tail := by
  unfold text at h
  split at h
  · exact absurd h (by simp)
  next b tail hs =>
    split at h
    next hb => exact ⟨tail, hb ▸ hs⟩
    · exact absurd h (by simp)

end Json

namespace Metadata

theorem ignoresBlank_payload : IgnoresBlank payload := by
  intro s
  simp only [payload, ignoresBlank_text s]

theorem payload_eq_ok_iff {s data rest : Bytes} :
    payload s = .ok (data, rest) ↔ text s = .ok (Base64.encode data, rest) := by
  unfold payload
  cases text s with
  | error fault => simp
  | ok read =>
    obtain ⟨written, more⟩ := read
    rw [Except.ok.injEq, Prod.mk.injEq, ← Base64.decode?_eq_some_iff]
    cases hwritten : Base64.decode? written <;> simp [hwritten]

theorem payload_mismatched_iff {s rest : Bytes} {written : String}
    (h : text s = .ok (written, rest)) :
    payload s = .error .mismatched ↔ Base64.Flawed written.toList := by
  unfold payload
  rw [h, ← Base64.decode?_eq_none_iff]
  cases hwritten : Base64.decode? written <;> simp [hwritten]

theorem payload_null_ne_ok (s : Bytes) (x : Bytes × Bytes) : payload (0x6E :: s) ≠ .ok x := by
  obtain ⟨data, rest⟩ := x
  intro h
  obtain ⟨tail, htail⟩ := exists_quote_of_text (payload_eq_ok_iff.mp h)
  rw [skipBlank_cons (by decide)] at htail
  exact absurd (List.cons.inj htail).1 (by decide)

theorem nullable_payload_of_text {s rest : Bytes} {written : String} (default : Bytes)
    (h : text s = .ok (written, rest)) : nullable default payload s = payload s := by
  obtain ⟨tail, htail⟩ := exists_quote_of_text h
  rw [← ignoresBlank_payload s]
  unfold nullable
  rw [htail]
  exact if_neg (by decide)

/-- Every payload has exactly one text. What is written is read as the payload; a value is read as a
payload only if it is a string that spells the text of that payload, `null` aside; and a string is
turned down exactly if what it spells has a flaw: wrong padding, a foreign character or bits left
over that are not zero. -/
theorem payload_has_one_text :
    (∀ data rest,
      nullable [] payload (writeText (Base64.encode data) ++ rest) = .ok (data, rest)) ∧
    (∀ s data rest, nullable [] payload s = .ok (data, rest) ↔
      text s = .ok (Base64.encode data, rest) ∨
        skipBlank s = 0x6E :: (nullTail ++ rest) ∧ data = []) ∧
    ∀ s written rest, text s = .ok (written, rest) →
      (nullable [] payload s = .error .mismatched ↔ Base64.Flawed written.toList) := by
  have haccepts {s data rest : Bytes} : nullable [] payload s = .ok (data, rest) ↔
      text s = .ok (Base64.encode data, rest) ∨
        skipBlank s = 0x6E :: (nullTail ++ rest) ∧ data = [] := by
    rw [nullable_eq_ok_iff ignoresBlank_payload payload_null_ne_ok, payload_eq_ok_iff]
  refine ⟨fun data rest ↦ haccepts.mpr (Or.inl ?_), fun s data rest ↦ haccepts, ?_⟩
  · exact text_writeText _ rest
  · intro s written rest hread
    rw [nullable_payload_of_text [] hread, payload_mismatched_iff hread]

/-- The text `QR==` would stand for one byte, but leaves over bits that are not zero. -/
theorem payload_has_one_text_leftover :
    text (writeText "QR==") = .ok ("QR==", []) ∧ Base64.Flawed "QR==".toList ∧
      nullable [] payload (writeText "QR==") = .error .mismatched := by
  have hread : text (writeText "QR==") = .ok ("QR==", []) := (reads_text "QR==").ok_nil
  have hflaw : Base64.Flawed "QR==".toList :=
    .leftOver (c := 'R') (n := 17) 2 (by decide) ⟨['Q'], rfl⟩ (by decide)
  exact ⟨hread, hflaw, (payload_has_one_text.2.2 _ _ _ hread).mpr hflaw⟩

end Metadata

end Gossip
