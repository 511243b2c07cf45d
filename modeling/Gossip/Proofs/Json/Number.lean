import Gossip.Json.Number

/-!
A written integer is read back, if what stands behind it cannot belong to a number. The digits
are taken off the end of the number one by one, as they are written, and the reader's running
value after all of them is the number.
-/

set_option autoImplicit false
set_option relaxedAutoImplicit false

namespace Gossip.Json

/-- What stands behind a written value: nothing, the comma in front of the next member, or the
closing brace. -/
def Stops (rest : Bytes) : Prop := ∀ b ∈ rest.head?, b = commaByte ∨ b = closeBrace

theorem stops_nil : Stops [] := by
  intro b hb
  exact absurd hb (by simp)

theorem stops_comma (rest : Bytes) : Stops (commaByte :: rest) := by
  intro b hb
  exact Or.inl (Option.some.inj hb).symm

theorem stops_closeBrace (rest : Bytes) : Stops (closeBrace :: rest) := by
  intro b hb
  exact Or.inr (Option.some.inj hb).symm

/-- A byte in front of which every number ends. -/
theorem Stops.cons {b : UInt8} {rest : Bytes} (h : Stops (b :: rest)) :
    isDigit b = false ∧ b ≠ 0x2E ∧ ¬(b = 0x65 ∨ b = 0x45) := by
  rcases h b rfl with rfl | rfl <;> decide

/-! ### Digits -/

/-- The byte of a single digit. -/
def digitByte (d : Nat) : UInt8 := .ofNat (Nat.digitChar d).toNat

theorem isDigit_digitByte : ∀ d < 10, isDigit (digitByte d) = true := by decide

theorem digitValue_digitByte : ∀ d < 10, digitValue (digitByte d) = d := by decide

theorem digitByte_eq_zeroByte : ∀ d < 10, digitByte d = zeroByte → d = 0 := by decide

theorem writeNat_of_lt {n : Nat} (h : n < 10) : writeNat n = [digitByte n] := by
  rw [writeNat, Nat.toDigits_of_lt_base h]
  rfl

theorem writeNat_of_le {n : Nat} (h : 10 ≤ n) :
    writeNat n = writeNat (n / 10) ++ [digitByte (n % 10)] := by
  rw [writeNat, Nat.toDigits_of_base_le (by decide) h, List.map_append]
  rfl

theorem isDigit_of_mem_writeNat {n : Nat} {b : UInt8} (hb : b ∈ writeNat n) :
    isDigit b = true := by
  induction n using Nat.strongRecOn with
  | ind n ih =>
    by_cases h : n < 10
    · rw [writeNat_of_lt h, List.mem_singleton] at hb
      exact hb ▸ isDigit_digitByte n h
    · rw [writeNat_of_le (by omega)] at hb
      rcases List.mem_append.mp hb with hb | hb
      · exact ih (n / 10) (by omega) hb
      · exact List.mem_singleton.mp hb ▸ isDigit_digitByte (n % 10) (by omega)

/-- A number above zero starts with another digit than zero. -/
theorem writeNat_eq_cons {n : Nat} (h : 0 < n) :
    ∃ b tail, writeNat n = b :: tail ∧ b ≠ zeroByte ∧ isDigit b = true := by
  induction n using Nat.strongRecOn with
  | ind n ih =>
    by_cases hlt : n < 10
    · refine ⟨digitByte n, [], writeNat_of_lt hlt, fun hzero ↦ ?_, isDigit_digitByte n hlt⟩
      have := digitByte_eq_zeroByte n hlt hzero
      omega
    · obtain ⟨b, tail, hwrite, hb⟩ := ih (n / 10) (by omega) (by omega)
      refine ⟨b, tail ++ [digitByte (n % 10)], ?_, hb⟩
      rw [writeNat_of_le (by omega), hwrite, List.cons_append]

theorem foldl_pushWhole_writeNat {n : Nat} (h : n < UInt64.size) :
    ((writeNat n).map digitValue).foldl Scaled.pushWhole .zero = ⟨n, 0, false⟩ := by
  have hsize : UInt64.size = 18446744073709551616 := rfl
  induction n using Nat.strongRecOn with
  | ind n ih =>
    by_cases hlt : n < 10
    · have hfits : ¬UInt64.size ≤ n := by omega
      rw [writeNat_of_lt hlt]
      simp [digitValue_digitByte n hlt, Scaled.pushWhole, Scaled.zero, hfits]
    · have hsplit : n / 10 * 10 + n % 10 = n := by omega
      have hfits : ¬UInt64.size ≤ n := by omega
      rw [writeNat_of_le (by omega), List.map_append, List.foldl_append,
        ih (n / 10) (by omega) (by omega)]
      simp [digitValue_digitByte (n % 10) (by omega), Scaled.pushWhole, hsplit, hfits]

/-- A run of digits ends in front of any other byte. -/
theorem digits_append {ds rest : Bytes} (hds : ∀ b ∈ ds, isDigit b = true)
    (hrest : ∀ b ∈ rest.head?, isDigit b = false) :
    digits (ds ++ rest) = (ds.map digitValue, rest) := by
  have hstop : rest.takeWhile isDigit = [] ∧ rest.dropWhile isDigit = rest := by
    cases rest with
    | nil => exact ⟨rfl, rfl⟩
    | cons b rest => simp [hrest b rfl]
  unfold digits
  rw [List.takeWhile_append_of_pos hds, List.dropWhile_append_of_pos hds, hstop.1, hstop.2,
    List.append_nil]

theorem digits_writeNat {n : Nat} {rest : Bytes} (h : Stops rest) :
    digits (writeNat n ++ rest) = ((writeNat n).map digitValue, rest) := by
  refine digits_append (fun b hb ↦ isDigit_of_mem_writeNat hb) fun b hb ↦ ?_
  rcases h b hb with rfl | rfl <;> decide

theorem wholeDigits_writeNat (n : Nat) {rest : Bytes} (h : Stops rest) :
    wholeDigits (writeNat n ++ rest) = .ok ((writeNat n).map digitValue, rest) := by
  rcases Nat.eq_zero_or_pos n with rfl | hpos
  · have hwrite : writeNat 0 = [zeroByte] := by decide
    rw [hwrite]
    cases rest with
    | nil => rfl
    | cons b rest => simp [wholeDigits, h.cons.1]; decide
  · obtain ⟨b, tail, hwrite, hzero, hdigit⟩ := writeNat_eq_cons hpos
    have hdigits := digits_writeNat (n := n) h
    rw [hwrite] at hdigits ⊢
    rw [List.cons_append] at hdigits ⊢
    unfold wholeDigits
    dsimp only
    rw [if_neg hzero, if_pos hdigit, hdigits]

/-! ### Whole numbers -/

theorem fractionPart_of_stops (x : Scaled) {rest : Bytes} (h : Stops rest) :
    fractionPart x rest = .ok (x, false, rest) := by
  cases rest with
  | nil => rfl
  | cons b rest => exact if_neg h.cons.2.1

theorem exponentPart_of_stops (x : Scaled) {rest : Bytes} (h : Stops rest) :
    exponentPart x rest = .ok (x, false, rest) := by
  cases rest with
  | nil => rfl
  | cons b rest => exact if_neg h.cons.2.2

theorem unsignedNumber_writeNat (negative : Bool) {n : Nat} (hn : n < UInt64.size) {rest : Bytes}
    (h : Stops rest) :
    unsignedNumber negative (writeNat n ++ rest) = .ok (Number.ofWhole negative n, rest) := by
  unfold unsignedNumber
  rw [wholeDigits_writeNat n h]
  dsimp only
  rw [foldl_pushWhole_writeNat hn, fractionPart_of_stops _ h]
  dsimp only
  rw [exponentPart_of_stops _ h]
  rfl

theorem writeNat_head (n : Nat) :
    ∃ b tail, writeNat n = b :: tail ∧ isDigit b = true ∧ b ≠ minusByte := by
  have hne : writeNat n ≠ [] := by
    unfold writeNat
    exact fun h ↦ Nat.toDigits_ne_nil (List.map_eq_nil_iff.mp h)
  obtain ⟨b, tail, hwrite⟩ := List.exists_cons_of_ne_nil hne
  have hdigit : isDigit b = true :=
    isDigit_of_mem_writeNat (n := n) (hwrite ▸ List.mem_cons_self)
  exact ⟨b, tail, hwrite, hdigit, fun hminus ↦ absurd (hminus ▸ hdigit) (by decide)⟩

theorem number_writeNat {n : Nat} (hn : n < UInt64.size) {rest : Bytes} (h : Stops rest) :
    number (writeNat n ++ rest) = .ok (.whole false n, rest) := by
  obtain ⟨b, tail, hwrite, -, hminus⟩ := writeNat_head n
  have hread := unsignedNumber_writeNat false hn h
  rw [hwrite, List.cons_append] at hread ⊢
  exact (if_neg hminus).trans hread

theorem number_writeNat_neg {n : Nat} (hpos : 0 < n) (hn : n ≤ Int64.size / 2) {rest : Bytes}
    (h : Stops rest) :
    number (minusByte :: writeNat n ++ rest) = .ok (.whole true n, rest) := by
  have hsize : Int64.size / 2 = 9223372036854775808 := rfl
  have hlarge : UInt64.size = 18446744073709551616 := rfl
  have hwhole : Number.ofWhole true n = .whole true n := by
    unfold Number.ofWhole
    rw [if_pos rfl, if_neg (by omega)]
  rw [List.cons_append, number, if_pos rfl, unsignedNumber_writeNat true (by omega) h, hwhole]

end Gossip.Json
