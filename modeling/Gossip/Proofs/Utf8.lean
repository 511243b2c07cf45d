import Gossip.Utf8

/-!
Reading undoes writing, character by character: the bytes of a character are read as that
character whatever stands behind them.
-/

set_option autoImplicit false
set_option relaxedAutoImplicit false

namespace Gossip.Utf8

/-! ### The parts of a character -/

theorem toNat_ofNat_of_lt {n : Nat} (h : n < 0x100) : (UInt8.ofNat n).toNat = n := by
  simp only [UInt8.toNat_ofNat']
  omega

theorem scalar?_toNat {least : Nat} {c : Char} (h : least ≤ c.toNat) :
    scalar? least c.toNat = some c := by
  have hvalid : c.toNat.isValidChar := c.valid
  have hchar : Char.ofNat c.toNat = c := Char.ofNat_toNat c
  rw [Char.ofNat, dif_pos hvalid] at hchar
  unfold scalar?
  rw [dif_pos hvalid, if_pos h, hchar]

theorem continuation?_ofNat (n : Nat) :
    continuation? (UInt8.ofNat (n % 0x40 + 0x80)) = some (n % 0x40) := by
  unfold continuation?
  rw [toNat_ofNat_of_lt (by omega), if_pos (by omega)]
  exact congrArg some (by omega)

/-! ### One character in front of others -/

section OneCharacter

variable {read : List Char} {c : Char} {a b d e : UInt8} {rest : Bytes}

theorem charsFrom_one (h : a.toNat < 0x80) :
    charsFrom read (a :: rest) = charsFrom (Char.ofNat a.toNat :: read) rest := by
  rw [charsFrom.eq_def]
  dsimp only
  rw [if_pos h]

theorem charsFrom_two (hleast : 0xC0 ≤ a.toNat) (hmost : a.toNat < 0xE0)
    (h : two? a b = some c) :
    charsFrom read (a :: b :: rest) = charsFrom (c :: read) rest := by
  rw [charsFrom.eq_def]
  dsimp only
  rw [if_neg (by omega), if_neg (by omega), if_pos hmost]
  simp only [h]

theorem charsFrom_three (hleast : 0xE0 ≤ a.toNat) (hmost : a.toNat < 0xF0)
    (h : three? a b d = some c) :
    charsFrom read (a :: b :: d :: rest) = charsFrom (c :: read) rest := by
  rw [charsFrom.eq_def]
  dsimp only
  rw [if_neg (by omega), if_neg (by omega), if_neg (by omega), if_pos hmost]
  simp only [h]

theorem charsFrom_four (hleast : 0xF0 ≤ a.toNat) (hmost : a.toNat < 0xF8)
    (h : four? a b d e = some c) :
    charsFrom read (a :: b :: d :: e :: rest) = charsFrom (c :: read) rest := by
  rw [charsFrom.eq_def]
  dsimp only
  rw [if_neg (by omega), if_neg (by omega), if_neg (by omega), if_neg (by omega), if_pos hmost]
  simp only [h]

end OneCharacter

theorem two?_ofNat {c : Char} (hleast : 0x80 ≤ c.toNat) (hmost : c.toNat ≤ 0x7FF) :
    two? (UInt8.ofNat (c.toNat / 64 % 0x20 + 0xC0)) (UInt8.ofNat (c.toNat % 0x40 + 0x80)) =
      some c := by
  have hcode : (c.toNat / 64 % 0x20 + 0xC0 - 0xC0) * 64 + c.toNat % 0x40 = c.toNat := by omega
  unfold two?
  rw [continuation?_ofNat, toNat_ofNat_of_lt (by omega)]
  simp only [hcode]
  exact scalar?_toNat hleast

theorem three?_ofNat {c : Char} (hleast : 0x800 ≤ c.toNat) (hmost : c.toNat ≤ 0xFFFF) :
    three? (UInt8.ofNat (c.toNat / 4096 % 0x10 + 0xE0))
      (UInt8.ofNat (c.toNat / 64 % 0x40 + 0x80)) (UInt8.ofNat (c.toNat % 0x40 + 0x80)) =
      some c := by
  have hcode : (c.toNat / 4096 % 0x10 + 0xE0 - 0xE0) * 4096 + c.toNat / 64 % 0x40 * 64 +
      c.toNat % 0x40 = c.toNat := by omega
  unfold three?
  rw [continuation?_ofNat, continuation?_ofNat, toNat_ofNat_of_lt (by omega)]
  simp only [hcode]
  exact scalar?_toNat hleast

theorem four?_ofNat {c : Char} (hleast : 0x10000 ≤ c.toNat) (hmost : c.toNat < 0x110000) :
    four? (UInt8.ofNat (c.toNat / 262144 % 0x08 + 0xF0))
      (UInt8.ofNat (c.toNat / 4096 % 0x40 + 0x80)) (UInt8.ofNat (c.toNat / 64 % 0x40 + 0x80))
      (UInt8.ofNat (c.toNat % 0x40 + 0x80)) = some c := by
  have hcode : (c.toNat / 262144 % 0x08 + 0xF0 - 0xF0) * 262144 +
      c.toNat / 4096 % 0x40 * 4096 + c.toNat / 64 % 0x40 * 64 + c.toNat % 0x40 = c.toNat := by
    omega
  unfold four?
  rw [continuation?_ofNat, continuation?_ofNat, continuation?_ofNat,
    toNat_ofNat_of_lt (by omega)]
  simp only [hcode]
  exact scalar?_toNat hleast

theorem toNat_lt (c : Char) : c.toNat < 0x110000 := by
  have hvalid : c.toNat.isValidChar := c.valid
  rcases hvalid with hlow | hhigh <;> omega

theorem charsFrom_encodeChar (read : List Char) (c : Char) (rest : Bytes) :
    charsFrom read (String.utf8EncodeChar c ++ rest) = charsFrom (c :: read) rest := by
  have hlt := toNat_lt c
  have hval : c.val.toNat = c.toNat := rfl
  unfold String.utf8EncodeChar
  simp only [hval]
  -- the four lengths of a written character
  split
  next hone =>
    rw [List.singleton_append, charsFrom_one] <;> rw [toNat_ofNat_of_lt (by omega)]
    · rw [Char.ofNat_toNat]
    · omega
  next hone =>
    split
    next htwo =>
      refine charsFrom_two ?_ ?_ (two?_ofNat (by omega) htwo) <;>
        rw [toNat_ofNat_of_lt (by omega)] <;> omega
    next htwo =>
      split
      next hthree =>
        refine charsFrom_three ?_ ?_ (three?_ofNat (by omega) hthree) <;>
          rw [toNat_ofNat_of_lt (by omega)] <;> omega
      next hthree =>
        refine charsFrom_four ?_ ?_ (four?_ofNat (by omega) hlt) <;>
          rw [toNat_ofNat_of_lt (by omega)] <;> omega

/-! ### Whole texts -/

theorem charsFrom_flatMap (read chars : List Char) :
    charsFrom read (chars.flatMap String.utf8EncodeChar) = some (read.reverse ++ chars) := by
  induction chars generalizing read with
  | nil => simp [charsFrom]
  | cons c chars ih =>
    rw [List.flatMap_cons, charsFrom_encodeChar, ih, List.reverse_cons, List.append_assoc,
      List.singleton_append]

/-- The bytes of a text are read as that text. -/
theorem decode?_encode (text : String) : decode? (encode text) = some text := by
  unfold decode? encode
  rw [charsFrom_flatMap, List.reverse_nil, List.nil_append, Option.map_some, String.ofList_toList]

end Gossip.Utf8
