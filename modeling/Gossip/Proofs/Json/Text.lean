import Gossip.Json.Text
import Gossip.Proofs.Utf8
import Mathlib.Tactic.SplitIfs

/-!
A written string is read back up to its closing quote, whatever stands behind it. Each character
is written in one of three ways: as itself, as an escape of two letters, or as the number of a
control character. Between the quotes the reader collects the UTF-8 bytes of the text.
-/

set_option autoImplicit false
set_option relaxedAutoImplicit false

namespace Gossip.Json

/-! ### Bytes that stand for themselves -/

/-- A byte between the quotes that neither ends the string nor starts an escape. -/
def IsPlain (b : UInt8) : Prop := b ≠ quoteByte ∧ b ≠ backslashByte ∧ ¬b < 0x20

instance : DecidablePred IsPlain := fun _ ↦ inferInstanceAs (Decidable (_ ∧ _ ∧ _))

theorem unescapeFrom_cons {b : UInt8} (h : IsPlain b) (read rest : Bytes) :
    unescapeFrom read (b :: rest) = unescapeFrom (b :: read) rest := by
  obtain ⟨hquote, hbackslash, hcontrol⟩ := h
  rw [unescapeFrom.eq_def]
  dsimp only
  rw [if_neg hquote, if_neg hbackslash, if_neg hcontrol]

theorem unescapeFrom_plain {bytes : Bytes} (h : ∀ b ∈ bytes, IsPlain b) (read rest : Bytes) :
    unescapeFrom read (bytes ++ rest) = unescapeFrom (bytes.reverse ++ read) rest := by
  induction bytes generalizing read with
  | nil => rfl
  | cons b bytes ih =>
    obtain ⟨hb, hbytes⟩ := List.forall_mem_cons.mp h
    rw [List.cons_append, unescapeFrom_cons hb, ih hbytes, List.reverse_cons, List.append_assoc,
      List.singleton_append]

theorem isPlain_of_toNat {b : UInt8} (hleast : 0x20 ≤ b.toNat) (hquote : b.toNat ≠ 0x22)
    (hbackslash : b.toNat ≠ 0x5C) : IsPlain b := by
  refine ⟨fun h ↦ hquote ?_, fun h ↦ hbackslash ?_, fun h ↦ ?_⟩
  · rw [h]; rfl
  · rw [h]; rfl
  · exact absurd (UInt8.lt_iff_toNat_lt.mp h) (Nat.not_lt.mpr hleast)

theorem isPlain_utf8EncodeChar {c : Char} (hleast : 0x20 ≤ c.toNat) (hquote : c.toNat ≠ 0x22)
    (hbackslash : c.toNat ≠ 0x5C) : ∀ b ∈ String.utf8EncodeChar c, IsPlain b := by
  intro b hb
  have hval : c.val.toNat = c.toNat := rfl
  -- the bytes of a longer character are all at least 0x80
  have hlarge : ∀ n, 0x80 ≤ n → n < 0x100 → b = UInt8.ofNat n → IsPlain b := by
    intro n hn hlt heq
    have hbyte : b.toNat = n := heq ▸ Utf8.toNat_ofNat_of_lt hlt
    exact isPlain_of_toNat (by omega) (by omega) (by omega)
  unfold String.utf8EncodeChar at hb
  simp only [hval] at hb
  split at hb
  next hone =>
    have hbyte : b.toNat = c.toNat :=
      List.mem_singleton.mp hb ▸ Utf8.toNat_ofNat_of_lt (by omega)
    exact isPlain_of_toNat (by omega) (by omega) (by omega)
  next hone =>
    split at hb
    next htwo =>
      simp only [List.mem_cons, List.not_mem_nil, or_false] at hb
      rcases hb with hb | hb <;> exact hlarge _ (by omega) (by omega) hb
    next htwo =>
      split at hb
      next hthree =>
        simp only [List.mem_cons, List.not_mem_nil, or_false] at hb
        rcases hb with hb | hb | hb <;> exact hlarge _ (by omega) (by omega) hb
      next hthree =>
        simp only [List.mem_cons, List.not_mem_nil, or_false] at hb
        rcases hb with hb | hb | hb | hb <;> exact hlarge _ (by omega) (by omega) hb

/-! ### Escapes -/

theorem unescapeFrom_short {e b : UInt8} (h : shortEscape? e = some b) (hletter : e ≠ 0x75)
    (read rest : Bytes) :
    unescapeFrom read (backslashByte :: e :: rest) = unescapeFrom (b :: read) rest := by
  rw [unescapeFrom.eq_def]
  dsimp only
  rw [if_neg (by decide), if_pos rfl, if_neg hletter]
  simp only [h]

theorem four?_control : ∀ n < 0x20, Hex.four? zeroByte zeroByte (Hex.digitByte (n / 16))
    (Hex.digitByte (n % 16)) = some n := by decide

theorem unescapeFrom_control {n : Nat} (h : n < 0x20) (read rest : Bytes) :
    unescapeFrom read (backslashByte :: 0x75 :: zeroByte :: zeroByte :: Hex.digitByte (n / 16) ::
      Hex.digitByte (n % 16) :: rest) = unescapeFrom (pushCode n read) rest := by
  have htrailing : isTrailing n = false := by
    unfold isTrailing
    rw [decide_eq_false (by omega), Bool.false_and]
  have hleading : isLeading n = false := by
    unfold isLeading
    rw [decide_eq_false (by omega), Bool.false_and]
  rw [unescapeFrom.eq_def]
  dsimp only
  rw [if_neg (by decide), if_pos rfl, if_pos rfl]
  simp only [four?_control n h, htrailing, hleading, Bool.false_eq_true, ↓reduceIte]

/-- One written character adds its UTF-8 bytes to what has been read. -/
theorem unescapeFrom_escape (c : Char) (read rest : Bytes) :
    unescapeFrom read (escape c ++ rest) =
      unescapeFrom ((String.utf8EncodeChar c).reverse ++ read) rest := by
  unfold escape
  split_ifs with hquote hbackslash hb hf hn hr ht hcontrol
  · subst hquote; exact unescapeFrom_short (by decide) (by decide) read rest
  · subst hbackslash; exact unescapeFrom_short (by decide) (by decide) read rest
  · subst hb; exact unescapeFrom_short (by decide) (by decide) read rest
  · subst hf; exact unescapeFrom_short (by decide) (by decide) read rest
  · subst hn; exact unescapeFrom_short (by decide) (by decide) read rest
  · subst hr; exact unescapeFrom_short (by decide) (by decide) read rest
  · subst ht; exact unescapeFrom_short (by decide) (by decide) read rest
  · rw [show (String.utf8EncodeChar c).reverse ++ read = pushCode c.toNat read by
      rw [pushCode, Char.ofNat_toNat]]
    exact unescapeFrom_control hcontrol read rest
  · refine unescapeFrom_plain (isPlain_utf8EncodeChar (by omega) ?_ ?_) read rest
    · exact fun h ↦ hquote (Char.toNat_inj.mp h)
    · exact fun h ↦ hbackslash (Char.toNat_inj.mp h)

theorem unescapeFrom_flatMap (chars : List Char) (read rest : Bytes) :
    unescapeFrom read (chars.flatMap escape ++ quoteByte :: rest) =
      .ok (read.reverse ++ chars.flatMap String.utf8EncodeChar, rest) := by
  induction chars generalizing read with
  | nil =>
    rw [List.flatMap_nil, List.nil_append, unescapeFrom.eq_def]
    dsimp only
    rw [if_pos rfl, List.flatMap_nil, List.append_nil]
  | cons c chars ih =>
    rw [List.flatMap_cons, List.append_assoc, unescapeFrom_escape, ih, List.flatMap_cons,
      List.reverse_append, List.reverse_reverse, List.append_assoc]

/-- A written string, behind its opening quote. -/
theorem textBody_writeText (text : String) (rest : Bytes) :
    textBody ((writeText text).tail ++ rest) = .ok (text, rest) := by
  have hbody : (writeText text).tail ++ rest =
      text.toList.flatMap escape ++ quoteByte :: rest := by
    simp [writeText]
  unfold textBody
  rw [hbody, unescapeFrom_flatMap, List.reverse_nil, List.nil_append]
  simp only [show text.toList.flatMap String.utf8EncodeChar = Utf8.encode text from rfl,
    Utf8.decode?_encode]

end Gossip.Json
