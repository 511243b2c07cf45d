import Gossip.Proofs.Json.Whole

/-!
What a value stands for, said without any reader: a string for the text that is left when its
escapes are taken away, a number for the integer whose digits it has, a word for a truth value. Each
reader accepts the values that stand for something of its kind, with any white space in front of
them and in front of anything that may stand behind a value.
-/

set_option autoImplicit false
set_option relaxedAutoImplicit false

namespace Gossip.Json

/-! ### Strings -/

/-- The bytes between the quotes, and the bytes that they stand for. An escape of four digits is a
code point of its own, or it is half of a pair and the other half follows. -/
inductive Unescapes : Bytes → Bytes → Prop
  | nil : Unescapes [] []
  | plain {b : UInt8} {s raw : Bytes} (hb : IsPlain b) (hs : Unescapes s raw) :
    Unescapes (b :: s) (b :: raw)
  | short {e c : UInt8} {s raw : Bytes} (he : shortEscape? e = some c) (hs : Unescapes s raw) :
    Unescapes (backslashByte :: e :: s) (c :: raw)
  | code {p q r t : UInt8} {n : Nat} {s raw : Bytes} (hn : Hex.four? p q r t = some n)
    (hleading : isLeading n = false) (htrailing : isTrailing n = false) (hs : Unescapes s raw) :
    Unescapes (backslashByte :: 0x75 :: p :: q :: r :: t :: s)
      (String.utf8EncodeChar (Char.ofNat n) ++ raw)
  | pair {p q r t p' q' r' t' : UInt8} {n m : Nat} {s raw : Bytes} (hn : Hex.four? p q r t = some n)
    (hm : Hex.four? p' q' r' t' = some m) (hleading : isLeading n = true)
    (htrailing : isTrailing m = true) (hs : Unescapes s raw) :
    Unescapes (backslashByte :: 0x75 :: p :: q :: r :: t ::
        backslashByte :: 0x75 :: p' :: q' :: r' :: t' :: s)
      (String.utf8EncodeChar (Char.ofNat (pairCode n m)) ++ raw)

/-- The bytes between the quotes spell a text. -/
def Spelled (s : Bytes) (text : String) : Prop := Unescapes s (Utf8.encode text)

theorem spelled_encode {text : String} (h : (Utf8.encode text).all (IsPlain ·)) :
    Spelled (Utf8.encode text) text := by
  unfold Spelled
  generalize Utf8.encode text = s at h
  induction s with
  | nil => exact .nil
  | cons b s ih =>
    rw [List.all_cons, Bool.and_eq_true, decide_eq_true_eq] at h
    exact .plain h.1 (ih h.2)

theorem isShortEscape_of_shortEscape? {e c : UInt8} (h : shortEscape? e = some c) :
    Skim.isShortEscape e = true ∧ e ≠ 0x75 := by
  unfold shortEscape? at h
  split_ifs at h with hself hb hf hn hr ht
  · rcases hself with rfl | rfl | rfl <;> decide
  · subst hb; decide
  · subst hf; decide
  · subst hn; decide
  · subst hr; decide
  · subst ht; decide

theorem isSome_digit?_of_four? {p q r t : UInt8} {n : Nat} (h : Hex.four? p q r t = some n) :
    ∀ d ∈ [p, q, r, t], (Hex.digit? d).isSome = true := by
  unfold Hex.four? at h
  split at h
  next hp hq hr ht => simp [hp, hq, hr, ht]
  · exact absurd h (by simp)

theorem Unescapes.quotable {s raw : Bytes} (h : Unescapes s raw) : Quotable s := by
  induction h with
  | nil => exact .nil
  | plain hb _ ih => exact .plain hb ih
  | short he _ ih => exact .short (isShortEscape_of_shortEscape? he).1 ih
  | code hn _ _ _ ih => exact .code (isSome_digit?_of_four? hn) ih
  | pair hn hm _ _ _ ih =>
    exact .code (isSome_digit?_of_four? hn) (.code (isSome_digit?_of_four? hm) ih)

theorem unescapeFrom_unescapes {s raw : Bytes} (h : Unescapes s raw) (read rest : Bytes) :
    unescapeFrom read (s ++ quoteByte :: rest) = .ok (read.reverse ++ raw, rest) := by
  have hpush (n : Nat) (read raw : Bytes) : (pushCode n read).reverse ++ raw =
      read.reverse ++ (String.utf8EncodeChar (Char.ofNat n) ++ raw) := by
    rw [pushCode, List.reverse_append, List.reverse_reverse, List.append_assoc]
  induction h generalizing read with
  | nil =>
    rw [List.nil_append, unescapeFrom.eq_def, List.append_nil]
    rfl
  | @plain b s raw hb _ ih =>
    rw [List.cons_append, unescapeFrom_cons hb, ih, List.reverse_cons, List.append_assoc,
      List.singleton_append]
  | @short e c s raw he _ ih =>
    rw [List.cons_append, List.cons_append,
      unescapeFrom_short he (isShortEscape_of_shortEscape? he).2, ih, List.reverse_cons,
      List.append_assoc, List.singleton_append]
  | code hn hleading htrailing _ ih =>
    simp only [List.cons_append]
    rw [unescapeFrom_code hn _ _ htrailing hleading, ih, hpush]
  | pair hn hm hleading htrailing _ ih =>
    simp only [List.cons_append]
    rw [unescapeFrom_pair hn _ _ hm hleading htrailing, ih, hpush]

theorem textBody_spelled {s : Bytes} {text : String} (h : Spelled s text) (rest : Bytes) :
    textBody (s ++ quoteByte :: rest) = .ok (text, rest) := by
  unfold textBody
  rw [unescapeFrom_unescapes h]
  simp only [List.reverse_nil, List.nil_append, Utf8.decode?_encode]

/-- The value is a string that spells the text. -/
def IsText (v : Bytes) (text : String) : Prop :=
  ∃ s, v = quoteByte :: (s ++ [quoteByte]) ∧ Spelled s text

/-! ### What readers accept -/

/-- The reader takes the value for what it stands for, with any white space in front of it and
whatever may stand behind a value. -/
def Accepts {α : Type} (reader : Reader α) (v : Bytes) (a : α) : Prop :=
  ∀ before rest, Blank before → Ends rest → reader (before ++ (v ++ rest)) = .ok (a, rest)

section Accepts

variable {α : Type} {reader : Reader α} {v : Bytes} {a : α}

theorem Accepts.map {β : Type} (f : α → β) (h : Accepts reader v a) :
    Accepts (reader.map f) v (f a) := by
  intro before rest hbefore hrest
  unfold Reader.map
  rw [h before rest hbefore hrest]

theorem IgnoresBlank.accepts (hblank : IgnoresBlank reader) (hv : WellFormed v)
    (h : ∀ rest, Ends rest → reader (v ++ rest) = .ok (a, rest)) : Accepts reader v a := by
  intro before rest hbefore hrest
  rw [hblank.append hbefore hv]
  exact h rest hrest

theorem accepts_text {value : String} (h : IsText v value) : Accepts text v value := by
  obtain ⟨s, rfl, hs⟩ := h
  refine ignoresBlank_text.accepts (.text hs.quotable) fun rest _ ↦ ?_
  unfold text
  rw [List.cons_append, skipBlank_cons (by decide), List.append_assoc]
  exact textBody_spelled hs rest

theorem accepts_bool (b : Bool) : Accepts bool (writeBool b) b :=
  ignoresBlank_bool.accepts (.bool b) fun rest _ ↦ bool_writeBool b rest

/-- What an integer is does not depend on what stands behind it. -/
theorem accepts_integer {fit : Bool → Nat → Option α} (hv : WellFormed v)
    (h : integer fit v = .ok (a, [])) : Accepts (integer fit) v a := by
  refine (ignoresBlank_integer fit).accepts hv fun rest hrest ↦ ?_
  obtain ⟨b, s, rfl, hb, hstarts⟩ := startsWith_of_wellFormed hv
  unfold integer at h ⊢
  rw [List.cons_append]
  rw [skipBlank_cons hb] at h ⊢
  dsimp only at h ⊢
  split at h
  next hnumber =>
    obtain ⟨outcome, houtcome⟩ := settled_number hstarts hnumber
    have hnil := houtcome [] ends_nil
    rw [List.append_nil] at hnil
    rw [hnil] at h
    rw [if_pos hnumber, ← List.cons_append, houtcome rest hrest]
    cases outcome with
    | error fault => exact absurd h (by simp [Except.map])
    | ok x =>
      cases x with
      | fraction => exact absurd h (by simp [Except.map])
      | whole negative n =>
        simp only [Except.map] at h ⊢
        split at h
        next hfit =>
          obtain ⟨rfl, -⟩ := Prod.mk.inj (Except.ok.inj h)
          rfl
        · exact absurd h (by simp)
  · exact absurd h (by simp)

theorem unsigned_writeNat (n : Nat) : Unsigned (writeNat n) := by
  have hwhole : WholePart (writeNat n) := by
    rcases Nat.eq_zero_or_pos n with rfl | hpos
    · exact .zero
    · obtain ⟨b, tail, hwrite, hzero, hb⟩ := writeNat_eq_cons hpos
      rw [hwrite]
      refine .digits hb hzero fun c hc ↦ isDigit_of_mem_writeNat (n := n) ?_
      exact hwrite ▸ List.mem_cons_of_mem b hc
  have h := Unsigned.mk hwhole .none .none
  rwa [List.append_nil, List.append_nil] at h

theorem wellFormed_writeInt (n : Int) : WellFormed (writeInt n) := by
  unfold writeInt
  split
  · exact .negative (unsigned_writeNat _)
  · exact .number (unsigned_writeNat _)

theorem accepts_unsigned {bound n : Nat} (hbound : bound ≤ UInt64.size) (hn : n < bound) :
    Accepts (integer (fitUnsigned bound)) (writeNat n) n :=
  accepts_integer (.number (unsigned_writeNat n)) (reads_unsigned hbound hn).ok_nil

theorem accepts_unsigned8 (n : UInt8) : Accepts unsigned8 (writeNat n.toNat) n := by
  have h := (accepts_unsigned (by decide) n.toNat_lt_size).map UInt8.ofNat
  rwa [UInt8.ofNat_toNat] at h

theorem accepts_unsigned16 (n : UInt16) : Accepts unsigned16 (writeNat n.toNat) n := by
  have h := (accepts_unsigned (by decide) n.toNat_lt_size).map UInt16.ofNat
  rwa [UInt16.ofNat_toNat] at h

theorem accepts_unsigned64 (n : UInt64) : Accepts unsigned64 (writeNat n.toNat) n := by
  have h := (accepts_unsigned (Nat.le_refl _) n.toNat_lt_size).map UInt64.ofNat
  rwa [UInt64.ofNat_toNat] at h

theorem accepts_signed64 (n : Int64) : Accepts signed64 (writeInt n.toInt) n :=
  accepts_integer (wellFormed_writeInt _) (reads_signed64 n).ok_nil

/-- The value `null` is the default. -/
theorem accepts_null (default : α) (reader : Reader α) :
    Accepts (nullable default reader) (0x6E :: nullTail) default := by
  intro before rest hbefore _
  unfold nullable
  rw [skipBlank_value hbefore .null, List.cons_append]
  dsimp only
  rw [if_pos rfl, word_append]
  rfl

/-- A value that does not start like `null` is read as itself. -/
theorem Accepts.nullable (default : α) {b : UInt8} {s : Bytes} (hb : b ≠ 0x6E)
    (hv : WellFormed (b :: s)) (h : Accepts reader (b :: s) a) :
    Accepts (nullable default reader) (b :: s) a := by
  intro before rest hbefore hrest
  have hread := h [] rest blank_nil hrest
  unfold Json.nullable
  rw [skipBlank_value hbefore hv]
  exact (if_neg hb).trans hread

end Accepts

end Gossip.Json
