import Gossip.Proofs.Json.Skip

/-!
A value that a reader accepts is taken as a whole: nothing of it is left, and nothing is taken of
what stands behind it. This holds for each reader, on any value that the grammar has, whether the
value is of the kind that is due or not; so what stands behind a value is the same for every reader
that gets through.
-/

set_option autoImplicit false
set_option relaxedAutoImplicit false

namespace Gossip.Json

/-! ### What a value is, by its first byte -/

structure Item.Sound (i : Item) : Prop where
  padded : i.Padded
  value : WellFormed i.value

structure Entry.Sound (e : Entry) : Prop where
  padded : e.Padded
  name : Quotable e.name
  value : WellFormed e.item.value

/-- The value is an object with these members. -/
structure IsObject (v : Bytes) (entries : List Entry) : Prop where
  text : ∃ blanks, Blank blanks ∧ v = objectText blanks entries
  sound : ∀ e ∈ entries, e.Sound

/-- The value is a list of these items. -/
structure IsList (v : Bytes) (items : List Item) : Prop where
  text : ∃ blanks, Blank blanks ∧ v = listText blanks items
  sound : ∀ i ∈ items, i.Sound

theorem IsObject.wellFormed {v : Bytes} {entries : List Entry} (h : IsObject v entries) :
    WellFormed v := by
  obtain ⟨blanks, hblanks, rfl⟩ := h.text
  exact .object hblanks (fun e he ↦ (h.sound e he).padded) (fun e he ↦ (h.sound e he).name)
    fun e he ↦ (h.sound e he).value

/-- The values that start with a byte. -/
structure StartsWith (b : UInt8) (s : Bytes) : Prop where
  nullWord : b = 0x6E → s = nullTail
  trueWord : b = 0x74 → s = trueTail
  falseWord : b = 0x66 → s = falseTail
  digit : isDigit b = true → Unsigned (b :: s)
  minus : b = minusByte → Unsigned s
  quote : b = quoteByte → ∃ body, Quotable body ∧ s = body ++ [quoteByte]
  bracket : b = openBracket → ∃ items, IsList (b :: s) items
  brace : b = openBrace → ∃ entries, IsObject (b :: s) entries

theorem startsWith_of_wellFormed {v : Bytes} (h : WellFormed v) :
    ∃ b s, v = b :: s ∧ isBlank b = false ∧ StartsWith b s := by
  -- the first byte tells the kinds apart, so each case is right for one field and void for the rest
  cases h with
  | null =>
    refine ⟨_, _, rfl, by decide, ?_⟩
    constructor <;> intro hb <;> first | rfl | exact absurd hb (by decide)
  | bool b =>
    cases b <;>
    · refine ⟨_, _, rfl, by decide, ?_⟩
      constructor <;> intro hb <;> first | rfl | exact absurd hb (by decide)
  | number hv =>
    obtain ⟨b, s, rfl, hb⟩ := hv.exists_cons
    refine ⟨b, s, rfl, isBlank_of_isDigit hb, ?_⟩
    constructor <;> intro hb' <;> first
      | exact hv
      | subst hb'; exact absurd hb (by decide)
  | negative hv =>
    refine ⟨_, _, rfl, by decide, ?_⟩
    constructor <;> intro hb <;> first | exact hv | exact absurd hb (by decide)
  | text hs =>
    refine ⟨_, _, rfl, by decide, ?_⟩
    constructor <;> intro hb <;> first | exact ⟨_, hs, rfl⟩ | exact absurd hb (by decide)
  | list hblanks hpadded hvalues =>
    refine ⟨_, _, rfl, by decide, ?_⟩
    constructor <;> intro hb <;> first
      | exact ⟨_, ⟨_, hblanks, rfl⟩, fun i hi ↦ ⟨hpadded i hi, hvalues i hi⟩⟩
      | exact absurd hb (by decide)
  | object hblanks hpadded hnames hvalues =>
    refine ⟨_, _, rfl, by decide, ?_⟩
    constructor <;> intro hb <;> first
      | exact ⟨_, ⟨_, hblanks, rfl⟩, fun e he ↦ ⟨hpadded e he, hnames e he, hvalues e he⟩⟩
      | exact absurd hb (by decide)

/-! ### Strings -/

theorem exists_shortEscape? {e : UInt8} (h : Skim.isShortEscape e = true) :
    e ≠ 0x75 ∧ ∃ c, shortEscape? e = some c := by
  simp only [Skim.isShortEscape, Bool.or_eq_true, beq_iff_eq] at h
  rcases h with ((((((rfl | rfl) | rfl) | rfl) | rfl) | rfl) | rfl) | rfl <;>
    exact ⟨by decide, _, rfl⟩

theorem exists_four? {p q r t : UInt8} (h : ∀ d ∈ [p, q, r, t], (Hex.digit? d).isSome = true) :
    ∃ n, Hex.four? p q r t = some n := by
  simp only [List.forall_mem_cons, Option.isSome_iff_exists] at h
  obtain ⟨⟨w, hw⟩, ⟨x, hx⟩, ⟨y, hy⟩, ⟨z, hz⟩, -⟩ := h
  exact ⟨((w * 16 + x) * 16 + y) * 16 + z, by simp [Hex.four?, hw, hx, hy, hz]⟩

/-- No code point is both halves of a pair. -/
theorem isTrailing_of_isLeading {n : Nat} (h : isLeading n = true) : isTrailing n = false := by
  simp only [isLeading, isTrailing, Bool.and_eq_true, Bool.and_eq_false_iff,
    decide_eq_true_eq, decide_eq_false_iff_not] at h ⊢
  omega

section Escapes

variable {p q r t : UInt8} {n : Nat} (h : Hex.four? p q r t = some n) (read s : Bytes)

include h

theorem unescapeFrom_code (htrailing : isTrailing n = false) (hleading : isLeading n = false) :
    unescapeFrom read (backslashByte :: 0x75 :: p :: q :: r :: t :: s) =
      unescapeFrom (pushCode n read) s := by
  rw [unescapeFrom.eq_def]
  dsimp only
  rw [if_neg (by decide), if_pos rfl, if_pos rfl]
  simp only [h, htrailing, hleading, Bool.false_eq_true, ↓reduceIte]

theorem unescapeFrom_trailing (htrailing : isTrailing n = true) :
    unescapeFrom read (backslashByte :: 0x75 :: p :: q :: r :: t :: s) = .error .malformed := by
  rw [unescapeFrom.eq_def]
  dsimp only
  rw [if_neg (by decide), if_pos rfl, if_pos rfl]
  simp only [h, htrailing, ↓reduceIte]

/-- The two halves of a pair stand for one code point. -/
theorem unescapeFrom_pair {p' q' r' t' : UInt8} {m : Nat} (h' : Hex.four? p' q' r' t' = some m)
    (hleading : isLeading n = true) (htrailing : isTrailing m = true) :
    unescapeFrom read (backslashByte :: 0x75 :: p :: q :: r :: t ::
        backslashByte :: 0x75 :: p' :: q' :: r' :: t' :: s) =
      unescapeFrom (pushCode (pairCode n m) read) s := by
  have hother := isTrailing_of_isLeading hleading
  rw [unescapeFrom.eq_def]
  dsimp only
  rw [if_neg (by decide), if_pos rfl, if_pos rfl]
  simp only [h, hother, hleading, Bool.false_eq_true, ↓reduceIte]
  simp only [h', htrailing, ↓reduceIte]

/-- Half of a pair is nothing without the other half. -/
theorem unescapeFrom_leading (hleading : isLeading n = true) {rest : Bytes} (hs : Quotable s) :
    (∃ fault, unescapeFrom read
        (backslashByte :: 0x75 :: p :: q :: r :: t :: (s ++ quoteByte :: rest)) = .error fault) ∨
      ∃ p' q' r' t' m s', s = backslashByte :: 0x75 :: p' :: q' :: r' :: t' :: s' ∧
        Hex.four? p' q' r' t' = some m ∧ isTrailing m = true ∧ Quotable s' := by
  have hother := isTrailing_of_isLeading hleading
  rw [unescapeFrom.eq_def]
  dsimp only
  rw [if_neg (by decide), if_pos rfl, if_pos rfl]
  simp only [h, hother, hleading, Bool.false_eq_true, ↓reduceIte]
  cases hs with
  | nil => exact Or.inl ⟨_, rfl⟩
  | plain hb _ =>
    refine Or.inl ⟨.malformed, ?_⟩
    simp [hb.2.1]
  | short he _ =>
    refine Or.inl ⟨.malformed, ?_⟩
    simp [(exists_shortEscape? he).1]
  | @code p' q' r' t' s' hdigits hs' =>
    obtain ⟨m, hm⟩ := exists_four? hdigits
    cases htrailing : isTrailing m with
    | false =>
      refine Or.inl ⟨.malformed, ?_⟩
      simp [hm, htrailing]
    | true => exact Or.inr ⟨p', q', r', t', m, s', rfl, hm, htrailing, hs'⟩

end Escapes

/-- A string that is read ends with its closing quote. -/
theorem eq_of_unescapeFrom {s : Bytes} (hs : Quotable s) {read rest raw behind : Bytes}
    (h : unescapeFrom read (s ++ quoteByte :: rest) = .ok (raw, behind)) : behind = rest := by
  -- a pair is two escapes at once, so the induction is on the length
  induction hlength : s.length using Nat.strongRecOn generalizing s read with
  | ind length ih =>
    cases hs with
    | nil =>
      rw [List.nil_append, unescapeFrom.eq_def] at h
      exact (Prod.mk.inj (Except.ok.inj h)).2.symm
    | @plain b s hb hs =>
      rw [List.cons_append, unescapeFrom_cons hb] at h
      exact ih s.length (by simp at hlength; omega) hs h rfl
    | @short e s he hs =>
      obtain ⟨hletter, c, hc⟩ := exists_shortEscape? he
      rw [List.cons_append, List.cons_append, unescapeFrom_short hc hletter] at h
      exact ih s.length (by simp at hlength; omega) hs h rfl
    | @code p q r t s hdigits hs =>
      obtain ⟨n, hn⟩ := exists_four? hdigits
      simp only [List.cons_append] at h
      cases htrailing : isTrailing n with
      | true =>
        rw [unescapeFrom_trailing hn _ _ htrailing] at h
        exact absurd h (by simp)
      | false =>
        cases hleading : isLeading n with
        | false =>
          rw [unescapeFrom_code hn _ _ htrailing hleading] at h
          exact ih s.length (by simp at hlength; omega) hs h rfl
        | true =>
          rcases unescapeFrom_leading hn read s hleading hs with
            ⟨fault, hfault⟩ | ⟨p', q', r', t', m, s', rfl, hm, htrailing', hs'⟩
          · rw [hfault] at h
            exact absurd h (by simp)
          · simp only [List.cons_append] at h
            rw [unescapeFrom_pair hn _ _ hm hleading htrailing'] at h
            exact ih s'.length (by simp at hlength; omega) hs' h rfl

theorem eq_of_textBody {s : Bytes} (hs : Quotable s) {rest behind : Bytes} {text : String}
    (h : textBody (s ++ quoteByte :: rest) = .ok (text, behind)) : behind = rest := by
  unfold textBody at h
  split at h
  · exact absurd h (by simp)
  next raw more hread =>
    split at h
    · obtain ⟨-, rfl⟩ := Prod.mk.inj (Except.ok.inj h)
      exact eq_of_unescapeFrom hs hread
    · exact absurd h (by simp)

/-! ### Numbers -/

/-- What comes of the bytes is settled by them, whatever stands behind a value. -/
def Settled {α : Type} (reader : Reader α) (v : Bytes) : Prop :=
  ∃ outcome : Except Fault α, ∀ rest, Ends rest → reader (v ++ rest) = outcome.map (·, rest)

theorem wholeDigits_append {whole : Bytes} (h : WholePart whole) {rest : Bytes}
    (hrest : ∀ b ∈ rest.head?, isDigit b = false) :
    wholeDigits (whole ++ rest) = .ok (whole.map digitValue, rest) := by
  cases h with
  | zero =>
    cases rest with
    | nil => rfl
    | cons d rest =>
      simp [wholeDigits, hrest d rfl]
      decide
  | @digits b ds hb hzero hds =>
    have hall : ∀ c ∈ b :: ds, isDigit c = true := List.forall_mem_cons.mpr ⟨hb, hds⟩
    rw [← digits_append hall hrest]
    exact (if_neg hzero).trans (if_pos hb)

theorem someDigits_append {d : UInt8} {ds rest : Bytes} (hd : isDigit d = true) (hds : Digits ds)
    (hrest : ∀ b ∈ rest.head?, isDigit b = false) :
    someDigits (d :: ds ++ rest) = .ok ((d :: ds).map digitValue, rest) := by
  have hall : ∀ c ∈ d :: ds, isDigit c = true := List.forall_mem_cons.mpr ⟨hd, hds⟩
  rw [← digits_append hall hrest]
  exact if_pos hd

theorem fractionPart_append {fraction : Bytes} (h : FractionPart fraction) (x : Scaled) :
    ∃ y pointed, ∀ rest : Bytes, (∀ b ∈ rest.head?, isDigit b = false ∧ b ≠ 0x2E) →
      fractionPart x (fraction ++ rest) = .ok (y, pointed, rest) := by
  cases h with
  | none =>
    refine ⟨x, false, fun rest hrest ↦ ?_⟩
    cases rest with
    | nil => rfl
    | cons b rest => exact if_neg (hrest b rfl).2
  | @point d ds hd hds =>
    refine ⟨x.pushFraction ((d :: ds).map digitValue), true, fun rest hrest ↦ ?_⟩
    rw [List.cons_append, fractionPart, if_pos rfl,
      someDigits_append hd hds fun b hb ↦ (hrest b hb).1]

theorem exponentPart_append {exponent : Bytes} (h : ExponentPart exponent) (x : Scaled) :
    ∃ y powered, ∀ rest : Bytes, Ends rest →
      exponentPart x (exponent ++ rest) = .ok (y, powered, rest) := by
  cases h with
  | none =>
    refine ⟨x, false, fun rest hrest ↦ ?_⟩
    cases rest with
    | nil => rfl
    | cons b rest => exact if_neg hrest.cons.2.2
  | @power e d sign ds he hsign hd hds =>
    have hmore (rest : Bytes) (hrest : Ends rest) :
        someDigits (d :: (ds ++ rest)) = .ok ((d :: ds).map digitValue, rest) := by
      refine someDigits_append hd hds fun b hb ↦ ?_
      cases rest with
      | nil => exact absurd hb (by simp)
      | cons c rest => exact Option.some.inj hb ▸ hrest.cons.1
    have hplus : d ≠ 0x2B := by
      rintro rfl
      exact absurd hd (by decide)
    have hminus : d ≠ minusByte := by
      rintro rfl
      exact absurd hd (by decide)
    let size : Int := (((d :: ds).map digitValue).foldl (fun n d ↦ n * 10 + d) 0 : Nat)
    rcases hsign with rfl | rfl | rfl
    · refine ⟨⟨x.significand, x.exponent + size, x.cut⟩, true, fun rest hrest ↦ ?_⟩
      simp [exponentPart, he, hplus, hminus, hmore rest hrest, size]
    · refine ⟨⟨x.significand, x.exponent + size, x.cut⟩, true, fun rest hrest ↦ ?_⟩
      simp [exponentPart, he, hmore rest hrest, size]
    · have hother : minusByte ≠ 0x2B := by decide
      refine ⟨⟨x.significand, x.exponent - size, x.cut⟩, true, fun rest hrest ↦ ?_⟩
      simp [exponentPart, he, hother, hmore rest hrest, size]

theorem head?_exponent {exponent rest : Bytes} (h : ExponentPart exponent) (hrest : Ends rest) :
    ∀ b ∈ (exponent ++ rest).head?, isDigit b = false ∧ b ≠ 0x2E := by
  intro b hb
  cases h with
  | none =>
    cases rest with
    | nil => exact absurd hb (by simp)
    | cons c rest =>
      obtain rfl := Option.some.inj hb
      exact ⟨hrest.cons.1, hrest.cons.2.1⟩
  | power he _ _ _ =>
    obtain rfl := Option.some.inj hb
    rcases he with rfl | rfl <;> decide

theorem head?_fraction {fraction rest : Bytes} (h : FractionPart fraction)
    (hrest : ∀ b ∈ rest.head?, isDigit b = false ∧ b ≠ 0x2E) :
    ∀ b ∈ (fraction ++ rest).head?, isDigit b = false := by
  intro b hb
  cases h with
  | none => exact (hrest b hb).1
  | point _ _ =>
    obtain rfl := Option.some.inj hb
    decide

/-- A number is read up to its end, or it is too large for any double. -/
theorem settled_unsignedNumber (negative : Bool) {v : Bytes} (h : Unsigned v) :
    Settled (unsignedNumber negative) v := by
  obtain ⟨hwhole, hfraction, hexponent⟩ := h
  obtain ⟨x, pointed, hx⟩ :=
    fractionPart_append hfraction ((List.map digitValue _).foldl Scaled.pushWhole .zero)
  obtain ⟨y, powered, hy⟩ := exponentPart_append hexponent x
  refine ⟨if pointed || powered || y.cut then
      if y.tooLarge then .error .malformed else .ok .fraction
    else .ok (Number.ofWhole negative y.significand), fun rest hrest ↦ ?_⟩
  have hbehind := head?_exponent hexponent hrest
  unfold unsignedNumber
  rw [List.append_assoc, List.append_assoc,
    wholeDigits_append hwhole (head?_fraction hfraction hbehind)]
  dsimp only
  rw [hx _ hbehind]
  dsimp only
  rw [hy rest hrest]
  dsimp only
  split_ifs <;> rfl

theorem settled_number {b : UInt8} {s : Bytes} (h : StartsWith b s)
    (hb : b = minusByte ∨ isDigit b = true) : Settled number (b :: s) := by
  rcases hb with rfl | hb
  · obtain ⟨outcome, houtcome⟩ := settled_unsignedNumber true (h.minus rfl)
    refine ⟨outcome, fun rest hrest ↦ ?_⟩
    rw [List.cons_append, number, if_pos rfl, houtcome rest hrest]
  · have hminus : b ≠ minusByte := by
      rintro rfl
      exact absurd hb (by decide)
    obtain ⟨outcome, houtcome⟩ := settled_unsignedNumber false (h.digit hb)
    exact ⟨outcome, fun rest hrest ↦ (if_neg hminus).trans (houtcome rest hrest)⟩

/-! ### Values without parts -/

/-- If the reader accepts a value, with any white space in front of it, then it takes the value as a
whole. -/
def TakesWhole {α : Type} (reader : Reader α) : Prop :=
  ∀ {before v rest behind : Bytes} {a : α}, Blank before → WellFormed v → Ends rest →
    reader (before ++ (v ++ rest)) = .ok (a, behind) → behind = rest

theorem Reader.exists_of_map {α β : Type} {reader : Reader α} {f : α → β} {s rest : Bytes} {b : β}
    (h : reader.map f s = .ok (b, rest)) : ∃ a, reader s = .ok (a, rest) ∧ b = f a := by
  unfold Reader.map at h
  split at h
  · exact absurd h (by simp)
  next a more hread =>
    obtain ⟨rfl, rfl⟩ := Prod.mk.inj (Except.ok.inj h)
    exact ⟨a, hread, rfl⟩

theorem TakesWhole.map {α β : Type} {reader : Reader α} (f : α → β) (h : TakesWhole reader) :
    TakesWhole (reader.map f) := by
  intro before v rest behind b hbefore hv hrest hread
  obtain ⟨a, hread, -⟩ := Reader.exists_of_map hread
  exact h hbefore hv hrest hread

/-- White space in front of a value makes no difference to the reader. -/
def IgnoresBlank {α : Type} (reader : Reader α) : Prop := ∀ s, reader (skipBlank s) = reader s

theorem IgnoresBlank.append {α : Type} {reader : Reader α} (h : IgnoresBlank reader)
    {before v : Bytes} (hbefore : Blank before) (hv : WellFormed v) (rest : Bytes) :
    reader (before ++ (v ++ rest)) = reader (v ++ rest) := by
  rw [← h, skipBlank_value hbefore hv]

/-- Behind the white space, the reader sees what the value starts with. -/
theorem IgnoresBlank.takesWhole {α : Type} {reader : Reader α} (hblank : IgnoresBlank reader)
    (h : ∀ {b : UInt8} {s rest behind : Bytes} {a : α}, StartsWith b s → isBlank b = false →
      Ends rest → reader (b :: (s ++ rest)) = .ok (a, behind) → behind = rest) :
    TakesWhole reader := by
  intro before v rest behind a hbefore hv hrest hread
  rw [hblank.append hbefore hv] at hread
  obtain ⟨b, s, rfl, hb, hstarts⟩ := startsWith_of_wellFormed hv
  exact h hstarts hb hrest hread

theorem skipBlank_skipBlank (s : Bytes) : skipBlank (skipBlank s) = skipBlank s := by
  unfold skipBlank
  induction s with
  | nil => rfl
  | cons b s ih => cases hb : isBlank b <;> simp [hb, ih]

theorem ignoresBlank_text : IgnoresBlank text := by
  intro s
  simp only [text, skipBlank_skipBlank]

theorem takesWhole_text : TakesWhole text := by
  refine (ignoresBlank_text).takesWhole ?_
  intro b s rest behind a hstarts hb _ hread
  rw [text, skipBlank_cons hb] at hread
  dsimp only at hread
  split at hread
  next hquote =>
    obtain ⟨body, hbody, rfl⟩ := hstarts.quote hquote
    rw [List.append_assoc] at hread
    exact eq_of_textBody hbody hread
  · exact absurd hread (by simp)

theorem ignoresBlank_bool : IgnoresBlank bool := by
  intro s
  simp only [bool, skipBlank_skipBlank]

theorem takesWhole_bool : TakesWhole bool := by
  refine (ignoresBlank_bool).takesWhole ?_
  intro b s rest behind a hstarts hb _ hread
  rw [bool, skipBlank_cons hb] at hread
  dsimp only at hread
  split at hread
  next htrue =>
    rw [hstarts.trueWord htrue, word_append] at hread
    exact (Prod.mk.inj (Except.ok.inj hread)).2.symm
  · split at hread
    next hfalse =>
      rw [hstarts.falseWord hfalse, word_append] at hread
      exact (Prod.mk.inj (Except.ok.inj hread)).2.symm
    · exact absurd hread (by simp)

theorem ignoresBlank_integer {α : Type} (fit : Bool → Nat → Option α) :
    IgnoresBlank (integer fit) := by
  intro s
  simp only [integer, skipBlank_skipBlank]

theorem takesWhole_integer {α : Type} (fit : Bool → Nat → Option α) :
    TakesWhole (integer fit) := by
  refine (ignoresBlank_integer fit).takesWhole ?_
  intro b s rest behind a hstarts hb hrest hread
  rw [integer, skipBlank_cons hb] at hread
  dsimp only at hread
  split at hread
  next hnumber =>
    obtain ⟨outcome, houtcome⟩ := settled_number hstarts hnumber
    rw [← List.cons_append, houtcome rest hrest] at hread
    cases outcome with
    | error fault => exact absurd hread (by simp [Except.map])
    | ok x =>
      cases x with
      | fraction => exact absurd hread (by simp [Except.map])
      | whole negative n =>
        simp only [Except.map] at hread
        split at hread
        · exact (Prod.mk.inj (Except.ok.inj hread)).2.symm
        · exact absurd hread (by simp)
  · exact absurd hread (by simp)

theorem TakesWhole.nullable {α : Type} {reader : Reader α} (default : α)
    (h : TakesWhole reader) : TakesWhole (nullable default reader) := by
  intro before v rest behind a hbefore hv hrest hread
  have hskip := skipBlank_value hbefore hv rest
  have hwell := hv
  obtain ⟨b, s, rfl, hb, hstarts⟩ := startsWith_of_wellFormed hv
  unfold Json.nullable at hread
  rw [hskip, List.cons_append] at hread
  dsimp only at hread
  split at hread
  next hnull =>
    rw [hstarts.nullWord hnull, word_append] at hread
    exact (Prod.mk.inj (Except.ok.inj hread)).2.symm
  · exact h blank_nil hwell hrest hread

theorem takesWhole_skipValue {α : Type} (a : α) :
    TakesWhole fun s ↦ (skipValue s).map (a, ·) := by
  intro before v rest behind b hbefore hv hrest hread
  dsimp only at hread
  rw [skipValue_append hbefore hv hrest] at hread
  exact (Prod.mk.inj (Except.ok.inj hread)).2.symm

end Gossip.Json
