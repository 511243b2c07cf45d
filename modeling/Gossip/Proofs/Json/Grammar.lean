import Gossip.Json.Skip
import Gossip.Proofs.Json.Record

/-!
The grammar of JSON values, whatever they mean: words, numbers of any size, strings whose escapes
need not stand for anything, and lists and objects to any depth, with white space wherever it is
allowed. Every value starts with a byte that is neither white space nor closes a bracket.
-/

set_option autoImplicit false
set_option relaxedAutoImplicit false

namespace Gossip.Json

/-! ### Around values -/

/-- White space only. -/
def Blank (s : Bytes) : Prop := ∀ b ∈ s, isBlank b = true

instance : DecidablePred Blank := fun s ↦ List.decidableBAll _ s

/-- What stands behind a value: nothing, white space, a comma, or a bracket that closes. -/
def Ends (rest : Bytes) : Prop :=
  ∀ b ∈ rest.head?, isBlank b = true ∨ b = commaByte ∨ b = closeBrace ∨ b = closeBracket

theorem Blank.head {b : UInt8} {s : Bytes} (h : Blank (b :: s)) : isBlank b = true :=
  h b List.mem_cons_self

theorem Blank.tail {b : UInt8} {s : Bytes} (h : Blank (b :: s)) : Blank s :=
  fun x hx ↦ h x (List.mem_cons_of_mem b hx)

theorem blank_nil : Blank [] := fun _ h ↦ absurd h List.not_mem_nil

theorem skipBlank_append {before : Bytes} (h : Blank before) (s : Bytes) :
    skipBlank (before ++ s) = skipBlank s :=
  List.dropWhile_append_of_pos h

theorem Blank.skipBlank_eq_nil {s : Bytes} (h : Blank s) : skipBlank s = [] := by
  have hskip := skipBlank_append h []
  rwa [List.append_nil] at hskip

theorem ends_nil : Ends [] := by
  intro b hb
  exact absurd hb (by simp)

theorem ends_cons {b : UInt8}
    (hb : isBlank b = true ∨ b = commaByte ∨ b = closeBrace ∨ b = closeBracket) (rest : Bytes) :
    Ends (b :: rest) := by
  intro c hc
  exact Option.some.inj hc ▸ hb

theorem Ends.append {after rest : Bytes} (hafter : Blank after) (hrest : Ends rest) :
    Ends (after ++ rest) := by
  cases after with
  | nil => exact hrest
  | cons b after => exact ends_cons (Or.inl hafter.head) _

theorem Blank.ends {s : Bytes} (h : Blank s) : Ends s := by
  have hends := ends_nil.append h
  rwa [List.append_nil] at hends

/-- A byte in front of which every number ends. -/
theorem Ends.cons {b : UInt8} {rest : Bytes} (h : Ends (b :: rest)) :
    isDigit b = false ∧ b ≠ 0x2E ∧ ¬(b = 0x65 ∨ b = 0x45) := by
  rcases h b rfl with hblank | rfl | rfl | rfl
  · simp only [isBlank, Bool.or_eq_true, beq_iff_eq] at hblank
    rcases hblank with ((rfl | rfl) | rfl) | rfl <;> decide
  · decide
  · decide
  · decide

/-- Parts behind the first one, each behind its comma, up to what closes the list of them. -/
theorem ends_flatMap (tail : List Bytes) {closing : UInt8}
    (hclosing : closing = closeBrace ∨ closing = closeBracket) (rest : Bytes) :
    Ends (tail.flatMap (commaByte :: ·) ++ closing :: rest) := by
  cases tail with
  | nil => exact ends_cons (Or.inr (Or.inr hclosing)) rest
  | cons first tail =>
    rw [List.flatMap_cons, List.append_assoc, List.cons_append]
    exact ends_cons (Or.inr (Or.inl rfl)) _

/-! ### Strings and numbers -/

/-- The bytes between the quotes of a string. An escape of four digits may be half of a pair. -/
inductive Quotable : Bytes → Prop
  | nil : Quotable []
  | plain {b : UInt8} {s : Bytes} (hb : IsPlain b) (hs : Quotable s) : Quotable (b :: s)
  | short {e : UInt8} {s : Bytes} (he : Skim.isShortEscape e = true) (hs : Quotable s) :
    Quotable (backslashByte :: e :: s)
  | code {p q r t : UInt8} {s : Bytes} (hdigits : ∀ d ∈ [p, q, r, t], (Hex.digit? d).isSome = true)
    (hs : Quotable s) : Quotable (backslashByte :: 0x75 :: p :: q :: r :: t :: s)

def Digits (s : Bytes) : Prop := ∀ b ∈ s, isDigit b = true

/-- The digits in front of the point: a zero that stands alone, or digits behind another one. -/
inductive WholePart : Bytes → Prop
  | zero : WholePart [zeroByte]
  | digits {b : UInt8} {ds : Bytes} (hb : isDigit b = true) (hzero : b ≠ zeroByte)
    (hds : Digits ds) : WholePart (b :: ds)

inductive FractionPart : Bytes → Prop
  | none : FractionPart []
  | point {d : UInt8} {ds : Bytes} (hd : isDigit d = true) (hds : Digits ds) :
    FractionPart (0x2E :: d :: ds)

inductive ExponentPart : Bytes → Prop
  | none : ExponentPart []
  | power {e d : UInt8} {sign ds : Bytes} (he : e = 0x65 ∨ e = 0x45)
    (hsign : sign = [] ∨ sign = [0x2B] ∨ sign = [minusByte]) (hd : isDigit d = true)
    (hds : Digits ds) : ExponentPart (e :: (sign ++ d :: ds))

/-- A number without its sign. -/
inductive Unsigned : Bytes → Prop
  | mk {whole fraction exponent : Bytes} (hwhole : WholePart whole)
    (hfraction : FractionPart fraction) (hexponent : ExponentPart exponent) :
    Unsigned (whole ++ (fraction ++ exponent))

theorem WholePart.exists_cons {whole : Bytes} (h : WholePart whole) :
    ∃ b ds, whole = b :: ds ∧ isDigit b = true := by
  cases h with
  | zero => exact ⟨zeroByte, [], rfl, by decide⟩
  | digits hb _ _ => exact ⟨_, _, rfl, hb⟩

theorem Unsigned.exists_cons {v : Bytes} (h : Unsigned v) :
    ∃ b s, v = b :: s ∧ isDigit b = true := by
  obtain ⟨hwhole, _, _⟩ := h
  obtain ⟨b, ds, rfl, hb⟩ := hwhole.exists_cons
  exact ⟨b, _, rfl, hb⟩

/-! ### Values -/

/-- A value of a list or an object, with the white space around it. -/
structure Item where
  before : Bytes
  value : Bytes
  after : Bytes

/-- A member of an object: white space, the bytes between the quotes of its name, white space in
front of the colon, and its value. -/
structure Entry where
  before : Bytes
  name : Bytes
  between : Bytes
  item : Item

namespace Item

def text (i : Item) : Bytes := i.before ++ (i.value ++ i.after)

/-- Nothing but white space is around the value. -/
def Padded (i : Item) : Prop := Blank i.before ∧ Blank i.after

instance : DecidablePred Padded := fun _ ↦ inferInstanceAs (Decidable (_ ∧ _))

end Item

namespace Entry

/-- The member from its name on. -/
def quoted (e : Entry) : Bytes :=
  quoteByte :: (e.name ++ quoteByte :: (e.between ++ colonByte :: e.item.text))

def text (e : Entry) : Bytes := e.before ++ e.quoted

/-- Nothing but white space is around the name and the value. -/
def Padded (e : Entry) : Prop := Blank e.before ∧ Blank e.between ∧ e.item.Padded

instance : DecidablePred Padded := fun _ ↦ inferInstanceAs (Decidable (_ ∧ _ ∧ _))

end Entry

/-- Parts separated by commas between two brackets; there may be white space without any part. -/
def enclosed (opening closing : UInt8) (blanks : Bytes) (parts : List Bytes) : Bytes :=
  opening :: (blanks ++ ((parts.intersperse [commaByte]).flatten ++ [closing]))

def listText (blanks : Bytes) (items : List Item) : Bytes :=
  enclosed openBracket closeBracket blanks (items.map Item.text)

def objectText (blanks : Bytes) (entries : List Entry) : Bytes :=
  enclosed openBrace closeBrace blanks (entries.map Entry.text)

/-- The JSON values. -/
inductive WellFormed : Bytes → Prop
  | null : WellFormed (0x6E :: nullTail)
  | bool (b : Bool) : WellFormed (writeBool b)
  | number {v : Bytes} (hv : Unsigned v) : WellFormed v
  | negative {v : Bytes} (hv : Unsigned v) : WellFormed (minusByte :: v)
  | text {s : Bytes} (hs : Quotable s) : WellFormed (quoteByte :: (s ++ [quoteByte]))
  | list {blanks : Bytes} {items : List Item} (hblanks : Blank blanks)
    (hpadded : ∀ i ∈ items, i.Padded) (hvalues : ∀ i ∈ items, WellFormed i.value) :
    WellFormed (listText blanks items)
  | object {blanks : Bytes} {entries : List Entry} (hblanks : Blank blanks)
    (hpadded : ∀ e ∈ entries, e.Padded) (hnames : ∀ e ∈ entries, Quotable e.name)
    (hvalues : ∀ e ∈ entries, WellFormed e.item.value) : WellFormed (objectText blanks entries)

/-- No value starts with white space, nor with what closes a bracket. -/
theorem WellFormed.exists_cons {v : Bytes} (h : WellFormed v) :
    ∃ b s, v = b :: s ∧ isBlank b = false ∧ b ≠ closeBracket ∧ b ≠ closeBrace := by
  have hdigit {b : UInt8} (hb : isDigit b = true) :
      isBlank b = false ∧ b ≠ closeBracket ∧ b ≠ closeBrace := by
    refine ⟨isBlank_of_isDigit hb, ?_, ?_⟩ <;>
    · rintro rfl
      exact absurd hb (by decide)
  cases h with
  | null => exact ⟨_, _, rfl, by decide⟩
  | bool b => cases b <;> exact ⟨_, _, rfl, by decide⟩
  | number hv =>
    obtain ⟨b, s, rfl, hb⟩ := hv.exists_cons
    exact ⟨b, s, rfl, hdigit hb⟩
  | negative hv => exact ⟨_, _, rfl, by decide⟩
  | text hs => exact ⟨_, _, rfl, by decide⟩
  | list _ _ _ => exact ⟨_, _, rfl, by decide⟩
  | object _ _ _ _ => exact ⟨_, _, rfl, by decide⟩

theorem skipBlank_value {before v : Bytes} (hbefore : Blank before) (hv : WellFormed v)
    (rest : Bytes) : skipBlank (before ++ (v ++ rest)) = v ++ rest := by
  obtain ⟨b, s, rfl, hb, -⟩ := hv.exists_cons
  rw [skipBlank_append hbefore, List.cons_append, skipBlank_cons hb]

end Gossip.Json
