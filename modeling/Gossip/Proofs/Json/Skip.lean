import Gossip.Proofs.Json.Grammar

/-!
Passing over a value takes exactly that value. Whatever state the skipper is in when a part of a
value begins, it comes out behind that part in the state that the open brackets call for; so lists
and objects are passed over item by item, to any depth.
-/

set_option autoImplicit false
set_option relaxedAutoImplicit false

namespace Gossip.Json.Skim

variable {stack : List Bracket} {rest : Bytes}

/-- How it goes on behind a value: it is over outside all brackets. -/
def resume (stack : List Bracket) (rest : Bytes) : Except Fault Bytes :=
  match stack with
  | [] => .ok rest
  | _ :: _ => run stack .after rest

/-! ### Single bytes -/

theorem run_go {skim next : Skim} {inner : List Bracket} {b : UInt8}
    (h : step stack skim b = .go inner next) (rest : Bytes) :
    run stack skim (b :: rest) = run inner next rest := by
  rw [run, h]

/-- A value ends with the byte. -/
theorem run_closed {skim : Skim} {outer : List Bracket} {b : UInt8}
    (h : step stack skim b = closed outer) (rest : Bytes) :
    run stack skim (b :: rest) = resume outer rest := by
  rw [run, h]
  cases outer <;> rfl

/-- White space between tokens changes nothing. -/
theorem run_blank {skim : Skim} (hskim : ∀ b, isBlank b = true → step stack skim b = .go stack skim)
    {blanks : Bytes} (hblanks : Blank blanks) (rest : Bytes) :
    run stack skim (blanks ++ rest) = run stack skim rest := by
  induction blanks with
  | nil => rfl
  | cons b blanks ih =>
    rw [List.cons_append, run_go (hskim b hblanks.head), ih hblanks.tail]

theorem step_value_blank {b : UInt8} (h : isBlank b = true) :
    step stack .value b = .go stack .value := by
  rw [step, startValue, if_pos h]

theorem step_after_blank {bracket : Bracket} {b : UInt8} (h : isBlank b = true) :
    step (bracket :: stack) .after b = .go (bracket :: stack) .after :=
  if_pos h

/-! ### Numbers -/

/-- A complete number ends in front of what stands behind it. -/
theorem run_number {skim : Skim} (hend : atEnd stack skim = atEnd stack .whole)
    (hstep : ∀ b, isDigit b = false → b ≠ 0x2E → ¬(b = 0x65 ∨ b = 0x45) →
      step stack skim b = afterValue stack b) (hrest : Ends rest) :
    run stack skim rest = resume stack rest := by
  cases rest with
  | nil =>
    rw [run, hend]
    cases stack <;> rfl
  | cons b rest =>
    obtain ⟨hdigit, hpoint, hpower⟩ := hrest.cons
    rw [run, hstep b hdigit hpoint hpower]
    cases stack with
    | nil => rfl
    | cons bracket outer => rw [resume, run, step]

theorem run_digits {skim : Skim}
    (hskim : ∀ b, isDigit b = true → step stack skim b = .go stack skim) {ds : Bytes}
    (hds : Digits ds) (rest : Bytes) : run stack skim (ds ++ rest) = run stack skim rest := by
  induction ds with
  | nil => rfl
  | cons d ds ih =>
    rw [List.cons_append, run_go (hskim d (hds d List.mem_cons_self)),
      ih fun b hb ↦ hds b (List.mem_cons_of_mem d hb)]

theorem run_exponentDigits {d : UInt8} {ds : Bytes} (hds : Digits ds) (hrest : Ends rest)
    {skim : Skim} (hskim : step stack skim d = .go stack .exponentDigits) :
    run stack skim (d :: ds ++ rest) = resume stack rest := by
  rw [List.cons_append, run_go hskim, run_digits (fun b hb ↦ by rw [step, if_pos hb]) hds]
  exact run_number rfl (fun b hb _ _ ↦ if_neg (by simp [hb])) hrest

/-- Digits that are a number, and may also have an exponent. -/
structure MayPower (stack : List Bracket) (skim : Skim) : Prop where
  atEnd : atEnd stack skim = Skim.atEnd stack .whole
  step : ∀ b, isDigit b = false → b ≠ 0x2E → step stack skim b =
    if b = 0x65 ∨ b = 0x45 then .go stack .exponent else afterValue stack b

theorem mayPower_zero : MayPower stack .zero where
  atEnd := rfl
  step b hdigit hpoint := by
    rw [Skim.step, if_neg (by simp [hdigit]), afterWhole, if_neg hpoint]

theorem mayPower_whole : MayPower stack .whole where
  atEnd := rfl
  step b hdigit hpoint := by
    rw [Skim.step, if_neg (by simp [hdigit]), afterWhole, if_neg hpoint]

theorem mayPower_fraction : MayPower stack .fraction where
  atEnd := rfl
  step b hdigit _ := by rw [Skim.step, if_neg (by simp [hdigit])]

theorem run_exponent {skim : Skim} (hskim : MayPower stack skim) {exponent : Bytes}
    (h : ExponentPart exponent) (hrest : Ends rest) :
    run stack skim (exponent ++ rest) = resume stack rest := by
  cases h with
  | none =>
    refine run_number hskim.atEnd (fun b hdigit hpoint hpower ↦ ?_) hrest
    rw [hskim.step b hdigit hpoint, if_neg hpower]
  | @power e d sign ds he hsign hd hds =>
    have hstart : step stack skim e = .go stack .exponent := by
      rw [hskim.step e _ _, if_pos he] <;> rcases he with rfl | rfl <;> decide
    rw [List.cons_append, run_go hstart, List.append_assoc]
    rcases hsign with rfl | rfl | rfl
    · have hsign : ¬(d = 0x2B ∨ d = minusByte) := by
        rintro (rfl | rfl) <;> exact absurd hd (by decide)
      exact run_exponentDigits hds hrest (by rw [step, if_neg hsign, if_pos hd])
    · rw [List.cons_append, List.nil_append, run_go (by rw [step, if_pos (Or.inl rfl)])]
      exact run_exponentDigits hds hrest (if_pos hd)
    · rw [List.cons_append, List.nil_append, run_go (by rw [step, if_pos (Or.inr rfl)])]
      exact run_exponentDigits hds hrest (if_pos hd)

theorem run_fraction {skim : Skim} (hskim : skim = .zero ∨ skim = .whole)
    {fraction exponent : Bytes} (hfraction : FractionPart fraction)
    (hexponent : ExponentPart exponent) (hrest : Ends rest) :
    run stack skim (fraction ++ (exponent ++ rest)) = resume stack rest := by
  cases hfraction with
  | none =>
    refine run_exponent ?_ hexponent hrest
    rcases hskim with rfl | rfl
    · exact mayPower_zero
    · exact mayPower_whole
  | @point d ds hd hds =>
    have hpoint : step stack skim 0x2E = .go stack .point := by
      rcases hskim with rfl | rfl <;> rfl
    rw [List.cons_append, run_go hpoint, List.cons_append, run_go (by rw [step, if_pos hd]),
      run_digits (fun b hb ↦ by rw [step, if_pos hb]) hds]
    exact run_exponent mayPower_fraction hexponent hrest

/-- A number without its sign, wherever its digits may begin. -/
theorem run_unsigned {skim : Skim}
    (hskim : ∀ b, isDigit b = true → step stack skim b = startDigits stack b) {v : Bytes}
    (hv : Unsigned v) (hrest : Ends rest) : run stack skim (v ++ rest) = resume stack rest := by
  obtain ⟨hwhole, hfraction, hexponent⟩ := hv
  rw [List.append_assoc, List.append_assoc]
  cases hwhole with
  | zero =>
    rw [List.cons_append, List.nil_append, run_go (hskim zeroByte rfl)]
    exact run_fraction (Or.inl rfl) hfraction hexponent hrest
  | @digits b ds hb hzero hds =>
    have hstart : step stack skim b = .go stack .whole := by
      rw [hskim b hb, startDigits, if_neg hzero, if_pos hb]
    rw [List.cons_append, run_go hstart, run_digits (fun b hb ↦ by rw [step, if_pos hb]) hds]
    exact run_fraction (Or.inr rfl) hfraction hexponent hrest

theorem step_value_digit {b : UInt8} (hb : isDigit b = true) :
    step stack .value b = startDigits stack b := by
  have hne (c : UInt8) (hc : isDigit c = false) : b ≠ c := by
    rintro rfl
    exact absurd hb (by simp [hc])
  rw [step, startValue, if_neg (by simp [isBlank_of_isDigit hb]), if_neg (hne _ (by decide)),
    if_neg (hne _ (by decide)), if_neg (hne _ (by decide)), if_neg (hne _ (by decide)),
    if_neg (hne _ (by decide)), if_neg (hne _ (by decide)), if_neg (hne _ (by decide))]
  rfl

/-! ### Words and strings -/

theorem run_word {letters : Bytes} (hletters : letters ≠ []) :
    run stack (.word letters) (letters ++ rest) = resume stack rest := by
  induction letters with
  | nil => exact absurd rfl hletters
  | cons c letters ih =>
    rw [List.cons_append]
    cases letters with
    | nil => exact run_closed (by rw [step, if_pos rfl]) rest
    | cons d letters =>
      have hstep : step stack (.word (c :: d :: letters)) c = .go stack (.word (d :: letters)) :=
        if_pos rfl
      rw [run_go hstep, ih (List.cons_ne_nil d letters)]

/-- Four digits of an escape. -/
theorem run_hex {isKey : Bool} {p q r t : UInt8}
    (h : ∀ d ∈ [p, q, r, t], (Hex.digit? d).isSome = true) (s : Bytes) :
    run stack (.hex isKey 4 true) (p :: q :: r :: t :: s) = run stack (.text isKey) s := by
  simp only [List.forall_mem_cons] at h
  obtain ⟨hp, hq, hr, ht, -⟩ := h
  simp [run, step, hp, hq, hr, ht]

/-- A string behind its opening quote: a key goes on with its colon, and a value is over. -/
theorem run_text {isKey : Bool} {s : Bytes} (hs : Quotable s) (rest : Bytes) :
    run stack (.text isKey) (s ++ quoteByte :: rest) =
      if isKey then run stack .colon rest else resume stack rest := by
  induction hs with
  | nil =>
    cases isKey with
    | true => exact run_go rfl rest
    | false => exact run_closed rfl rest
  | @plain b s hb _ ih =>
    obtain ⟨hquote, hbackslash, hcontrol⟩ := hb
    rw [List.cons_append, run_go _, ih]
    rw [step, if_neg hquote, if_neg hbackslash, if_neg hcontrol]
  | @short e s he _ ih =>
    have hletter : e ≠ 0x75 := by
      rintro rfl
      exact absurd he (by decide)
    rw [List.cons_append, List.cons_append, run_go rfl, run_go _, ih]
    rw [step, if_neg hletter, if_pos he]
  | @code p q r t s hdigits _ ih =>
    rw [List.cons_append, List.cons_append, run_go rfl, run_go rfl]
    exact (run_hex hdigits _).trans ih

/-! ### Lists and objects -/

/-- The skipper comes out behind the value, whatever brackets are open. -/
def Passes (v : Bytes) : Prop :=
  ∀ stack rest, Ends rest → run stack .value (v ++ rest) = resume stack rest

section Nested

variable (bracket : Bracket)

theorem run_item {i : Item} (hpadded : i.Padded) (hvalue : Passes i.value) (hrest : Ends rest) :
    run (bracket :: stack) .value (i.text ++ rest) = run (bracket :: stack) .after rest := by
  rw [Item.text, List.append_assoc, List.append_assoc,
    run_blank (fun _ hb ↦ step_value_blank hb) hpadded.1, hvalue _ _ (hrest.append hpadded.2)]
  exact run_blank (fun _ hb ↦ step_after_blank hb) hpadded.2 rest

theorem run_entry {skim : Skim}
    (hblank : ∀ b, isBlank b = true → step (bracket :: stack) skim b = .go (bracket :: stack) skim)
    (hquote : step (bracket :: stack) skim quoteByte = .go (bracket :: stack) (.text true))
    {e : Entry} (hpadded : e.Padded) (hname : Quotable e.name) (hvalue : Passes e.item.value)
    (hrest : Ends rest) :
    run (bracket :: stack) skim (e.text ++ rest) = run (bracket :: stack) .after rest := by
  obtain ⟨hbefore, hbetween, hitem⟩ := hpadded
  have htext : e.text ++ rest = e.before ++ quoteByte ::
      (e.name ++ quoteByte :: (e.between ++ colonByte :: (e.item.text ++ rest))) := by
    simp [Entry.text, Entry.quoted]
  have hcolon (b : UInt8) (hb : isBlank b = true) :
      step (bracket :: stack) .colon b = .go (bracket :: stack) .colon := if_pos hb
  rw [htext, run_blank hblank hbefore, run_go hquote, run_text hname, if_pos rfl,
    run_blank hcolon hbetween, run_go rfl]
  exact run_item bracket hitem hvalue hrest

end Nested

theorem run_items {items : List Item} (hpadded : ∀ i ∈ items, i.Padded)
    (hvalues : ∀ i ∈ items, Passes i.value) :
    run (.list :: stack) .after
      ((items.map Item.text).flatMap (commaByte :: ·) ++ closeBracket :: rest) =
      resume stack rest := by
  induction items with
  | nil => exact run_closed rfl rest
  | cons i items ih =>
    obtain ⟨hfirst, htail⟩ := List.forall_mem_cons.mp hpadded
    obtain ⟨hvalue, hothers⟩ := List.forall_mem_cons.mp hvalues
    rw [List.map_cons, List.flatMap_cons, List.cons_append, List.cons_append, List.append_assoc,
      run_go rfl, run_item _ hfirst hvalue (ends_flatMap _ (Or.inr rfl) rest)]
    exact ih htail hothers

theorem run_entries {entries : List Entry} (hpadded : ∀ e ∈ entries, e.Padded)
    (hnames : ∀ e ∈ entries, Quotable e.name) (hvalues : ∀ e ∈ entries, Passes e.item.value) :
    run (.object :: stack) .after
      ((entries.map Entry.text).flatMap (commaByte :: ·) ++ closeBrace :: rest) =
      resume stack rest := by
  have hblank (b : UInt8) (hb : isBlank b = true) :
      step (.object :: stack) .key b = .go (.object :: stack) .key := if_pos hb
  induction entries with
  | nil => exact run_closed rfl rest
  | cons e entries ih =>
    obtain ⟨hfirst, htail⟩ := List.forall_mem_cons.mp hpadded
    obtain ⟨hname, hothernames⟩ := List.forall_mem_cons.mp hnames
    obtain ⟨hvalue, hothers⟩ := List.forall_mem_cons.mp hvalues
    rw [List.map_cons, List.flatMap_cons, List.cons_append, List.cons_append, List.append_assoc,
      run_go rfl, run_entry _ hblank rfl hfirst hname hvalue (ends_flatMap _ (Or.inl rfl) rest)]
    exact ih htail hothernames hothers

/-- The first item of a list starts like any value. -/
theorem run_firstItem {v : Bytes} (hv : WellFormed v) (rest : Bytes) :
    run stack .firstItem (v ++ rest) = run stack .value (v ++ rest) := by
  obtain ⟨b, s, rfl, hblank, hclose, -⟩ := hv.exists_cons
  have hstep : step stack .firstItem b = step stack .value b :=
    (if_neg (by simp [hblank])).trans (if_neg hclose)
  rw [List.cons_append, run, run, hstep]

theorem passes_list {blanks : Bytes} {items : List Item} (hblanks : Blank blanks)
    (hpadded : ∀ i ∈ items, i.Padded) (hwell : ∀ i ∈ items, WellFormed i.value)
    (hvalues : ∀ i ∈ items, Passes i.value) : Passes (listText blanks items) := by
  intro stack rest _
  have hfirst (b : UInt8) (hb : isBlank b = true) :
      step (.list :: stack) .firstItem b = .go (.list :: stack) .firstItem := if_pos hb
  rw [listText, enclosed, List.cons_append, run_go rfl, List.append_assoc,
    run_blank hfirst hblanks, List.append_assoc, List.singleton_append]
  cases items with
  | nil => exact run_closed rfl rest
  | cons i items =>
    obtain ⟨hitem, htail⟩ := List.forall_mem_cons.mp hpadded
    obtain ⟨hvalue, hothers⟩ := List.forall_mem_cons.mp hvalues
    rw [List.map_cons, flatten_intersperse_cons, List.append_assoc, Item.text, List.append_assoc,
      run_blank hfirst hitem.1, List.append_assoc, run_firstItem (hwell i List.mem_cons_self)]
    have hbehind := ends_flatMap (items.map Item.text) (Or.inr rfl : closeBracket = _ ∨ _) rest
    rw [hvalue _ _ (hbehind.append hitem.2)]
    refine (run_blank (fun _ hb ↦ step_after_blank hb) hitem.2 _).trans ?_
    exact run_items htail hothers

theorem passes_object {blanks : Bytes} {entries : List Entry} (hblanks : Blank blanks)
    (hpadded : ∀ e ∈ entries, e.Padded) (hnames : ∀ e ∈ entries, Quotable e.name)
    (hvalues : ∀ e ∈ entries, Passes e.item.value) : Passes (objectText blanks entries) := by
  intro stack rest _
  have hfirst (b : UInt8) (hb : isBlank b = true) :
      step (.object :: stack) .firstKey b = .go (.object :: stack) .firstKey := if_pos hb
  rw [objectText, enclosed, List.cons_append, run_go rfl, List.append_assoc,
    run_blank hfirst hblanks, List.append_assoc, List.singleton_append]
  cases entries with
  | nil => exact run_closed rfl rest
  | cons e entries =>
    obtain ⟨hentry, htail⟩ := List.forall_mem_cons.mp hpadded
    obtain ⟨hname, hothernames⟩ := List.forall_mem_cons.mp hnames
    obtain ⟨hvalue, hothers⟩ := List.forall_mem_cons.mp hvalues
    rw [List.map_cons, flatten_intersperse_cons, List.append_assoc,
      run_entry _ hfirst rfl hentry hname hvalue (ends_flatMap _ (Or.inl rfl) rest)]
    exact run_entries htail hothernames hothers

theorem passes_of_wellFormed {v : Bytes} (h : WellFormed v) : Passes v := by
  induction h with
  | null =>
    intro stack rest _
    rw [List.cons_append, run_go rfl, run_word (by decide)]
  | bool b =>
    intro stack rest _
    cases b with
    | true => rw [writeBool, if_pos rfl, List.cons_append, run_go rfl, run_word (by decide)]
    | false =>
      rw [writeBool, if_neg (by decide), List.cons_append, run_go rfl, run_word (by decide)]
  | number hv =>
    intro stack rest hrest
    exact run_unsigned (fun _ hb ↦ step_value_digit hb) hv hrest
  | negative hv =>
    intro stack rest hrest
    rw [List.cons_append, run_go rfl]
    exact run_unsigned (fun _ _ ↦ rfl) hv hrest
  | text hs =>
    intro stack rest _
    rw [List.cons_append, run_go rfl, List.append_assoc, List.singleton_append, run_text hs]
    rfl
  | list hblanks hpadded hwell ih => exact passes_list hblanks hpadded hwell ih
  | object hblanks hpadded hnames _ ih => exact passes_object hblanks hpadded hnames ih

end Gossip.Json.Skim

namespace Gossip.Json

/-- A value that nobody asked for is passed over, and nothing else. -/
theorem skipValue_append {before v rest : Bytes} (hbefore : Blank before) (hv : WellFormed v)
    (hrest : Ends rest) : skipValue (before ++ (v ++ rest)) = .ok rest := by
  unfold skipValue
  rw [Skim.run_blank (fun _ hb ↦ Skim.step_value_blank hb) hbefore]
  exact Skim.passes_of_wellFormed hv [] rest hrest

end Gossip.Json
