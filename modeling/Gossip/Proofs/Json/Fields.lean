import Gossip.Proofs.Json.Members
import Mathlib.Data.List.Forall2
import Mathlib.Data.List.Pairwise

/-!
Records as what their members give. A field has the value of the member with its name, or keeps its
default where there is none; the order of the members, the white space between them, and members
with other names make no difference. A record in which a field is given twice is not read at all.
The reader of a record takes lists too, and these as a whole like anything else, so that it is
known where a record ends whose form is not.
-/

set_option autoImplicit false
set_option relaxedAutoImplicit false

namespace Gossip.Json

/-! ### Lists of values -/

section Lists

variable {σ : Type} {slots : List (Slot σ)}

/-- What stands behind an item of a list: the other items, each behind its comma, the closing
bracket, and what stands behind the list. -/
def remainingItems (items : List Item) (rest : Bytes) : Bytes :=
  (items.map Item.text).flatMap (commaByte :: ·) ++ closeBracket :: rest

theorem ends_remainingItems (items : List Item) (rest : Bytes) :
    Ends (remainingItems items rest) :=
  ends_flatMap _ (Or.inr rfl) rest

/-- A list behind its opening bracket, and what stands behind the list. -/
def behindBracket (blanks : Bytes) (items : List Item) (rest : Bytes) : Bytes :=
  match items with
  | [] => blanks ++ closeBracket :: rest
  | i :: items => (blanks ++ i.before) ++ (i.value ++ (i.after ++ remainingItems items rest))

theorem listText_append (blanks : Bytes) (items : List Item) (rest : Bytes) :
    listText blanks items ++ rest = openBracket :: behindBracket blanks items rest := by
  cases items with
  | nil => simp [listText, enclosed, behindBracket]
  | cons i items =>
    rw [listText, enclosed, List.map_cons, flatten_intersperse_cons]
    simp [behindBracket, remainingItems, Item.text]

theorem eq_of_items_closed {blanks : Bytes} (hblanks : Blank blanks) {acc c : σ} {first : Bool}
    {slots : List (Slot σ)} {rest behind : Bytes}
    (h : Json.items acc first slots (blanks ++ closeBracket :: rest) = .ok (c, behind)) :
    behind = rest := by
  have hclosed : Json.items acc first slots (blanks ++ closeBracket :: rest) = .ok (acc, rest) := by
    cases slots <;>
    · rw [Json.items, skipBlank_append hblanks, skipBlank_cons (by decide)]
      exact if_pos rfl
  rw [hclosed] at h
  exact (Prod.mk.inj (Except.ok.inj h)).2.symm

/-- What is left to read when one item has been read. -/
def goOnItems (slots : List (Slot σ)) : Except Fault (σ × Bytes) → Except Fault (σ × Bytes)
  | .error fault => .error fault
  | .ok (acc, rest) => Json.items acc false slots rest

/-- The first item of a list, for the slot that is due. -/
theorem items_first {blanks : Bytes} (hblanks : Blank blanks) {v : Bytes} (hv : WellFormed v)
    (acc : σ) (slot : Slot σ) (slots : List (Slot σ)) (more : Bytes) :
    Json.items acc true (slot :: slots) (blanks ++ (v ++ more)) =
      goOnItems slots (slot.read acc (v ++ more)) := by
  obtain ⟨b, s, rfl, hb, hclose, -⟩ := hv.exists_cons
  rw [Json.items, skipBlank_append hblanks, List.cons_append, skipBlank_cons hb]
  dsimp only
  rw [if_neg hclose]
  rfl

theorem remainingItems_cons (i : Item) (items : List Item) (rest : Bytes) :
    remainingItems (i :: items) rest =
      commaByte :: (i.before ++ (i.value ++ (i.after ++ remainingItems items rest))) := by
  simp [remainingItems, Item.text]

theorem items_next {blanks : Bytes} (hblanks : Blank blanks) {i : Item} (hi : i.Sound) (acc : σ)
    (slot : Slot σ) (slots : List (Slot σ)) (items : List Item) (rest : Bytes) :
    Json.items acc false (slot :: slots) (blanks ++ remainingItems (i :: items) rest) =
      goOnItems slots (slot.read acc (i.value ++ (i.after ++ remainingItems items rest))) := by
  have hskip := skipBlank_value hi.padded.1 hi.value (i.after ++ remainingItems items rest)
  obtain ⟨b, s, hv, -, hclose, -⟩ := hi.value.exists_cons
  rw [Json.items, skipBlank_append hblanks, remainingItems_cons, skipBlank_cons (by decide)]
  dsimp only
  rw [if_neg (by decide), if_neg (by decide), if_pos rfl, hskip, hv, List.cons_append]
  exact if_neg hclose

/-- No slot is left for an item. -/
theorem items_nil_ne_ok (acc : σ) (first : Bool) {blanks : Bytes} (hblanks : Blank blanks)
    {b : UInt8} (hb : isBlank b = false) (hclose : b ≠ closeBracket) (more : Bytes)
    (result : σ × Bytes) : Json.items acc first [] (blanks ++ b :: more) ≠ .ok result := by
  rw [Json.items, skipBlank_append hblanks, skipBlank_cons hb]
  dsimp only
  rw [if_neg hclose]
  exact fun h ↦ absurd h (by simp)

theorem eq_of_goOnItems {slot : Slot σ} (hslot : ∀ a, TakesWhole (slot.read a)) {i : Item}
    (hi : i.Sound) {items : List Item} {acc c : σ} {rest behind : Bytes}
    (h : goOnItems slots (slot.read acc (i.value ++ (i.after ++ remainingItems items rest))) =
      .ok (c, behind))
    (hothers : ∀ b, Json.items b false slots (i.after ++ remainingItems items rest) =
      .ok (c, behind) → behind = rest) : behind = rest := by
  have hends := (ends_remainingItems items rest).append hi.padded.2
  cases hread : slot.read acc (i.value ++ (i.after ++ remainingItems items rest)) with
  | error fault =>
    rw [hread] at h
    exact absurd h (by simp [goOnItems])
  | ok result =>
    obtain ⟨b, left⟩ := result
    obtain rfl := hslot acc blank_nil hi.value hends hread
    rw [hread] at h
    exact hothers b h

theorem eq_of_items (hwhole : ∀ slot ∈ slots, ∀ a, TakesWhole (slot.read a)) {items : List Item}
    (hsound : ∀ i ∈ items, i.Sound) {blanks : Bytes} (hblanks : Blank blanks) {acc c : σ}
    {rest behind : Bytes}
    (h : Json.items acc false slots (blanks ++ remainingItems items rest) = .ok (c, behind)) :
    behind = rest := by
  induction slots generalizing items blanks acc with
  | nil =>
    cases items with
    | nil => exact eq_of_items_closed hblanks h
    | cons i items =>
      rw [remainingItems_cons] at h
      exact absurd h (items_nil_ne_ok acc false hblanks (by decide) (by decide) _ _)
  | cons slot slots ih =>
    cases items with
    | nil => exact eq_of_items_closed hblanks h
    | cons i items =>
      obtain ⟨hslot, hslots⟩ := List.forall_mem_cons.mp hwhole
      obtain ⟨hi, hothers⟩ := List.forall_mem_cons.mp hsound
      rw [items_next hblanks hi] at h
      exact eq_of_goOnItems hslot hi h fun b ↦ ih hslots hothers hi.padded.2

/-- A list of values that has been read to its end. -/
theorem eq_of_listText (hwhole : ∀ slot ∈ slots, ∀ a, TakesWhole (slot.read a)) {items : List Item}
    (hsound : ∀ i ∈ items, i.Sound) {blanks : Bytes} (hblanks : Blank blanks) {acc c : σ}
    {rest behind : Bytes}
    (h : Json.items acc true slots (behindBracket blanks items rest) = .ok (c, behind)) :
    behind = rest := by
  unfold behindBracket at h
  cases items with
  | nil => exact eq_of_items_closed hblanks h
  | cons i items =>
    obtain ⟨hi, hothers⟩ := List.forall_mem_cons.mp hsound
    have hbefore := hblanks.append hi.padded.1
    dsimp only at h
    cases slots with
    | nil =>
      obtain ⟨b, s, hv, hb, hclose, -⟩ := hi.value.exists_cons
      rw [hv, List.cons_append] at h
      exact absurd h (items_nil_ne_ok acc true hbefore hb hclose _ _)
    | cons slot slots =>
      obtain ⟨hslot, hslots⟩ := List.forall_mem_cons.mp hwhole
      rw [items_first hbefore hi.value] at h
      exact eq_of_goOnItems hslot hi h fun b ↦ eq_of_items hslots hothers hi.padded.2

end Lists

/-! ### Names -/

theorem Spelled.eq {s : Bytes} {text other : String} (h : Spelled s text) (h' : Spelled s other) :
    text = other := by
  have hread := textBody_spelled h []
  rw [textBody_spelled h' []] at hread
  exact (Prod.mk.inj (Except.ok.inj hread)).1.symm

/-- Every member of the object has a name that is a text. -/
def Named (entries : List Entry) : Prop := ∀ e ∈ entries, ∃ name, Spelled e.name name

/-- Two members of an object have one name. -/
def Repeats (entries : List Entry) (name : String) : Prop :=
  ∃ e f, List.Sublist [e, f] entries ∧ Spelled e.name name ∧ Spelled f.name name

theorem not_repeats_nil (name : String) : ¬Repeats [] name := by
  rintro ⟨e, f, hsub, -⟩
  exact absurd (List.sublist_nil.mp hsub) (by simp)

theorem repeats_cons {e : Entry} {entries : List Entry} {name : String} :
    Repeats (e :: entries) name ↔
      Repeats entries name ∨ Spelled e.name name ∧ ∃ f ∈ entries, Spelled f.name name := by
  constructor
  · rintro ⟨d, f, hsub, hd, hf⟩
    rcases List.sublist_cons_iff.mp hsub with hsub | ⟨r, hr, hsub⟩
    · exact Or.inl ⟨d, f, hsub, hd, hf⟩
    · obtain ⟨rfl, rfl⟩ := List.cons.inj hr
      exact Or.inr ⟨hd, f, List.singleton_sublist.mp hsub, hf⟩
  · rintro (⟨d, f, hsub, hd, hf⟩ | ⟨he, f, hmem, hf⟩)
    · exact ⟨d, f, hsub.cons e, hd, hf⟩
    · exact ⟨e, f, (List.singleton_sublist.mpr hmem).cons_cons e, he, hf⟩

/-- The members of an object have these names. -/
abbrev Keyed (entries : List Entry) (names : List String) : Prop :=
  List.Forall₂ (fun e name ↦ Spelled e.name name) entries names

theorem Keyed.named {entries : List Entry} {names : List String} (h : Keyed entries names) :
    Named entries := by
  induction h with
  | nil => exact fun _ h ↦ absurd h List.not_mem_nil
  | cons hname _ ih => exact List.forall_mem_cons.mpr ⟨⟨_, hname⟩, ih⟩

theorem Keyed.isObject {entries : List Entry} {names : List String} (h : Keyed entries names)
    (hpadded : ∀ e ∈ entries, e.Padded) (hvalues : ∀ e ∈ entries, WellFormed e.item.value) :
    IsObject (objectText [] entries) entries where
  text := ⟨[], blank_nil, rfl⟩
  sound e he :=
    ⟨hpadded e he, (h.named e he).elim fun _ hname ↦ hname.quotable, hvalues e he⟩

theorem Keyed.not_spelled {entries : List Entry} {names : List String} (h : Keyed entries names)
    {name : String} (hname : name ∉ names) : ∀ e ∈ entries, ¬Spelled e.name name := by
  induction h with
  | nil => simp
  | cons hkey _ ih =>
    rw [List.mem_cons, not_or] at hname
    exact List.forall_mem_cons.mpr ⟨fun h ↦ hname.1 (h.eq hkey), ih hname.2⟩

theorem Keyed.not_repeats {entries : List Entry} {names : List String} (h : Keyed entries names)
    (hnodup : names.Nodup) (name : String) : ¬Repeats entries name := by
  induction h with
  | nil => exact not_repeats_nil name
  | @cons e key entries names hkey hothers ih =>
    obtain ⟨hfree, hnodup⟩ := List.nodup_cons.mp hnodup
    intro hrepeats
    rcases repeats_cons.mp hrepeats with hrepeats | ⟨hspelled, f, hf, hname⟩
    · exact ih hnodup hrepeats
    · obtain rfl := hspelled.eq hkey
      exact Keyed.not_spelled hothers hfree f hf hname

/-! ### Records that have been read -/

section Records

variable {σ : Type} {slots : List (Slot σ)}

/-- What a record does with a member. -/
theorem slotMember_cases {acc : Partial σ} {key : String} {reader : Reader (Partial σ)}
    (h : slotMember slots acc key = .ok reader) :
    (slots.find? (·.name = key) = none ∧ reader = fun s ↦ (skipValue s).map (acc, ·)) ∨
      ∃ slot, slots.find? (·.name = key) = some slot ∧ key ∉ acc.given ∧
        reader = (slot.read acc.value).map (⟨·, key :: acc.given⟩) := by
  unfold slotMember at h
  split at h
  next hslot => exact Or.inl ⟨hslot, (Except.ok.inj h).symm⟩
  next slot hslot =>
    split at h
    · exact absurd h (by simp)
    next hfree => exact Or.inr ⟨slot, hslot, hfree, (Except.ok.inj h).symm⟩

theorem takesWhole_slotMember (hwhole : ∀ slot ∈ slots, ∀ a, TakesWhole (slot.read a))
    (acc : Partial σ) (key : String) (reader : Reader (Partial σ))
    (h : slotMember slots acc key = .ok reader) : TakesWhole reader := by
  rcases slotMember_cases h with ⟨-, rfl⟩ | ⟨slot, hslot, -, rfl⟩
  · exact takesWhole_skipValue acc
  · exact TakesWhole.map _ (hwhole slot (List.mem_of_find?_eq_some hslot) acc.value)

theorem ignoresBlank_record (start : σ) : IgnoresBlank (record slots start) := by
  intro s
  simp only [record, skipBlank_skipBlank]

theorem takesWhole_record (hwhole : ∀ slot ∈ slots, ∀ a, TakesWhole (slot.read a)) (start : σ) :
    TakesWhole (record slots start) := by
  refine (ignoresBlank_record start).takesWhole ?_
  intro b s rest behind c hstarts hb _ hread
  rw [record, skipBlank_cons hb] at hread
  dsimp only at hread
  split at hread
  next hbrace =>
    obtain ⟨entries, ⟨blanks, hblanks, htext⟩, hsound⟩ := hstarts.brace hbrace
    have hsplit := objectText_append blanks entries rest
    rw [← htext, List.cons_append] at hsplit
    rw [(List.cons.inj hsplit).2] at hread
    obtain ⟨acc, hbody, -⟩ := Reader.exists_of_map hread
    exact (gathered_of_objectBody (takesWhole_slotMember hwhole) hsound hblanks hbody).1
  · split at hread
    next hbracket =>
      obtain ⟨items, ⟨blanks, hblanks, htext⟩, hsound⟩ := hstarts.bracket hbracket
      have hsplit := listText_append blanks items rest
      rw [← htext, List.cons_append] at hsplit
      rw [(List.cons.inj hsplit).2] at hread
      exact eq_of_listText hwhole hsound hblanks hread
    · exact absurd hread (by simp)

theorem HasTaken.of_map {α β : Type} {reader : Reader α} {f : α → β} {v : Bytes} {b : β}
    (h : HasTaken (reader.map f) v b) : ∃ a, b = f a ∧ HasTaken reader v a := by
  obtain ⟨before, rest, hbefore, hrest, hread⟩ := h
  obtain ⟨a, htaken, rfl⟩ := Reader.exists_of_map hread
  exact ⟨a, rfl, before, rest, hbefore, hrest, htaken⟩

theorem HasTaken.eq_of_skip {α : Type} {a b : α} {v : Bytes}
    (h : HasTaken (fun s ↦ (skipValue s).map (a, ·)) v b) : b = a := by
  obtain ⟨before, rest, -, -, hread⟩ := h
  dsimp only at hread
  cases hskip : skipValue (before ++ (v ++ rest)) with
  | error fault =>
    rw [hskip] at hread
    exact absurd hread (by simp [Except.map])
  | ok more =>
    rw [hskip] at hread
    exact (Prod.mk.inj (Except.ok.inj hread)).1.symm

/-- A record that has been read from an object: its members have been read one after the other. -/
theorem gathered_of_record (hwhole : ∀ slot ∈ slots, ∀ a, TakesWhole (slot.read a)) {start x : σ}
    {v : Bytes} {entries : List Entry} (hv : IsObject v entries)
    (h : HasTaken (record slots start) v x) :
    ∃ c, Gathered (slotMember slots) ⟨start, []⟩ entries c := by
  obtain ⟨before, rest, hbefore, -, hread⟩ := h
  rw [(ignoresBlank_record start).append hbefore hv.wellFormed] at hread
  obtain ⟨blanks, hblanks, rfl⟩ := hv.text
  rw [objectText_append, record, skipBlank_cons (by decide)] at hread
  dsimp only at hread
  rw [if_pos rfl] at hread
  obtain ⟨acc, hbody, -⟩ := Reader.exists_of_map hread
  exact ⟨acc, (gathered_of_objectBody (takesWhole_slotMember hwhole) hv.sound hblanks hbody).2⟩

/-- What has been read into a record: a slot takes one value at most, and has taken the value of
each member with its name. -/
theorem Gathered.slot {acc c : Partial σ} {entries : List Entry}
    (h : Gathered (slotMember slots) acc entries c) {name : String} {slot : Slot σ}
    (hslot : slots.find? (·.name = name) = some slot) :
    (name ∈ acc.given → ∀ e ∈ entries, ¬Spelled e.name name) ∧ ¬Repeats entries name ∧
      ∀ e ∈ entries, Spelled e.name name → ∃ x y, HasTaken (slot.read x) e.item.value y := by
  induction h with
  | nil a => exact ⟨by simp, not_repeats_nil name, by simp⟩
  | @cons a b c e key reader entries hname hmember hvalue _ ih =>
    obtain ⟨hgiven, honce, htaken⟩ := ih
    have hgivenb : ∀ k ∈ a.given, k ∈ b.given := by
      rcases slotMember_cases hmember with ⟨-, rfl⟩ | ⟨_, -, -, rfl⟩
      · rw [hvalue.eq_of_skip]
        exact fun k hk ↦ hk
      · obtain ⟨y, rfl, -⟩ := hvalue.of_map
        exact fun k hk ↦ List.mem_cons_of_mem key hk
    by_cases hkey : name = key
    · subst hkey
      rcases slotMember_cases hmember with ⟨hnone, -⟩ | ⟨slot', hslot', hfree, rfl⟩
      · exact absurd (hnone.symm.trans hslot) (by simp)
      · obtain rfl := Option.some.inj (hslot'.symm.trans hslot)
        obtain ⟨y, rfl, hread⟩ := hvalue.of_map
        have hothers := hgiven List.mem_cons_self
        refine ⟨fun hmem ↦ absurd hmem hfree, fun hrepeats ↦ ?_, fun f hf hspelled ↦ ?_⟩
        · rcases repeats_cons.mp hrepeats with hrepeats | ⟨-, f, hf, hspelled⟩
          · exact honce hrepeats
          · exact hothers f hf hspelled
        · rcases List.mem_cons.mp hf with rfl | hf
          · exact ⟨a.value, y, hread⟩
          · exact absurd hspelled (hothers f hf)
    · have hnot : ¬Spelled e.name name := fun hspelled ↦ hkey (hname name hspelled)
      refine ⟨fun hmem ↦ List.forall_mem_cons.mpr ⟨hnot, hgiven (hgivenb name hmem)⟩,
        fun hrepeats ↦ ?_, List.forall_mem_cons.mpr ⟨fun h ↦ absurd h hnot, htaken⟩⟩
      exact (repeats_cons.mp hrepeats).elim honce fun h ↦ hnot h.1

end Records

/-! ### Records from what they are given -/

section Fields

variable {σ : Type}

/-- What the members of an object give a field: what the value of the member with its name means, or
the default if there is no such member. -/
def Given {α : Type} (entries : List Entry) (name : String) (Means : Bytes → α → Prop)
    (default a : α) : Prop :=
  (∃ e ∈ entries, Spelled e.name name ∧ Means e.item.value a) ∨
    (∀ e ∈ entries, ¬Spelled e.name name) ∧ a = default

theorem Keyed.given {α : Type} {entries : List Entry} {names : List String}
    (h : Keyed entries names) {name : String} (hname : name ∉ names) {Means : Bytes → α → Prop}
    {default : α} : Given entries name Means default default :=
  Or.inr ⟨h.not_spelled hname, rfl⟩

/-- A field of a record, with what its values mean and how it is read. -/
structure FieldForm (σ : Type) where
  {α : Type}
  name : String
  Means : Bytes → α → Prop
  reader : Reader α
  get : σ → α
  put : α → σ → σ

namespace FieldForm

def slot (p : FieldForm σ) : Slot σ := ⟨p.name, fun x ↦ p.reader.map fun a ↦ p.put a x⟩

/-- Two fields with different names, neither of which changes the other. -/
@[mk_iff]
structure Apart (p q : FieldForm σ) : Prop where
  name : p.name ≠ q.name
  get : ∀ a x, q.get (p.put a x) = q.get x
  get' : ∀ a x, p.get (q.put a x) = p.get x

instance : Std.Symm (@Apart σ) := ⟨fun _ _ h ↦ ⟨h.name.symm, h.get', h.get⟩⟩

/-- The fields of a record: each is read for what its value means, and together they are the
record. -/
structure Lawful (fields : List (FieldForm σ)) : Prop where
  accepts : ∀ p ∈ fields, ∀ v a, p.Means v a → Accepts p.reader v a
  whole : ∀ p ∈ fields, TakesWhole p.reader
  get_put : ∀ p ∈ fields, ∀ a x, p.get (p.put a x) = a
  apart : fields.Pairwise Apart
  ext : ∀ x y, (∀ p ∈ fields, p.get x = p.get y) → x = y

end FieldForm

variable {fields : List (FieldForm σ)}

namespace FieldForm.Lawful

variable (hlaw : FieldForm.Lawful fields) {p q : FieldForm σ}

include hlaw

theorem apart_of_ne (hp : p ∈ fields) (hq : q ∈ fields) (hne : p ≠ q) : p.Apart q :=
  hlaw.apart.forall hp hq hne

theorem eq_of_name (hp : p ∈ fields) (hq : q ∈ fields) (h : p.name = q.name) : p = q := by
  by_contra hne
  exact (hlaw.apart_of_ne hp hq hne).name h

theorem find?_slot (hp : p ∈ fields) :
    (fields.map FieldForm.slot).find? (·.name = p.name) = some p.slot := by
  have hsome : (fields.find? fun q ↦ q.name = p.name).isSome :=
    List.find?_isSome.mpr ⟨p, hp, decide_eq_true rfl⟩
  obtain ⟨q, hq⟩ := Option.isSome_iff_exists.mp hsome
  have hname : q.name = p.name := by simpa using List.find?_some hq
  obtain rfl := hlaw.eq_of_name (List.mem_of_find?_eq_some hq) hp hname
  rw [List.find?_map]
  exact congrArg (Option.map FieldForm.slot) hq

/-- One member, which is for a field or for none. -/
theorem exists_step {e : Entry} {entries : List Entry} {acc : Partial σ} {w : σ} {key : String}
    (hvalue : WellFormed e.item.value) (hkey : Spelled e.name key)
    (honce : ∀ p ∈ fields, ¬Repeats (e :: entries) p.name)
    (hfree : ∀ p ∈ fields, p.name ∈ acc.given → ∀ f ∈ e :: entries, ¬Spelled f.name p.name)
    (hgiven : ∀ p ∈ fields, Given (e :: entries) p.name p.Means (p.get acc.value) (p.get w)) :
    ∃ reader acc', slotMember (fields.map FieldForm.slot) acc key = .ok reader ∧
      Accepts reader e.item.value acc' ∧
      (∀ p ∈ fields, p.name ∈ acc'.given → ∀ f ∈ entries, ¬Spelled f.name p.name) ∧
      ∀ p ∈ fields, Given entries p.name p.Means (p.get acc'.value) (p.get w) := by
  -- what a member gives no field stays to be given by the others
  have hpass (p : FieldForm σ) (hp : p ∈ fields) (hne : p.name ≠ key) :
      Given entries p.name p.Means (p.get acc.value) (p.get w) := by
    have hnot : ¬Spelled e.name p.name := fun h ↦ hne (h.eq hkey)
    rcases hgiven p hp with ⟨f, hf, hname, hmeans⟩ | ⟨hnone, hdefault⟩
    · rcases List.mem_cons.mp hf with rfl | hf
      · exact absurd hname hnot
      · exact Or.inl ⟨f, hf, hname, hmeans⟩
    · exact Or.inr ⟨(List.forall_mem_cons.mp hnone).2, hdefault⟩
  by_cases hfield : ∃ p ∈ fields, p.name = key
  · obtain ⟨p, hp, rfl⟩ := hfield
    have hothers : ∀ f ∈ entries, ¬Spelled f.name p.name := fun f hf hname ↦
      honce p hp (repeats_cons.mpr (Or.inr ⟨hkey, f, hf, hname⟩))
    have hmeans : p.Means e.item.value (p.get w) := by
      rcases hgiven p hp with ⟨f, hf, hname, hmeans⟩ | ⟨hnone, -⟩
      · rcases List.mem_cons.mp hf with rfl | hf
        · exact hmeans
        · exact absurd hname (hothers f hf)
      · exact absurd hkey (hnone e List.mem_cons_self)
    have hfree' : p.name ∉ acc.given := fun hmem ↦ hfree p hp hmem e List.mem_cons_self hkey
    refine ⟨_, _, slotMember_eq_ok (hlaw.find?_slot hp) hfree',
      ((hlaw.accepts p hp _ _ hmeans).map _).map _, fun q hq hmem ↦ ?_, fun q hq ↦ ?_⟩
    · rcases List.mem_cons.mp hmem with hname | hmem
      · rw [hname]
        exact hothers
      · exact (List.forall_mem_cons.mp (hfree q hq hmem)).2
    · by_cases hqp : q = p
      · subst hqp
        exact Or.inr ⟨hothers, (hlaw.get_put q hq _ _).symm⟩
      · have hapart := hlaw.apart_of_ne hp hq (Ne.symm hqp)
        dsimp only
        rw [hapart.get]
        exact hpass q hq hapart.name.symm
  · have hnone : (fields.map FieldForm.slot).find? (·.name = key) = none := by
      rw [List.find?_eq_none]
      intro slot hslot hname
      obtain ⟨p, hp, rfl⟩ := List.mem_map.mp hslot
      exact hfield ⟨p, hp, of_decide_eq_true hname⟩
    refine ⟨fun s ↦ (skipValue s).map (acc, ·), acc, ?_, fun before rest hbefore hrest ↦ ?_,
      fun p hp hmem ↦ (List.forall_mem_cons.mp (hfree p hp hmem)).2,
      fun p hp ↦ hpass p hp fun h ↦ hfield ⟨p, hp, h⟩⟩
    · unfold slotMember
      rw [hnone]
    · dsimp only
      rw [skipValue_append hbefore hvalue hrest]
      rfl

/-- Members in any order, which give each field its value. -/
theorem gathers {entries : List Entry} {acc : Partial σ} {w : σ}
    (hvalues : ∀ e ∈ entries, WellFormed e.item.value)
    (hnamed : Named entries)
    (honce : ∀ p ∈ fields, ¬Repeats entries p.name)
    (hfree : ∀ p ∈ fields, p.name ∈ acc.given → ∀ e ∈ entries, ¬Spelled e.name p.name)
    (hgiven : ∀ p ∈ fields, Given entries p.name p.Means (p.get acc.value) (p.get w)) :
    ∃ given, Gathers (slotMember (fields.map FieldForm.slot)) acc entries ⟨w, given⟩ := by
  induction entries generalizing acc with
  | nil =>
    have hvalue : acc.value = w := hlaw.ext _ _ fun p hp ↦ by
      rcases hgiven p hp with ⟨e, he, -⟩ | ⟨-, hdefault⟩
      · exact absurd he List.not_mem_nil
      · exact hdefault.symm
    subst hvalue
    exact ⟨acc.given, .nil acc⟩
  | cons e entries ih =>
    obtain ⟨hvalue, hothervalues⟩ := List.forall_mem_cons.mp hvalues
    obtain ⟨⟨key, hkey⟩, hothernames⟩ := List.forall_mem_cons.mp hnamed
    obtain ⟨reader, acc', hmember, haccepts, hfree', hgiven'⟩ :=
      hlaw.exists_step hvalue hkey honce hfree hgiven
    obtain ⟨given, hgathers⟩ := ih hothervalues hothernames
      (fun p hp h ↦ honce p hp (repeats_cons.mpr (Or.inl h))) hfree' hgiven'
    exact ⟨given, .cons hkey hmember haccepts hgathers⟩

/-- A record is read from any object whose members give its fields their values. -/
theorem accepts_record {entries : List Entry} {v : Bytes} (hv : IsObject v entries) {start w : σ}
    (hnamed : Named entries)
    (honce : ∀ p ∈ fields, ¬Repeats entries p.name)
    (hgiven : ∀ p ∈ fields, Given entries p.name p.Means (p.get start) (p.get w)) :
    Accepts (record (fields.map FieldForm.slot) start) v w := by
  obtain ⟨given, hgathers⟩ :
      ∃ given, Gathers (slotMember (fields.map FieldForm.slot)) ⟨start, []⟩ entries ⟨w, given⟩ :=
    hlaw.gathers (fun e he ↦ (hv.sound e he).value) hnamed honce (by simp) hgiven
  refine (ignoresBlank_record start).accepts hv.wellFormed fun rest _ ↦ ?_
  obtain ⟨blanks, hblanks, rfl⟩ := hv.text
  rw [objectText_append, record, skipBlank_cons (by decide)]
  dsimp only
  rw [if_pos rfl, Reader.map,
    objectBody_gathers hgathers (fun e he ↦ (hv.sound e he).padded) hblanks rest]

theorem takesWhole_slot : ∀ slot ∈ fields.map FieldForm.slot, ∀ x, TakesWhole (slot.read x) := by
  intro slot hslot x
  obtain ⟨p, hp, rfl⟩ := List.mem_map.mp hslot
  exact TakesWhole.map _ (hlaw.whole p hp)

/-- A record has been read from an object only if no field is given twice, and each of them has
taken the value that it is given. -/
theorem of_hasTaken {entries : List Entry} {v : Bytes} (hv : IsObject v entries) {start x : σ}
    (h : HasTaken (record (fields.map FieldForm.slot) start) v x) (hp : p ∈ fields) :
    ¬Repeats entries p.name ∧
      ∀ e ∈ entries, Spelled e.name p.name → ∃ a, HasTaken p.reader e.item.value a := by
  obtain ⟨c, hgathered⟩ := gathered_of_record hlaw.takesWhole_slot hv h
  obtain ⟨-, honce, htaken⟩ := hgathered.slot (hlaw.find?_slot hp)
  refine ⟨honce, fun e he hname ↦ ?_⟩
  obtain ⟨x, y, hread⟩ := htaken e he hname
  obtain ⟨a, -, hread⟩ := hread.of_map
  exact ⟨a, hread⟩

theorem not_repeats {entries : List Entry} {v : Bytes} (hv : IsObject v entries) {start x : σ}
    (h : HasTaken (record (fields.map FieldForm.slot) start) v x) {name : String}
    (hname : name ∈ fields.map FieldForm.name) : ¬Repeats entries name := by
  obtain ⟨p, hp, rfl⟩ := List.mem_map.mp hname
  exact (hlaw.of_hasTaken hv h hp).1

end FieldForm.Lawful

end Fields

end Gossip.Json
