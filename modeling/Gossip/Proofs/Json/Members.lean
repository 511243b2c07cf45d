import Gossip.Proofs.Json.Meaning

/-!
Members of an object, in any order and with white space between them. If each of them is accepted,
they are together what their values make of the start, whatever else stands in the object; and where
an object has been read, each member has been accepted with its name and its value as a whole.
-/

set_option autoImplicit false
set_option relaxedAutoImplicit false

namespace Gossip.Json

section Members

variable {σ : Type} {member : MemberReader σ}

/-! ### Single members -/

/-- What stands behind a member of an object: the other members, each behind its comma, the closing
brace, and what stands behind the object. -/
def remaining (entries : List Entry) (rest : Bytes) : Bytes :=
  (entries.map Entry.text).flatMap (commaByte :: ·) ++ closeBrace :: rest

theorem ends_remaining (entries : List Entry) (rest : Bytes) : Ends (remaining entries rest) :=
  ends_flatMap _ (Or.inl rfl) rest

theorem remaining_cons (e : Entry) (entries : List Entry) (rest : Bytes) :
    remaining (e :: entries) rest =
      commaByte :: (e.before ++ (e.quoted ++ remaining entries rest)) := by
  simp [remaining, Entry.text]

/-- What is left to read when one member has been read. -/
def goOn (member : MemberReader σ) (fuel : Nat) :
    Except Fault (σ × Bytes) → Except Fault (σ × Bytes)
  | .error fault => .error fault
  | .ok (acc, rest) => members member fuel false acc rest

section Layout

variable {blanks : Bytes} (hblanks : Blank blanks) (fuel : Nat) (first : Bool) (a : σ)

include hblanks

theorem members_closed (rest : Bytes) :
    members member (fuel + 1) first a (blanks ++ closeBrace :: rest) = .ok (a, rest) := by
  rw [members, skipBlank_append hblanks, skipBlank_cons (by decide)]
  exact if_pos rfl

theorem members_first (e : Entry) (more : Bytes) :
    members member (fuel + 1) true a (blanks ++ (e.quoted ++ more)) =
      goOn member fuel (oneMember member a (e.quoted ++ more)) := by
  rw [members, skipBlank_append hblanks, Entry.quoted, List.cons_append, skipBlank_cons (by decide)]
  dsimp only
  rw [if_neg (by decide), nextKey, if_pos rfl]
  rfl

theorem members_next {e : Entry} (he : Blank e.before) (entries : List Entry) (rest : Bytes) :
    members member (fuel + 1) false a (blanks ++ remaining (e :: entries) rest) =
      goOn member fuel (oneMember member a (e.quoted ++ remaining entries rest)) := by
  rw [members, skipBlank_append hblanks, remaining_cons, skipBlank_cons (by decide)]
  dsimp only
  rw [if_neg (by decide), nextKey, if_neg (by decide), if_pos rfl, skipBlank_append he,
    Entry.quoted, List.cons_append, skipBlank_cons (by decide)]
  rfl

end Layout

theorem quoted_append (e : Entry) (more : Bytes) :
    e.quoted ++ more = quoteByte :: (e.name ++ quoteByte ::
      (e.between ++ colonByte :: (e.item.before ++ (e.item.value ++ (e.item.after ++ more))))) := by
  simp [Entry.quoted, Item.text]

theorem oneMember_of_spelled {e : Entry} {key : String} (hname : Spelled e.name key)
    (hbetween : Blank e.between) {a : σ} {reader : Reader σ} (hmember : member a key = .ok reader)
    (more : Bytes) :
    oneMember member a (e.quoted ++ more) = reader (e.item.before ++ (e.item.value ++
      (e.item.after ++ more))) := by
  rw [quoted_append, oneMember, if_pos rfl, textBody_spelled hname]
  dsimp only
  rw [hmember]
  dsimp only
  rw [skipBlank_append hbetween, skipBlank_cons (by decide)]
  exact if_pos rfl

/-- A member that has been read has a name, and its value has been read by what the name calls
for. -/
theorem exists_of_oneMember {e : Entry} (hname : Quotable e.name) (hbetween : Blank e.between)
    {a : σ} {more : Bytes} {result : σ × Bytes}
    (h : oneMember member a (e.quoted ++ more) = .ok result) :
    ∃ key reader, (∀ k, Spelled e.name k → k = key) ∧ member a key = .ok reader ∧
      reader (e.item.before ++ (e.item.value ++ (e.item.after ++ more))) = .ok result := by
  rw [quoted_append, oneMember, if_pos rfl] at h
  split at h
  · exact absurd h (by simp)
  next key behind hkey =>
    obtain rfl := eq_of_textBody hname hkey
    split at h
    · exact absurd h (by simp)
    next reader hmember =>
      rw [skipBlank_append hbetween, skipBlank_cons (by decide)] at h
      dsimp only at h
      rw [if_pos rfl] at h
      refine ⟨key, reader, fun k hk ↦ ?_, hmember, h⟩
      rw [textBody_spelled hk] at hkey
      exact (Prod.mk.inj (Except.ok.inj hkey)).1

/-! ### All members -/

/-- Members, each of which takes the value read so far to the next one. -/
inductive Gathers (member : MemberReader σ) : σ → List Entry → σ → Prop
  | nil (a : σ) : Gathers member a [] a
  | cons {a b c : σ} {e : Entry} {key : String} {reader : Reader σ} {entries : List Entry}
    (hname : Spelled e.name key) (hmember : member a key = .ok reader)
    (hvalue : Accepts reader e.item.value b) (hrest : Gathers member b entries c) :
    Gathers member a (e :: entries) c

/-- The reader has taken the value somewhere. -/
def HasTaken {α : Type} (reader : Reader α) (v : Bytes) (a : α) : Prop :=
  ∃ before rest, Blank before ∧ Ends rest ∧ reader (before ++ (v ++ rest)) = .ok (a, rest)

/-- Members that have been read one after the other. -/
inductive Gathered (member : MemberReader σ) : σ → List Entry → σ → Prop
  | nil (a : σ) : Gathered member a [] a
  | cons {a b c : σ} {e : Entry} {key : String} {reader : Reader σ} {entries : List Entry}
    (hname : ∀ k, Spelled e.name k → k = key) (hmember : member a key = .ok reader)
    (hvalue : HasTaken reader e.item.value b) (hrest : Gathered member b entries c) :
    Gathered member a (e :: entries) c

section Objects

variable {entries : List Entry} {a c : σ}

theorem members_gathers (h : Gathers member a entries c) (hpadded : ∀ e ∈ entries, e.Padded)
    {blanks : Bytes} (hblanks : Blank blanks) {fuel : Nat} (hfuel : entries.length < fuel)
    (rest : Bytes) :
    members member fuel false a (blanks ++ remaining entries rest) = .ok (c, rest) := by
  induction h generalizing blanks fuel with
  | nil a =>
    obtain ⟨fuel, rfl⟩ : ∃ k, fuel = k + 1 := ⟨fuel - 1, by omega⟩
    exact members_closed hblanks fuel false a rest
  | @cons a b c e key reader entries hname hmember hvalue _ ih =>
    obtain ⟨fuel, rfl⟩ : ∃ k, fuel = k + 1 := ⟨fuel - 1, by omega⟩
    obtain ⟨⟨hbefore, hbetween, hitem⟩, hothers⟩ := List.forall_mem_cons.mp hpadded
    rw [members_next hblanks fuel a hbefore, oneMember_of_spelled hname hbetween hmember,
      hvalue _ _ hitem.1 ((ends_remaining entries rest).append hitem.2)]
    exact ih hothers hitem.2 (by simpa using hfuel)

/-- One member has been read as a whole, and then the others. -/
theorem gathered_of_goOn (hwhole : ∀ a key reader, member a key = .ok reader → TakesWhole reader)
    {e : Entry} (he : e.Sound) {fuel : Nat} {rest behind : Bytes}
    (h : goOn member fuel (oneMember member a (e.quoted ++ remaining entries rest)) =
      .ok (c, behind))
    (hothers : ∀ b, members member fuel false b (e.item.after ++ remaining entries rest) =
      .ok (c, behind) → behind = rest ∧ Gathered member b entries c) :
    behind = rest ∧ Gathered member a (e :: entries) c := by
  obtain ⟨-, hbetween, hitem⟩ := he.padded
  cases hone : oneMember member a (e.quoted ++ remaining entries rest) with
  | error fault =>
    rw [hone] at h
    exact absurd h (by simp [goOn])
  | ok result =>
    obtain ⟨b, left⟩ := result
    obtain ⟨key, reader, hkey, hmember, hread⟩ := exists_of_oneMember he.name hbetween hone
    have hends := (ends_remaining entries rest).append hitem.2
    obtain rfl := hwhole a key reader hmember hitem.1 he.value hends hread
    rw [hone] at h
    obtain ⟨hbehind, hgathered⟩ := hothers b h
    exact ⟨hbehind, .cons hkey hmember ⟨_, _, hitem.1, hends, hread⟩ hgathered⟩

theorem gathered_of_members (hwhole : ∀ a key reader, member a key = .ok reader → TakesWhole reader)
    (hsound : ∀ e ∈ entries, e.Sound) {blanks : Bytes} (hblanks : Blank blanks)
    {fuel : Nat} {rest behind : Bytes}
    (h : members member fuel false a (blanks ++ remaining entries rest) = .ok (c, behind)) :
    behind = rest ∧ Gathered member a entries c := by
  induction entries generalizing a blanks fuel with
  | nil =>
    cases fuel with
    | zero => exact absurd h (by simp [members])
    | succ fuel =>
      rw [show remaining [] rest = closeBrace :: rest from rfl,
        members_closed hblanks fuel false a rest] at h
      obtain ⟨rfl, rfl⟩ := Prod.mk.inj (Except.ok.inj h)
      exact ⟨rfl, .nil _⟩
  | cons e entries ih =>
    cases fuel with
    | zero => exact absurd h (by simp [members])
    | succ fuel =>
      obtain ⟨he, hothers⟩ := List.forall_mem_cons.mp hsound
      rw [members_next hblanks fuel a he.padded.1] at h
      exact gathered_of_goOn hwhole he h fun b ↦ ih hothers he.padded.2.2.2

/-- An object behind its opening brace, and what stands behind the object. -/
def behindBrace (blanks : Bytes) (entries : List Entry) (rest : Bytes) : Bytes :=
  match entries with
  | [] => blanks ++ closeBrace :: rest
  | e :: entries => (blanks ++ e.before) ++ (e.quoted ++ remaining entries rest)

theorem objectText_append (blanks : Bytes) (entries : List Entry) (rest : Bytes) :
    objectText blanks entries ++ rest = openBrace :: behindBrace blanks entries rest := by
  cases entries with
  | nil => simp [objectText, enclosed, behindBrace]
  | cons e entries =>
    rw [objectText, enclosed, List.map_cons, flatten_intersperse_cons]
    simp [behindBrace, remaining, Entry.text]

theorem length_lt_length_remaining (entries : List Entry) (rest : Bytes) :
    entries.length < (remaining entries rest).length := by
  have h := length_le_length_flatMap (entries.map Entry.text)
  rw [List.length_map] at h
  rw [remaining, List.length_append, List.length_cons]
  omega

theorem Blank.append {s t : Bytes} (hs : Blank s) (ht : Blank t) : Blank (s ++ t) :=
  fun b hb ↦ (List.mem_append.mp hb).elim (hs b) (ht b)

theorem objectBody_gathers (h : Gathers member a entries c) (hpadded : ∀ e ∈ entries, e.Padded)
    {blanks : Bytes} (hblanks : Blank blanks) (rest : Bytes) :
    objectBody member a (behindBrace blanks entries rest) = .ok (c, rest) := by
  unfold objectBody behindBrace
  cases h with
  | nil a => exact members_closed hblanks _ true a rest
  | @cons a b c e key reader entries hname hmember hvalue hrest =>
    obtain ⟨⟨hbefore, hbetween, hitem⟩, hothers⟩ := List.forall_mem_cons.mp hpadded
    dsimp only
    rw [members_first (hblanks.append hbefore), oneMember_of_spelled hname hbetween hmember,
      hvalue _ _ hitem.1 ((ends_remaining entries rest).append hitem.2)]
    refine members_gathers hrest hothers hitem.2 ?_ rest
    have hlength := length_lt_length_remaining entries rest
    simp only [List.length_append]
    omega

/-- The members of an object have been read, each as a whole. -/
theorem gathered_of_objectBody
    (hwhole : ∀ a key reader, member a key = .ok reader → TakesWhole reader)
    (hsound : ∀ e ∈ entries, e.Sound) {blanks : Bytes} (hblanks : Blank blanks)
    {rest behind : Bytes}
    (h : objectBody member a (behindBrace blanks entries rest) = .ok (c, behind)) :
    behind = rest ∧ Gathered member a entries c := by
  unfold objectBody behindBrace at h
  cases entries with
  | nil =>
    dsimp only at h
    rw [members_closed hblanks _ true a rest] at h
    obtain ⟨rfl, rfl⟩ := Prod.mk.inj (Except.ok.inj h)
    exact ⟨rfl, .nil _⟩
  | cons e entries =>
    obtain ⟨he, hothers⟩ := List.forall_mem_cons.mp hsound
    dsimp only at h
    rw [members_first (hblanks.append he.padded.1)] at h
    exact gathered_of_goOn hwhole he h fun b ↦
      gathered_of_members hwhole hothers he.padded.2.2.2

theorem ignoresBlank_object (a : σ) : IgnoresBlank (object member a) := by
  intro s
  simp only [object, skipBlank_skipBlank]

theorem accepts_object {v : Bytes} (hv : IsObject v entries) (h : Gathers member a entries c) :
    Accepts (object member a) v c := by
  refine (ignoresBlank_object a).accepts hv.wellFormed fun rest _ ↦ ?_
  obtain ⟨blanks, hblanks, rfl⟩ := hv.text
  rw [objectText_append, object, skipBlank_cons (by decide)]
  exact (if_pos rfl).trans
    (objectBody_gathers h (fun e he ↦ (hv.sound e he).padded) hblanks rest)

theorem takesWhole_object (a : σ)
    (hwhole : ∀ a key reader, member a key = .ok reader → TakesWhole reader) :
    TakesWhole (object member a) := by
  refine (ignoresBlank_object a).takesWhole ?_
  intro b s rest behind c hstarts hb _ hread
  rw [object, skipBlank_cons hb] at hread
  dsimp only at hread
  split at hread
  next hbrace =>
    obtain ⟨entries, ⟨blanks, hblanks, htext⟩, hsound⟩ := hstarts.brace hbrace
    have hsplit := objectText_append blanks entries rest
    rw [← htext, List.cons_append] at hsplit
    rw [(List.cons.inj hsplit).2] at hread
    exact (gathered_of_objectBody hwhole hsound hblanks hread).1
  · exact absurd hread (by simp)

end Objects

end Members

end Gossip.Json
