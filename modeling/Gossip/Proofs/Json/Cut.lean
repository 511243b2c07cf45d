import Gossip.Proofs.Json.Record

/-!
Written values that are cut short. A reader that is given a part of a written value from the left
says that the text ended too early, whichever byte comes last: one within an escape, within a
character, or within a list of members. Only a number is different, since what is left of its digits
is a number. It is taken to its end then, and the text ends too early for what should follow.
-/

set_option autoImplicit false
set_option relaxedAutoImplicit false

namespace Gossip.Json

/-- On every proper part of the bytes from the left, the text ends too early for the reader. -/
def EndsEarly {α : Type} (reader : Reader α) (bytes : Bytes) : Prop :=
  ∀ cut, cut <+: bytes → cut ≠ bytes → reader cut = .error .early

/-- On every part of the bytes from the left, the text ends too early for the reader, or is a value
to its end. -/
def RunsOut {α : Type} (reader : Reader α) (bytes : Bytes) : Prop :=
  ∀ cut, cut <+: bytes → reader cut = .error .early ∨ ∃ a, reader cut = .ok (a, [])

/-- The reader takes the bytes for the value, and no part of them from the left for anything but a
text that ends too early, unless it leaves nothing behind. -/
structure Represents {α : Type} (reader : Reader α) (bytes : Bytes) (a : α) : Prop where
  reads : Reads reader bytes a
  runsOut : RunsOut reader bytes

section Parts

variable {α : Type} {reader : Reader α} {bytes : Bytes} {a : α}

theorem EndsEarly.represents (h : EndsEarly reader bytes) (hreads : Reads reader bytes a) :
    Represents reader bytes a := by
  refine ⟨hreads, fun cut hcut ↦ ?_⟩
  by_cases hwhole : cut = bytes
  · exact Or.inr ⟨a, hwhole ▸ hreads.ok_nil⟩
  · exact Or.inl (h cut hcut hwhole)

theorem Represents.map {β : Type} (f : α → β) (h : Represents reader bytes a) :
    Represents (reader.map f) bytes (f a) := by
  refine ⟨h.reads.map f, fun cut hcut ↦ ?_⟩
  unfold Reader.map
  rcases h.runsOut cut hcut with hcut | ⟨b, hcut⟩
  · exact Or.inl (by rw [hcut])
  · exact Or.inr ⟨f b, by rw [hcut]⟩

theorem Represents.nullable {b : UInt8} {tail : Bytes} (default : α) (hblank : isBlank b = false)
    (hnull : b ≠ 0x6E) (h : Represents reader (b :: tail) a) :
    Represents (nullable default reader) (b :: tail) a := by
  refine ⟨h.reads.nullable default hblank hnull, fun cut hcut ↦ ?_⟩
  have hsame : Json.nullable default reader cut = reader cut := by
    rcases List.prefix_cons_iff.mp hcut with rfl | ⟨rest, rfl, -⟩
    · rfl
    · unfold Json.nullable
      rw [skipBlank_cons hblank]
      exact if_neg hnull
  rw [hsame]
  exact h.runsOut cut hcut

/-- A part of two pieces ends within the first of them or behind it. -/
theorem prefix_append_cases {cut first second : Bytes} (h : cut <+: first ++ second) :
    (cut <+: first ∧ cut ≠ first) ∨ ∃ more, more <+: second ∧ cut = first ++ more := by
  rcases List.prefix_or_prefix_of_prefix h (List.prefix_append first second) with
    hcut | ⟨more, rfl⟩
  · by_cases hwhole : cut = first
    · exact Or.inr ⟨[], List.nil_prefix, by rw [hwhole, List.append_nil]⟩
    · exact Or.inl ⟨hcut, hwhole⟩
  · exact Or.inr ⟨more, (List.prefix_append_right_inj first).mp h, rfl⟩

end Parts

/-! ### Texts -/

theorem unescapeFrom_nil (read : Bytes) : unescapeFrom read [] = .error .early := by
  rw [unescapeFrom.eq_def]

/-- The bytes of a written character: an escape of two letters, the number of a control character,
or bytes that stand for themselves. -/
inductive EscapeForm : Bytes → Prop
  | short (e : UInt8) : EscapeForm ([backslashByte] ++ [e])
  | control (digits : Bytes) (hlength : digits.length = 4) :
    EscapeForm (backslashByte :: 0x75 :: digits)
  | plain (bytes : Bytes) (hplain : ∀ b ∈ bytes, IsPlain b) : EscapeForm bytes

theorem escapeForm_escape (c : Char) : EscapeForm (escape c) := by
  unfold escape
  split_ifs with hquote hbackslash hb hf hn hr ht hcontrol
  iterate 7 exact .short _
  · exact .control _ rfl
  · refine .plain _ (isPlain_utf8EncodeChar (by omega) ?_ ?_)
    · exact fun h ↦ hquote (Char.toNat_inj.mp h)
    · exact fun h ↦ hbackslash (Char.toNat_inj.mp h)

theorem unescapeFrom_of_length_lt {digits : Bytes} (h : digits.length < 4) (read : Bytes) :
    unescapeFrom read (backslashByte :: 0x75 :: digits) = .error .early := by
  rw [unescapeFrom.eq_def]
  dsimp only
  rw [if_neg (by decide), if_pos rfl, if_pos rfl]
  split
  · exact absurd h (by simp)
  · rfl

theorem unescapeFrom_backslash (read : Bytes) :
    unescapeFrom read [backslashByte] = .error .early := by
  rw [unescapeFrom.eq_def]
  rfl

/-- A character that is cut short, whichever way it is written. -/
theorem EscapeForm.cut {bytes : Bytes} (h : EscapeForm bytes) {cut : Bytes} (hcut : cut <+: bytes)
    (hshort : cut ≠ bytes) (read : Bytes) : unescapeFrom read cut = .error .early := by
  cases h with
  | short e =>
    have hcut := (List.prefix_concat_iff.mp hcut).resolve_left hshort
    rcases List.prefix_cons_iff.mp hcut with rfl | ⟨rest, rfl, hrest⟩
    · exact unescapeFrom_nil read
    · rw [List.prefix_nil.mp hrest, unescapeFrom_backslash]
  | control digits hlength =>
    rcases List.prefix_cons_iff.mp hcut with rfl | ⟨rest, rfl, hrest⟩
    · exact unescapeFrom_nil read
    rcases List.prefix_cons_iff.mp hrest with rfl | ⟨left, rfl, hleft⟩
    · exact unescapeFrom_backslash read
    · have hne : left.length ≠ digits.length := fun h ↦
        hshort (congrArg (backslashByte :: 0x75 :: ·) (hleft.eq_of_length h))
      have hle := hleft.length_le
      exact unescapeFrom_of_length_lt (by omega) read
  | plain _ hplain =>
    have hread := unescapeFrom_plain (fun b hb ↦ hplain b (hcut.subset hb)) read []
    rwa [List.append_nil, unescapeFrom_nil] at hread

theorem unescapeFrom_cut {chars : List Char} {cut : Bytes} (hcut : cut <+: chars.flatMap escape)
    (read : Bytes) : unescapeFrom read cut = .error .early := by
  induction chars generalizing cut read with
  | nil =>
    rw [List.prefix_nil.mp hcut]
    exact unescapeFrom_nil read
  | cons c chars ih =>
    rw [List.flatMap_cons] at hcut
    rcases prefix_append_cases hcut with ⟨hcut, hshort⟩ | ⟨more, hmore, rfl⟩
    · exact (escapeForm_escape c).cut hcut hshort read
    · rw [unescapeFrom_escape]
      exact ih hmore _

/-- A string behind its opening quote that is cut short. -/
theorem textBody_cut {value : String} {cut : Bytes} (hcut : cut <+: (writeText value).tail)
    (hshort : cut ≠ (writeText value).tail) : textBody cut = .error .early := by
  have hopen : cut <+: value.toList.flatMap escape :=
    (List.prefix_concat_iff.mp hcut).resolve_left hshort
  unfold textBody
  rw [unescapeFrom_cut hopen]

theorem endsEarly_text (value : String) : EndsEarly text (writeText value) := by
  intro cut hcut hshort
  rcases List.prefix_cons_iff.mp hcut with rfl | ⟨rest, rfl, hrest⟩
  · rfl
  · have hbody : textBody rest = .error .early :=
      textBody_cut hrest fun h ↦ hshort (congrArg (quoteByte :: ·) h)
    unfold text
    rw [skipBlank_cons (by decide)]
    exact (if_pos rfl).trans hbody

theorem represents_text (value : String) : Represents text (writeText value) value :=
  (endsEarly_text value).represents (reads_text value)

/-! ### Words and numbers -/

theorem word_cut {letters cut : Bytes} (hcut : cut <+: letters) (hshort : cut ≠ letters) :
    word letters cut = .error .early := by
  induction letters generalizing cut with
  | nil => exact absurd (List.prefix_nil.mp hcut) hshort
  | cons b letters ih =>
    rcases List.prefix_cons_iff.mp hcut with rfl | ⟨rest, rfl, hrest⟩
    · rfl
    · rw [word, if_pos rfl]
      exact ih hrest fun h ↦ hshort (congrArg (b :: ·) h)

theorem endsEarly_bool (value : Bool) : EndsEarly bool (writeBool value) := by
  intro cut hcut hshort
  cases value with
  | false =>
    rcases List.prefix_cons_iff.mp hcut with rfl | ⟨rest, rfl, hrest⟩
    · rfl
    · have hword := word_cut hrest fun h ↦ hshort (congrArg (0x66 :: ·) h)
      unfold bool
      rw [skipBlank_cons (by decide)]
      dsimp only
      rw [if_neg (by decide), if_pos rfl, hword]
      rfl
  | true =>
    rcases List.prefix_cons_iff.mp hcut with rfl | ⟨rest, rfl, hrest⟩
    · rfl
    · have hword := word_cut hrest fun h ↦ hshort (congrArg (0x74 :: ·) h)
      unfold bool
      rw [skipBlank_cons (by decide)]
      dsimp only
      rw [if_pos rfl, hword]
      rfl

theorem represents_bool (value : Bool) : Represents bool (writeBool value) value :=
  (endsEarly_bool value).represents (reads_bool value)

/-- What is left of the digits of a number are the digits of a number. -/
theorem prefix_writeNat {n : Nat} {cut : Bytes} (hcut : cut <+: writeNat n) :
    cut = [] ∨ ∃ m ≤ n, (0 < n → 0 < m) ∧ cut = writeNat m := by
  induction n using Nat.strongRecOn with
  | ind n ih =>
    by_cases hlt : n < 10
    · have hwhole := hcut
      rw [writeNat_of_lt hlt] at hcut
      rcases List.prefix_cons_iff.mp hcut with rfl | ⟨rest, rfl, hrest⟩
      · exact Or.inl rfl
      · refine Or.inr ⟨n, Nat.le_refl n, id, ?_⟩
        rw [writeNat_of_lt hlt, List.prefix_nil.mp hrest]
    · rw [writeNat_of_le (by omega)] at hcut
      rcases List.prefix_concat_iff.mp hcut with rfl | hcut
      · exact Or.inr ⟨n, Nat.le_refl n, id, (writeNat_of_le (by omega)).symm⟩
      · rcases ih (n / 10) (by omega) hcut with rfl | ⟨m, hm, hpos, rfl⟩
        · exact Or.inl rfl
        · exact Or.inr ⟨m, by omega, fun _ ↦ hpos (by omega), rfl⟩

theorem represents_unsigned {bound n : Nat} (hbound : bound ≤ UInt64.size) (hn : n < bound) :
    Represents (integer (fitUnsigned bound)) (writeNat n) n := by
  refine ⟨reads_unsigned hbound hn, fun cut hcut ↦ ?_⟩
  rcases prefix_writeNat hcut with rfl | ⟨m, hm, -, rfl⟩
  · exact Or.inl rfl
  · exact Or.inr ⟨m, (reads_unsigned hbound (Nat.lt_of_le_of_lt hm hn)).ok_nil⟩

theorem represents_unsigned8 (n : UInt8) : Represents unsigned8 (writeNat n.toNat) n := by
  have h := (represents_unsigned (by decide) n.toNat_lt_size).map UInt8.ofNat
  rwa [UInt8.ofNat_toNat] at h

theorem represents_unsigned16 (n : UInt16) : Represents unsigned16 (writeNat n.toNat) n := by
  have h := (represents_unsigned (by decide) n.toNat_lt_size).map UInt16.ofNat
  rwa [UInt16.ofNat_toNat] at h

theorem represents_unsigned64 (n : UInt64) : Represents unsigned64 (writeNat n.toNat) n := by
  have h := (represents_unsigned (Nat.le_refl _) n.toNat_lt_size).map UInt64.ofNat
  rwa [UInt64.ofNat_toNat] at h

theorem represents_signed64 (n : Int64) : Represents signed64 (writeInt n.toInt) n := by
  refine ⟨reads_signed64 n, fun cut hcut ↦ ?_⟩
  have hleast : -9223372036854775808 ≤ n.toInt := n.le_toInt
  have hmost : n.toInt < 9223372036854775808 := n.toInt_lt
  -- what is left is a number of the same sign that is not further from zero
  have hwritten (k : Int) (hk : k.natAbs ≤ n.toInt.natAbs) (hsign : 0 ≤ k ↔ 0 ≤ n.toInt) :
      ∃ a, signed64 (writeInt k) = .ok (a, []) := by
    have hread := (reads_signed64 (Int64.ofInt k)).ok_nil
    rw [Int64.toInt_ofInt_of_le (by omega) (by omega)] at hread
    exact ⟨_, hread⟩
  unfold writeInt at hcut
  split at hcut
  next hneg =>
    rcases List.prefix_cons_iff.mp hcut with rfl | ⟨rest, rfl, hrest⟩
    · exact Or.inl rfl
    · rcases prefix_writeNat hrest with rfl | ⟨m, hm, hpos, rfl⟩
      · exact Or.inl rfl
      · have hm' := hpos (by omega)
        obtain ⟨a, hread⟩ := hwritten (-m) (by omega) (by omega)
        rw [writeInt, if_pos (by omega), Int.natAbs_neg, Int.natAbs_natCast] at hread
        exact Or.inr ⟨a, hread⟩
  next hneg =>
    rcases prefix_writeNat hcut with rfl | ⟨m, hm, -, rfl⟩
    · exact Or.inl rfl
    · obtain ⟨a, hread⟩ := hwritten m (by omega) (by omega)
      rw [writeInt, if_neg (by omega), Int.natAbs_natCast] at hread
      exact Or.inr ⟨a, hread⟩

/-! ### Objects -/

/-- Written members, each of which takes the value read so far to the next one, and none of which
is taken for anything else when it is cut short. -/
inductive Spells {σ : Type} (member : MemberReader σ) : σ → List Bytes → σ → Prop
  | nil (a : σ) : Spells member a [] a
  | cons {a b c : σ} {name : String} {value : Bytes} {reader : Reader σ} {rest : List Bytes}
      (hmember : member a name = .ok reader) (hvalue : Represents reader value b)
      (hrest : Spells member b rest c) : Spells member a (writeMember name value :: rest) c

section Members

variable {σ : Type} {member : MemberReader σ} {a b c : σ}

theorem Spells.takes {written : List Bytes} (h : Spells member a written c) :
    Takes member a written c := by
  induction h with
  | nil a => exact .nil a
  | cons hmember hvalue _ ih => exact .cons hmember hvalue.reads ih

theorem members_nil (member : MemberReader σ) (fuel : Nat) (first : Bool) (a : σ) :
    members member fuel first a [] = .error .early := by
  cases fuel <;> rfl

theorem runsOut_oneMember {name : String} {value : Bytes} {reader : Reader σ}
    (hmember : member a name = .ok reader) (hvalue : RunsOut reader value) :
    RunsOut (oneMember member a) (writeMember name value) := by
  intro cut hcut
  have hbytes : writeMember name value =
      quoteByte :: ((writeText name).tail ++ colonByte :: value) := rfl
  rw [hbytes] at hcut
  rcases List.prefix_cons_iff.mp hcut with rfl | ⟨rest, rfl, hrest⟩
  · exact Or.inl rfl
  · rw [oneMember, if_pos rfl]
    rcases prefix_append_cases hrest with ⟨hrest, hshort⟩ | ⟨more, hmore, rfl⟩
    · rw [textBody_cut hrest hshort]
      exact Or.inl rfl
    · rw [textBody_writeText]
      dsimp only
      rw [hmember]
      dsimp only
      rcases List.prefix_cons_iff.mp hmore with rfl | ⟨more, rfl, hvaluecut⟩
      · exact Or.inl rfl
      · rw [skipBlank_cons (by decide)]
        dsimp only
        rw [if_pos rfl]
        exact hvalue more hvaluecut

/-- What stands behind a value stops it also where it is cut short. -/
theorem Stops.cut {cut rest : Bytes} (h : Stops rest) (hcut : cut <+: rest) : Stops cut := by
  cases cut with
  | nil => exact stops_nil
  | cons b cut =>
    obtain ⟨more, rfl⟩ := hcut
    exact h

theorem stops_flatMap_cut {tail : List Bytes} {cut : Bytes}
    (hcut : cut <+: tail.flatMap (commaByte :: ·)) : Stops cut :=
  (stops_flatMap tail []).cut (hcut.trans (List.prefix_append _ _))

/-- Either the first of some members ends too early, or the ones behind it do, since their closing
brace is missing. -/
theorem oneMember_cut {name : String} {value : Bytes} {reader : Reader σ} {tail : List Bytes}
    (hmember : member a name = .ok reader) (hvalue : Represents reader value b) {fuel : Nat}
    (htail : ∀ more, more <+: tail.flatMap (commaByte :: ·) →
      members member fuel false b more = .error .early) {cut : Bytes}
    (hcut : cut <+: writeMember name value ++ tail.flatMap (commaByte :: ·)) :
    oneMember member a cut = .error .early ∨ ∃ acc rest,
      oneMember member a cut = .ok (acc, rest) ∧
        members member fuel false acc rest = .error .early := by
  rcases prefix_append_cases hcut with ⟨hcut, -⟩ | ⟨more, hmore, rfl⟩
  · rcases runsOut_oneMember hmember hvalue.runsOut cut hcut with hearly | ⟨acc, hnumber⟩
    · exact Or.inl hearly
    · exact Or.inr ⟨acc, [], hnumber, members_nil member fuel false acc⟩
  · exact Or.inr ⟨b, more,
      oneMember_writeMember hmember hvalue.reads (stops_flatMap_cut hmore),
      htail more hmore⟩

theorem members_cut {tail : List Bytes} (h : Spells member a tail c) (fuel : Nat) {cut : Bytes}
    (hcut : cut <+: tail.flatMap (commaByte :: ·)) :
    members member fuel false a cut = .error .early := by
  induction h generalizing fuel cut with
  | nil a =>
    rw [List.prefix_nil.mp hcut]
    exact members_nil member fuel false a
  | @cons a b c name value reader tail hmember hvalue hrest ih =>
    rw [List.flatMap_cons, List.cons_append] at hcut
    cases fuel with
    | zero => rfl
    | succ fuel =>
      rcases List.prefix_cons_iff.mp hcut with rfl | ⟨rest, rfl, hrest⟩
      · rfl
      · rw [members, skipBlank_cons (by decide)]
        dsimp only
        rw [if_neg (by decide), nextKey, if_neg (by decide), if_pos rfl]
        have hone := oneMember_cut hmember hvalue (fun more hmore ↦ ih fuel hmore) hrest
        rcases List.prefix_cons_iff.mp hrest with rfl | ⟨key, rfl, -⟩
        · rfl
        · rw [skipBlank_cons (by decide)]
          dsimp only
          rcases hone with hearly | ⟨acc, rest, hone, hmembers⟩
          · rw [hearly]
          · rw [hone]
            exact hmembers

theorem objectBody_cut {written : List Bytes} (h : Spells member a written c) {cut : Bytes}
    (hcut : cut <+: (writeObject written).tail) (hshort : cut ≠ (writeObject written).tail) :
    objectBody member a cut = .error .early := by
  have hopen : cut <+: (written.intersperse [commaByte]).flatten :=
    (List.prefix_concat_iff.mp hcut).resolve_left hshort
  unfold objectBody
  cases h with
  | nil a =>
    rw [List.prefix_nil.mp hopen]
    rfl
  | @cons a b c name value reader tail hmember hvalue hrest =>
    rw [flatten_intersperse_cons] at hopen
    have hone := oneMember_cut hmember hvalue
      (fun more hmore ↦ members_cut hrest cut.length hmore) hopen
    rcases List.prefix_cons_iff.mp hopen with rfl | ⟨key, rfl, -⟩
    · rfl
    · rw [members, skipBlank_cons (by decide)]
      dsimp only
      rw [if_neg (by decide), nextKey, if_pos rfl]
      dsimp only
      rcases hone with hearly | ⟨acc, rest, hone, hmembers⟩
      · rw [hearly]
      · rw [hone]
        exact hmembers

theorem endsEarly_object {written : List Bytes} (h : Spells member a written c) :
    EndsEarly (object member a) (writeObject written) := by
  intro cut hcut hshort
  rcases List.prefix_cons_iff.mp hcut with rfl | ⟨rest, rfl, hrest⟩
  · rfl
  · have hbody := objectBody_cut h hrest fun heq ↦ hshort (congrArg (openBrace :: ·) heq)
    rw [object, skipBlank_cons (by decide)]
    exact (if_pos rfl).trans hbody

theorem represents_object {written : List Bytes} (h : Spells member a written c) :
    Represents (object member a) (writeObject written) c :=
  (endsEarly_object h).represents (reads_object h.takes)

end Members

section Records

variable {σ : Type} {slots : List (Slot σ)} {a : σ} {c : Partial σ} {written : List Bytes}

theorem endsEarly_record (h : Spells (slotMember slots) ⟨a, []⟩ written c) :
    EndsEarly (record slots a) (writeObject written) := by
  intro cut hcut hshort
  rcases List.prefix_cons_iff.mp hcut with rfl | ⟨rest, rfl, hrest⟩
  · rfl
  · have hbody := objectBody_cut h hrest fun heq ↦ hshort (congrArg (openBrace :: ·) heq)
    rw [record, skipBlank_cons (by decide)]
    dsimp only
    rw [if_pos rfl, Reader.map, hbody]

theorem represents_record (h : Spells (slotMember slots) ⟨a, []⟩ written c) :
    Represents (record slots a) (writeObject written) c.value :=
  (endsEarly_record h).represents (reads_record h.takes)

end Records

end Gossip.Json
