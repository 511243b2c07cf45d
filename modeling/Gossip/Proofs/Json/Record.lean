import Gossip.Json.Record
import Gossip.Proofs.Json.Number
import Gossip.Proofs.Json.Text
import Mathlib.Tactic.ByContra

/-!
What it means that a reader reads written bytes, and how the parts of a record add up. A value is
read from its bytes in front of anything that may stand behind a value. Members that are taken
one after the other are together an object, and a record is an object whose members find their
slots free.
-/

set_option autoImplicit false
set_option relaxedAutoImplicit false

namespace Gossip.Json

/-- The reader takes exactly the bytes and gives the value, in front of all that may follow. -/
def Reads {α : Type} (reader : Reader α) (bytes : Bytes) (a : α) : Prop :=
  ∀ rest, Stops rest → reader (bytes ++ rest) = .ok (a, rest)

theorem Reads.ok_nil {α : Type} {reader : Reader α} {bytes : Bytes} {a : α}
    (h : Reads reader bytes a) : reader bytes = .ok (a, []) := by
  have hread := h [] stops_nil
  rwa [List.append_nil] at hread

theorem Reads.map {α β : Type} {reader : Reader α} {bytes : Bytes} {a : α} (f : α → β)
    (h : Reads reader bytes a) : Reads (reader.map f) bytes (f a) := by
  intro rest hrest
  unfold Reader.map
  rw [h rest hrest]

theorem skipBlank_cons {b : UInt8} (h : isBlank b = false) (rest : Bytes) :
    skipBlank (b :: rest) = b :: rest := by
  simp [skipBlank, h]

theorem isBlank_of_isDigit {b : UInt8} (h : isDigit b = true) : isBlank b = false := by
  by_contra hblank
  rw [Bool.not_eq_false] at hblank
  simp only [isBlank, Bool.or_eq_true, beq_iff_eq] at hblank
  rcases hblank with ((rfl | rfl) | rfl) | rfl <;> exact absurd h (by decide)

/-! ### Values without parts -/

theorem text_writeText (value : String) (rest : Bytes) :
    text (writeText value ++ rest) = .ok (value, rest) := by
  unfold text
  rw [show writeText value ++ rest = quoteByte :: ((writeText value).tail ++ rest) from rfl,
    skipBlank_cons (by decide)]
  dsimp only
  rw [if_pos rfl, textBody_writeText]

theorem reads_text (value : String) : Reads text (writeText value) value :=
  fun rest _ ↦ text_writeText value rest

theorem word_append (letters rest : Bytes) : word letters (letters ++ rest) = .ok rest := by
  induction letters with
  | nil => rfl
  | cons b letters ih => rw [List.cons_append, word, if_pos rfl, ih]

theorem bool_writeBool (value : Bool) (rest : Bytes) :
    bool (writeBool value ++ rest) = .ok (value, rest) := by
  unfold bool
  cases value with
  | false =>
    rw [show writeBool false ++ rest = 0x66 :: (falseTail ++ rest) from rfl,
      skipBlank_cons (by decide)]
    dsimp only
    rw [if_neg (by decide), if_pos rfl, word_append]
    rfl
  | true =>
    rw [show writeBool true ++ rest = 0x74 :: (trueTail ++ rest) from rfl,
      skipBlank_cons (by decide)]
    dsimp only
    rw [if_pos rfl, word_append]
    rfl

theorem reads_bool (value : Bool) : Reads bool (writeBool value) value :=
  fun rest _ ↦ bool_writeBool value rest

/-- An integer reader takes the bytes of a number that fits it. -/
theorem reads_integer {α : Type} {fit : Bool → Nat → Option α} {bytes : Bytes} {b : UInt8}
    {tail : Bytes} {negative : Bool} {n : Nat} {a : α} (hbytes : bytes = b :: tail)
    (hb : b = minusByte ∨ isDigit b = true)
    (hnumber : Reads number bytes (.whole negative n)) (hfit : fit negative n = some a) :
    Reads (integer fit) bytes a := by
  intro rest hrest
  have hblank : isBlank b = false := by
    rcases hb with rfl | hb
    · decide
    · exact isBlank_of_isDigit hb
  have hread := hnumber rest hrest
  rw [hbytes, List.cons_append] at hread ⊢
  unfold integer
  rw [skipBlank_cons hblank]
  dsimp only
  rw [if_pos hb, hread]
  simp only [hfit]

theorem reads_unsigned {bound n : Nat} (hbound : bound ≤ UInt64.size) (hn : n < bound) :
    Reads (integer (fitUnsigned bound)) (writeNat n) n := by
  obtain ⟨b, tail, hwrite, hdigit, -⟩ := writeNat_head n
  have hnumber : Reads number (writeNat n) (.whole false n) :=
    fun rest hrest ↦ number_writeNat (Nat.lt_of_lt_of_le hn hbound) hrest
  exact reads_integer hwrite (Or.inr hdigit) hnumber (if_pos ⟨rfl, hn⟩)

theorem reads_signed64 (n : Int64) : Reads signed64 (writeInt n.toInt) n := by
  have hleast : -9223372036854775808 ≤ n.toInt := n.le_toInt
  have hmost : n.toInt < 9223372036854775808 := n.toInt_lt
  have hhalf : Int64.size / 2 = 9223372036854775808 := rfl
  have hsize : UInt64.size = 18446744073709551616 := rfl
  unfold writeInt
  split
  next hneg =>
    have habs : -((n.toInt.natAbs : Nat) : Int) = n.toInt := by omega
    have hnumber : Reads number (minusByte :: writeNat n.toInt.natAbs)
        (.whole true n.toInt.natAbs) :=
      fun rest hrest ↦ number_writeNat_neg (by omega) (by omega) hrest
    refine reads_integer rfl (Or.inl rfl) hnumber ?_
    rw [fitSigned64, if_pos rfl, habs, Int64.ofInt_toInt]
  next hneg =>
    have habs : ((n.toInt.natAbs : Nat) : Int) = n.toInt := by omega
    have hnumber : Reads number (writeNat n.toInt.natAbs) (.whole false n.toInt.natAbs) :=
      fun rest hrest ↦ number_writeNat (by omega) hrest
    obtain ⟨b, tail, hwrite, hdigit, -⟩ := writeNat_head n.toInt.natAbs
    refine reads_integer hwrite (Or.inr hdigit) hnumber ?_
    rw [fitSigned64, if_neg (by decide), if_pos (by omega), habs, Int64.ofInt_toInt]

/-- A value that starts neither with white space nor like `null` is read as itself. -/
theorem Reads.nullable {α : Type} {reader : Reader α} {b : UInt8} {tail : Bytes} {a : α}
    (default : α) (hblank : isBlank b = false) (hnull : b ≠ 0x6E)
    (h : Reads reader (b :: tail) a) : Reads (nullable default reader) (b :: tail) a := by
  intro rest hrest
  have hread := h rest hrest
  unfold Json.nullable
  rw [List.cons_append] at hread ⊢
  rw [skipBlank_cons hblank]
  dsimp only
  rw [if_neg hnull, hread]

/-! ### Objects -/

/-- Written members, each of which takes the value read so far to the next one. -/
inductive Takes {σ : Type} (member : MemberReader σ) : σ → List Bytes → σ → Prop
  | nil (a : σ) : Takes member a [] a
  | cons {a b c : σ} {name : String} {value : Bytes} {reader : Reader σ} {rest : List Bytes}
      (hmember : member a name = .ok reader) (hvalue : Reads reader value b)
      (hrest : Takes member b rest c) : Takes member a (writeMember name value :: rest) c

theorem flatten_intersperse_cons (first : Bytes) (rest : List Bytes) :
    ((first :: rest).intersperse [commaByte]).flatten =
      first ++ rest.flatMap (commaByte :: ·) := by
  induction rest generalizing first with
  | nil => simp
  | cons second rest ih =>
    rw [List.intersperse_cons_cons, List.flatten_cons, List.flatten_cons, ih, List.flatMap_cons]
    simp

theorem oneMember_writeMember {σ : Type} {member : MemberReader σ} {a b : σ} {name : String}
    {value : Bytes} {reader : Reader σ} (hmember : member a name = .ok reader)
    (hvalue : Reads reader value b) {rest : Bytes} (hrest : Stops rest) :
    oneMember member a (writeMember name value ++ rest) = .ok (b, rest) := by
  have hbytes : writeMember name value ++ rest =
      quoteByte :: ((writeText name).tail ++ (colonByte :: (value ++ rest))) := by
    simp [writeMember, writeText]
  rw [hbytes, oneMember, if_pos rfl, textBody_writeText]
  dsimp only
  rw [hmember]
  dsimp only
  rw [skipBlank_cons (by decide)]
  dsimp only
  rw [if_pos rfl, hvalue rest hrest]

theorem writeMember_eq_cons (name : String) (value : Bytes) :
    ∃ tail, writeMember name value = quoteByte :: tail :=
  ⟨_, rfl⟩

theorem stops_flatMap (tail : List Bytes) (rest : Bytes) :
    Stops (tail.flatMap (commaByte :: ·) ++ closeBrace :: rest) := by
  cases tail with
  | nil => exact stops_closeBrace rest
  | cons first tail =>
    rw [List.flatMap_cons, List.append_assoc, List.cons_append]
    exact stops_comma _

theorem length_le_length_flatMap (tail : List Bytes) :
    tail.length ≤ (tail.flatMap (commaByte :: ·)).length := by
  induction tail with
  | nil => exact Nat.le_refl 0
  | cons first tail ih =>
    rw [List.flatMap_cons, List.length_append, List.length_cons, List.length_cons]
    omega

/-- The members behind the first one, each behind its comma. -/
theorem members_flatMap {σ : Type} {member : MemberReader σ} {a c : σ} {tail : List Bytes}
    (h : Takes member a tail c) {fuel : Nat} (hfuel : tail.length < fuel) (rest : Bytes) :
    members member fuel false a (tail.flatMap (commaByte :: ·) ++ closeBrace :: rest) =
      .ok (c, rest) := by
  induction h generalizing fuel with
  | nil a =>
    obtain ⟨fuel, rfl⟩ : ∃ k, fuel = k + 1 := ⟨fuel - 1, by omega⟩
    rw [List.flatMap_nil, List.nil_append, members, skipBlank_cons (by decide)]
    exact if_pos rfl
  | @cons a b c name value reader tail hmember hvalue hrest ih =>
    obtain ⟨fuel, rfl⟩ : ∃ k, fuel = k + 1 := ⟨fuel - 1, by omega⟩
    obtain ⟨bytes, hbytes⟩ := writeMember_eq_cons name value
    have hone := oneMember_writeMember hmember hvalue (stops_flatMap tail rest)
    rw [List.flatMap_cons, List.append_assoc, List.cons_append, members,
      skipBlank_cons (by decide)]
    dsimp only
    rw [if_neg (by decide)]
    rw [hbytes, List.cons_append] at hone ⊢
    rw [nextKey, if_neg (by decide), if_pos rfl, skipBlank_cons (by decide)]
    dsimp only
    rw [hone]
    exact ih (by simpa using hfuel)

theorem objectBody_writeObject {σ : Type} {member : MemberReader σ} {a c : σ}
    {written : List Bytes} (h : Takes member a written c) (rest : Bytes) :
    objectBody member a ((writeObject written).tail ++ rest) = .ok (c, rest) := by
  cases h with
  | nil a =>
    rw [show (writeObject []).tail ++ rest = closeBrace :: rest from rfl, objectBody, members,
      skipBlank_cons (by decide)]
    exact if_pos rfl
  | @cons a b c name value reader tail hmember hvalue hrest =>
    obtain ⟨bytes, hbytes⟩ := writeMember_eq_cons name value
    have hone := oneMember_writeMember hmember hvalue (stops_flatMap tail rest)
    have hwritten : (writeObject (writeMember name value :: tail)).tail ++ rest =
        writeMember name value ++ (tail.flatMap (commaByte :: ·) ++ closeBrace :: rest) := by
      rw [writeObject, flatten_intersperse_cons]
      simp
    have hlength := length_le_length_flatMap tail
    rw [objectBody, hwritten]
    rw [hbytes, List.cons_append] at hone ⊢
    rw [members, skipBlank_cons (by decide)]
    dsimp only
    rw [if_neg (by decide), nextKey, if_pos rfl]
    dsimp only
    rw [hone]
    refine members_flatMap hrest ?_ rest
    simp only [List.length_cons, List.length_append]
    omega

theorem reads_object {σ : Type} {member : MemberReader σ} {a c : σ} {written : List Bytes}
    (h : Takes member a written c) : Reads (object member a) (writeObject written) c := by
  intro rest _
  rw [object, show writeObject written ++ rest =
    openBrace :: ((writeObject written).tail ++ rest) from rfl, skipBlank_cons (by decide)]
  exact (if_pos rfl).trans (objectBody_writeObject h rest)

/-- A record ends with its closing brace, whatever stands behind it. -/
theorem record_writeObject {σ : Type} {slots : List (Slot σ)} {a : σ} {c : Partial σ}
    {written : List Bytes} (h : Takes (slotMember slots) ⟨a, []⟩ written c) (rest : Bytes) :
    record slots a (writeObject written ++ rest) = .ok (c.value, rest) := by
  rw [record, show writeObject written ++ rest =
    openBrace :: ((writeObject written).tail ++ rest) from rfl, skipBlank_cons (by decide)]
  dsimp only
  rw [if_pos rfl, Reader.map, objectBody_writeObject h rest]

theorem reads_record {σ : Type} {slots : List (Slot σ)} {a : σ} {c : Partial σ}
    {written : List Bytes} (h : Takes (slotMember slots) ⟨a, []⟩ written c) :
    Reads (record slots a) (writeObject written) c.value :=
  fun rest _ ↦ record_writeObject h rest

/-- A member whose slot is free. -/
theorem slotMember_eq_ok {σ : Type} {slots : List (Slot σ)} {acc : Partial σ} {name : String}
    {slot : Slot σ} (hslot : slots.find? (·.name = name) = some slot) (hfree : name ∉ acc.given) :
    slotMember slots acc name =
      .ok ((slot.read acc.value).map (⟨·, name :: acc.given⟩)) := by
  unfold slotMember
  rw [hslot]
  exact if_neg hfree

end Gossip.Json
