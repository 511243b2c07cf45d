import Gossip.Json.Scalar
import Gossip.Json.Skip

/-!
Values with parts. An object is read member by member, and its keys decide how each value is
read. A record has a fixed list of named slots and is either an object, where unknown keys are
passed over, missing ones keep their default and a repeated one is a mismatch as soon as the
key is read; or a list of the slots in order, where a missing tail keeps its defaults.
-/

set_option autoImplicit false
set_option relaxedAutoImplicit false

namespace Gossip.Json

/-- How the value behind a key changes what has been read so far. -/
abbrev MemberReader (σ : Type) := σ → String → Except Fault (Reader σ)

/-- The bytes from the next key on, behind the comma that separates it from the last one. -/
def nextKey (first : Bool) (b : UInt8) (rest : Bytes) : Except Fault Bytes :=
  if first then .ok (b :: rest)
  else if b = commaByte then
    match skipBlank rest with
    | [] => .error .early
    | c :: rest => .ok (c :: rest)
  else .error .malformed

/-- A key with the colon behind it, and then its value. -/
def oneMember {σ : Type} (member : MemberReader σ) (acc : σ) : Reader σ
  | [] => .error .early
  | b :: rest =>
    if b = quoteByte then
      match textBody rest with
      | .error fault => .error fault
      | .ok (key, rest) =>
        match member acc key with
        | .error fault => .error fault
        | .ok value =>
          match skipBlank rest with
          | [] => .error .early
          | c :: rest => if c = colonByte then value rest else .error .malformed
    else .error .malformed

/-- The members of an object up to its closing brace. Every member is longer than a byte, so
the length of the text is fuel enough. -/
def members {σ : Type} (member : MemberReader σ) : Nat → Bool → σ → Reader σ
  | 0, _, _, _ => .error .early
  | fuel + 1, first, acc, s =>
    match skipBlank s with
    | [] => .error .early
    | b :: rest =>
      if b = closeBrace then .ok (acc, rest)
      else
        match nextKey first b rest with
        | .error fault => .error fault
        | .ok rest =>
          match oneMember member acc rest with
          | .error fault => .error fault
          | .ok (acc, rest) => members member fuel false acc rest

/-- An object whose opening brace has been read. -/
def objectBody {σ : Type} (member : MemberReader σ) (start : σ) : Reader σ := fun s ↦
  members member (s.length + 1) true start s

/-- An object, read member by member from a starting value. -/
def object {σ : Type} (member : MemberReader σ) (start : σ) : Reader σ := fun s ↦
  match skipBlank s with
  | [] => .error .early
  | b :: rest =>
    if b = openBrace then objectBody member start rest else .error (misplaced (b :: rest))

/-- A named part of a record, and how its value is read into the record. -/
structure Slot (σ : Type) where
  name : String
  read : σ → Reader σ

/-- The record read so far and the names it has been given. -/
structure Partial (σ : Type) where
  value : σ
  given : List String

/-- A member of a record: a slot that has no value yet, or a value nobody asked for. -/
def slotMember {σ : Type} (slots : List (Slot σ)) : MemberReader (Partial σ) := fun acc key ↦
  match slots.find? (·.name = key) with
  | none => .ok fun s ↦ (skipValue s).map (acc, ·)
  | some slot =>
    if key ∈ acc.given then .error .mismatched
    else .ok ((slot.read acc.value).map (⟨·, key :: acc.given⟩))

/-- The items of a list that gives the slots in order, up to its closing bracket. -/
def items {σ : Type} (acc : σ) (first : Bool) : List (Slot σ) → Reader σ
  | [], s =>
    match skipBlank s with
    | [] => .error .early
    | b :: rest => if b = closeBracket then .ok (acc, rest) else .error .malformed
  | slot :: slots, s =>
    match skipBlank s with
    | [] => .error .early
    | b :: rest =>
      if b = closeBracket then .ok (acc, rest)
      else if first then
        match slot.read acc (b :: rest) with
        | .error fault => .error fault
        | .ok (acc, rest) => items acc false slots rest
      else if b = commaByte then
        match skipBlank rest with
        | [] => .error .early
        | c :: rest =>
          if c = closeBracket then .error .malformed
          else
            match slot.read acc (c :: rest) with
            | .error fault => .error fault
            | .ok (acc, rest) => items acc false slots rest
      else .error .malformed

/-- A record, as an object or as a list. -/
def record {σ : Type} (slots : List (Slot σ)) (start : σ) : Reader σ := fun s ↦
  match skipBlank s with
  | [] => .error .early
  | b :: rest =>
    if b = openBrace then (objectBody (slotMember slots) ⟨start, []⟩).map Partial.value rest
    else if b = openBracket then items start true slots rest
    else .error (misplaced (b :: rest))

/-- A member of a record as it is written. -/
def writeMember (name : String) (value : Bytes) : Bytes :=
  writeText name ++ colonByte :: value

/-- Members between braces, separated by commas. -/
def writeObject (members : List Bytes) : Bytes :=
  openBrace :: (members.intersperse [commaByte]).flatten ++ [closeBrace]

end Gossip.Json
