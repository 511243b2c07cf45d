import Gossip.Json.Record
import Gossip.Member

/-!
The peers that one wave has already been sent to, as the wave itself carries them. An entry
names a peer by its key; it counts only while its flag is set, but an entry with the flag
cleared is kept and written like any other. Entries stand in the order of their keys, so that
equal sets are equal values.
-/

set_option autoImplicit false
set_option relaxedAutoImplicit false

namespace Gossip

/-- Puts an entry into a list that is sorted by key, in the place of the entry of that key. -/
def insertSorted (key : String) (flag : Bool) : List (String × Bool) → List (String × Bool)
  | [] => [(key, flag)]
  | e :: rest =>
    if key < e.1 then (key, flag) :: e :: rest
    else if e.1 < key then e :: insertSorted key flag rest
    else (key, flag) :: rest

theorem mem_insertSorted_key {key k : String} {flag b : Bool} {l : List (String × Bool)}
    (h : (k, b) ∈ insertSorted key flag l) : k = key ∨ (k, b) ∈ l := by
  induction l with
  | nil => simp_all [insertSorted]
  | cons e rest ih =>
    unfold insertSorted at h
    split at h
    · rcases List.mem_cons.mp h with h | h
      · exact Or.inl (Prod.ext_iff.mp h).1
      · exact Or.inr h
    · split at h
      · rcases List.mem_cons.mp h with h | h
        · exact Or.inr (h ▸ List.mem_cons_self)
        · exact (ih h).imp id (List.mem_cons_of_mem _)
      · rcases List.mem_cons.mp h with h | h
        · exact Or.inl (Prod.ext_iff.mp h).1
        · exact Or.inr (List.mem_cons_of_mem _ h)

theorem pairwise_insertSorted (key : String) (flag : Bool) {l : List (String × Bool)}
    (h : l.Pairwise (·.1 < ·.1)) : (insertSorted key flag l).Pairwise (·.1 < ·.1) := by
  induction l with
  | nil => simp [insertSorted]
  | cons e rest ih =>
    have hrest := List.pairwise_cons.mp h
    unfold insertSorted
    split
    next hlt =>
      refine List.pairwise_cons.mpr ⟨fun x hx ↦ ?_, h⟩
      rcases List.mem_cons.mp hx with rfl | hx
      · exact hlt
      · exact String.lt_trans hlt (hrest.1 x hx)
    next hge =>
      split
      next hlt =>
        refine List.pairwise_cons.mpr ⟨fun x hx ↦ ?_, ih hrest.2⟩
        rcases mem_insertSorted_key (k := x.1) (b := x.2) hx with hk | hk
        · exact hk ▸ hlt
        · exact hrest.1 x hk
      next hle =>
        have heq : e.1 = key :=
          String.le_antisymm (String.not_lt.mp hge) (String.not_lt.mp hle)
        exact List.pairwise_cons.mpr ⟨fun x hx ↦ heq ▸ hrest.1 x hx, hrest.2⟩

/-- Peer keys with their flags, in the order of the keys. -/
structure Infected where
  entries : List (String × Bool)
  sorted : entries.Pairwise (·.1 < ·.1)
  deriving DecidableEq

namespace Infected

def empty : Infected := ⟨[], .nil⟩

instance : Inhabited Infected := ⟨empty⟩

/-- Sets the flag of a key. -/
def put (set : Infected) (key : String) (flag : Bool) : Infected :=
  ⟨insertSorted key flag set.entries, pairwise_insertSorted key flag set.sorted⟩

/-- Marks a member. -/
def insert (set : Infected) (m : Member) : Infected := set.put m.key true

def singleton (m : Member) : Infected := empty.insert m

/-- A later entry of the same key takes the place of an earlier one. -/
def ofList (entries : List (String × Bool)) : Infected :=
  entries.foldl (fun set e ↦ set.put e.1 e.2) empty

/-- Whether a key is marked. -/
def containsKey (set : Infected) (key : String) : Bool :=
  set.entries.any fun e ↦ e.1 = key && e.2

/-- Whether a member is marked. -/
def contains (set : Infected) (m : Member) : Bool := set.containsKey m.key

/-- The number of peers that count. -/
def size (set : Infected) : Nat := (set.entries.filter (·.2)).length

def isEmpty (set : Infected) : Bool := set.size = 0

def write (set : Infected) : Bytes :=
  Json.writeObject (set.entries.map fun e ↦ Json.writeMember e.1 (Json.writeBool e.2))

def reader : Json.Reader Infected :=
  Json.object (fun set key ↦ .ok (Json.bool.map fun flag ↦ set.put key flag)) empty

end Infected

end Gossip
