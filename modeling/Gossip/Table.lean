/-!
Finite tables. The entries have distinct keys and stand in the order in which their keys first
came in; putting a value under a key that is there changes it in its place.
-/

set_option autoImplicit false
set_option relaxedAutoImplicit false

namespace Gossip

/-- Entries with distinct keys. -/
structure Table (κ α : Type) where
  entries : List (κ × α)
  nodup : (entries.map Prod.fst).Nodup
  deriving DecidableEq

namespace Table

variable {κ α : Type} [DecidableEq κ]

/-- Changes the entry of a key in its place, or adds one at the end. -/
def putEntry (key : κ) (a : α) : List (κ × α) → List (κ × α)
  | [] => [(key, a)]
  | e :: rest => if e.1 = key then (key, a) :: rest else e :: putEntry key a rest

theorem map_fst_putEntry (key : κ) (a : α) (l : List (κ × α)) :
    (putEntry key a l).map Prod.fst =
      if key ∈ l.map Prod.fst then l.map Prod.fst else l.map Prod.fst ++ [key] := by
  induction l with
  | nil => simp [putEntry]
  | cons e rest ih =>
    by_cases h : e.1 = key
    · simp [putEntry, h]
    · have h' : ¬key = e.1 := fun hk ↦ h hk.symm
      by_cases hm : key ∈ rest.map Prod.fst
      · simp only [putEntry, h, ↓reduceIte, List.map_cons, ih, hm, List.mem_cons, or_true]
      · simp only [putEntry, h, ↓reduceIte, List.map_cons, ih, hm, List.mem_cons, h', or_self,
          List.cons_append]

theorem nodup_putEntry (key : κ) (a : α) {l : List (κ × α)} (h : (l.map Prod.fst).Nodup) :
    ((putEntry key a l).map Prod.fst).Nodup := by
  rw [map_fst_putEntry]
  split
  · exact h
  next hm => exact List.nodup_append.mpr ⟨h, by simp, fun x hx y hy hxy ↦ by simp_all⟩

def empty : Table κ α := ⟨[], .nil⟩

instance : Inhabited (Table κ α) := ⟨empty⟩

def insert (t : Table κ α) (key : κ) (a : α) : Table κ α :=
  ⟨putEntry key a t.entries, nodup_putEntry key a t.nodup⟩

def get? (t : Table κ α) (key : κ) : Option α :=
  (t.entries.find? fun e ↦ e.1 = key).map Prod.snd

def contains (t : Table κ α) (key : κ) : Bool := t.entries.any fun e ↦ e.1 = key

omit [DecidableEq κ] in
theorem nodup_filter (t : Table κ α) (keep : κ × α → Bool) :
    ((t.entries.filter keep).map Prod.fst).Nodup :=
  t.nodup.sublist (List.filter_sublist.map _)

omit [DecidableEq κ] in
/-- The entries that pass a test. -/
def filter (t : Table κ α) (keep : κ × α → Bool) : Table κ α :=
  ⟨t.entries.filter keep, t.nodup_filter keep⟩

def erase (t : Table κ α) (key : κ) : Table κ α := t.filter fun e ↦ e.1 ≠ key

omit [DecidableEq κ] in
def size (t : Table κ α) : Nat := t.entries.length

omit [DecidableEq κ] in
def keys (t : Table κ α) : List κ := t.entries.map Prod.fst

end Table

end Gossip
