import Gossip.Table
import Mathlib.Data.List.Nodup
import Mathlib.Tactic.Tauto

/-!
What a table holds after a value has been put into it. The value is found under its key, in the
place of the one that was there before, and under every other key the table is as it was.
-/

set_option autoImplicit false
set_option relaxedAutoImplicit false

namespace Gossip

namespace Table

variable {κ α : Type} [DecidableEq κ]

theorem mem_putEntry {key : κ} {a : α} {l : List (κ × α)} {e : κ × α}
    (he : e ∈ putEntry key a l) : e = (key, a) ∨ e ∈ l := by
  induction l with
  | nil => exact Or.inl (List.mem_singleton.mp he)
  | cons first rest ih =>
    unfold putEntry at he
    split at he
    · exact (List.mem_cons.mp he).imp id (List.mem_cons_of_mem _)
    · rcases List.mem_cons.mp he with rfl | he
      · exact Or.inr List.mem_cons_self
      · exact (ih he).imp id (List.mem_cons_of_mem _)

theorem mem_keys_insert (t : Table κ α) (key : κ) (a : α) (k : κ) :
    k ∈ (t.insert key a).keys ↔ k = key ∨ k ∈ t.keys := by
  unfold keys insert
  rw [map_fst_putEntry]
  split
  next hmem =>
    constructor
    · exact Or.inr
    · rintro (rfl | hk)
      · exact hmem
      · exact hk
  next hmem => rw [List.mem_append, List.mem_singleton, or_comm]

/-- An inserted entry takes the place of the one that its key had. -/
theorem mem_entries_insert (t : Table κ α) {key k : κ} {a b : α} :
    (k, b) ∈ (t.insert key a).entries ↔
      k = key ∧ b = a ∨ k ≠ key ∧ (k, b) ∈ t.entries := by
  obtain ⟨l, hnodup⟩ := t
  show (k, b) ∈ putEntry key a l ↔ k = key ∧ b = a ∨ k ≠ key ∧ (k, b) ∈ l
  induction l with
  | nil => simp [putEntry]
  | cons e rest ih =>
    obtain ⟨hfirst, hrest⟩ := List.nodup_cons.mp hnodup
    unfold putEntry
    split
    next hkey =>
      -- the key of the entry that is replaced does not come again
      have hfree : (k, b) ∈ rest → k ≠ key := fun hmem hk ↦
        hfirst (List.mem_map.mpr ⟨(k, b), hmem, hk.trans hkey.symm⟩)
      have hhead : (k, b) = e → k = key := fun h ↦ (congrArg Prod.fst h).trans hkey
      rw [List.mem_cons, List.mem_cons, Prod.mk.injEq]
      tauto
    next hkey =>
      have hhead : (k, b) = e → k ≠ key := fun h hk ↦ hkey ((congrArg Prod.fst h).symm.trans hk)
      rw [List.mem_cons, List.mem_cons, ih hrest]
      tauto

/-- A key that is there keeps its place, and another one comes in. -/
theorem size_insert (t : Table κ α) (key : κ) (a : α) :
    (t.insert key a).size = if key ∈ t.keys then t.size else t.size + 1 := by
  have hkeys := congrArg List.length (map_fst_putEntry key a t.entries)
  rw [List.length_map] at hkeys
  unfold size insert keys
  rw [hkeys]
  split <;> simp

theorem contains_eq_true {t : Table κ α} {key : κ} : t.contains key = true ↔ key ∈ t.keys := by
  simp [contains, keys]

/-- A look-up finds the entry of a key. -/
theorem get?_eq_some_iff {t : Table κ α} {key : κ} {a : α} :
    t.get? key = some a ↔ (key, a) ∈ t.entries := by
  have hfound {b : α} (h : t.get? key = some b) : (key, b) ∈ t.entries := by
    obtain ⟨e, hfind, rfl⟩ := Option.map_eq_some_iff.mp h
    have hkey : e.1 = key := by simpa using List.find?_some hfind
    exact hkey ▸ List.mem_of_find?_eq_some hfind
  refine ⟨hfound, fun hmem ↦ ?_⟩
  cases hget : t.get? key with
  | none =>
    have hnone := List.find?_eq_none.mp (Option.map_eq_none_iff.mp hget) _ hmem
    exact absurd (decide_eq_true rfl) hnone
  | some b =>
    have hsame := List.inj_on_of_nodup_map t.nodup (hfound hget) hmem rfl
    rw [(Prod.mk.inj hsame).2]

theorem mem_of_get? {t : Table κ α} {key : κ} {a : α} (h : t.get? key = some a) :
    (key, a) ∈ t.entries :=
  get?_eq_some_iff.mp h

theorem get?_insert (t : Table κ α) (key : κ) (a : α) : (t.insert key a).get? key = some a :=
  get?_eq_some_iff.mpr (t.mem_entries_insert.mpr (Or.inl ⟨rfl, rfl⟩))

theorem get?_insert_of_ne (t : Table κ α) {key k : κ} (a : α) (h : k ≠ key) :
    (t.insert key a).get? k = t.get? k := by
  refine Option.ext fun b ↦ ?_
  rw [get?_eq_some_iff, get?_eq_some_iff, mem_entries_insert]
  exact ⟨fun hmem ↦ (hmem.resolve_left fun hsame ↦ h hsame.1).2, fun hmem ↦ Or.inr ⟨h, hmem⟩⟩

theorem get?_erase (t : Table κ α) (key k : κ) :
    (t.erase key).get? k = if k = key then none else t.get? k := by
  refine Option.ext fun a ↦ ?_
  have herased : (k, a) ∈ (t.erase key).entries ↔ (k, a) ∈ t.entries ∧ k ≠ key := by
    simp [erase, filter]
  rw [get?_eq_some_iff, herased]
  split
  next hkey => simp [hkey]
  next hkey => rw [get?_eq_some_iff]; exact and_iff_left hkey

theorem mem_keys_iff {t : Table κ α} {key : κ} : key ∈ t.keys ↔ ∃ a, t.get? key = some a := by
  simp only [get?_eq_some_iff]
  unfold keys
  simp

end Table

end Gossip
