import Gossip.Infected
import Gossip.Proofs.Member

/-!
What an infected set holds after an entry has been put in: the new entry, and of the old ones
those of other keys. So marking some members sets their entries and leaves every other entry alone,
one whose flag is cleared among them; and since keys tell peers apart, the members that are found
marked are the ones whose peer has been marked. Putting the entries of a set one after the other
builds the same set again, since each key is greater than the ones before it.
-/

set_option autoImplicit false
set_option relaxedAutoImplicit false

namespace Gossip

theorem mem_insertSorted {key k : String} {flag b : Bool} {l : List (String × Bool)}
    (h : l.Pairwise (·.1 < ·.1)) :
    (k, b) ∈ insertSorted key flag l ↔ (k = key ∧ b = flag) ∨ (k ≠ key ∧ (k, b) ∈ l) := by
  induction l with
  | nil => simp [insertSorted]
  | cons e rest ih =>
    obtain ⟨hhead, hrest⟩ := List.pairwise_cons.mp h
    have hne {x : String} (hx : x < k) : k ≠ x := fun heq ↦ String.lt_irrefl k (heq ▸ hx)
    unfold insertSorted
    split
    next hlt =>
      -- the key comes before all entries
      have hother : (k, b) ∈ e :: rest → k ≠ key := by
        intro hmem
        rcases List.mem_cons.mp hmem with rfl | hmem
        · exact hne hlt
        · exact hne (String.lt_trans hlt (hhead _ hmem))
      rw [List.mem_cons, Prod.mk.injEq]
      exact or_congr_right ⟨fun hmem ↦ ⟨hother hmem, hmem⟩, And.right⟩
    next hge =>
      split
      next hgt =>
        have hother : (k, b) = e → k ≠ key := by
          rintro rfl heq
          exact String.lt_irrefl key (heq ▸ hgt)
        rw [List.mem_cons, ih hrest, List.mem_cons]
        constructor
        · rintro (heq | hnew | ⟨hk, hmem⟩)
          · exact Or.inr ⟨hother heq, Or.inl heq⟩
          · exact Or.inl hnew
          · exact Or.inr ⟨hk, Or.inr hmem⟩
        · rintro (hnew | ⟨hk, heq | hmem⟩)
          · exact Or.inr (Or.inl hnew)
          · exact Or.inl heq
          · exact Or.inr (Or.inr ⟨hk, hmem⟩)
      next hle =>
        have hsame : e.1 = key :=
          String.le_antisymm (String.not_lt.mp hge) (String.not_lt.mp hle)
        have hother : (k, b) ∈ rest → k ≠ key := fun hmem ↦ hne (hsame ▸ hhead _ hmem)
        rw [List.mem_cons, Prod.mk.injEq, List.mem_cons]
        constructor
        · rintro (hnew | hmem)
          · exact Or.inl hnew
          · exact Or.inr ⟨hother hmem, Or.inr hmem⟩
        · rintro (hnew | ⟨hk, heq | hmem⟩)
          · exact Or.inl hnew
          · exact absurd ((congrArg Prod.fst heq).trans hsame) hk
          · exact Or.inr hmem

theorem insertSorted_of_lt {key : String} {flag : Bool} {l : List (String × Bool)}
    (h : ∀ e ∈ l, e.1 < key) : insertSorted key flag l = l ++ [(key, flag)] := by
  induction l with
  | nil => rfl
  | cons e rest ih =>
    have hlt := h e List.mem_cons_self
    have hge : ¬key < e.1 := fun hgt ↦ String.lt_irrefl key (String.lt_trans hgt hlt)
    rw [insertSorted, if_neg hge, if_pos hlt, ih fun x hx ↦ h x (List.mem_cons_of_mem e hx),
      List.cons_append]

namespace Infected

@[simp] theorem containsKey_eq_true (set : Infected) (key : String) :
    set.containsKey key = true ↔ (key, true) ∈ set.entries := by
  unfold containsKey
  rw [List.any_eq_true]
  constructor
  · rintro ⟨⟨k, b⟩, hmem, h⟩
    obtain ⟨hk, hb⟩ := Bool.and_eq_true_iff.mp h
    rw [decide_eq_true_eq] at hk
    rw [← hk, ← hb]
    exact hmem
  · intro hmem
    exact ⟨(key, true), hmem, by simp⟩

theorem mem_entries_put {set : Infected} {key k : String} {flag b : Bool} :
    (k, b) ∈ (set.put key flag).entries ↔
      (k = key ∧ b = flag) ∨ (k ≠ key ∧ (k, b) ∈ set.entries) :=
  mem_insertSorted set.sorted

theorem containsKey_insert (set : Infected) (m : Member) (key : String) :
    (set.insert m).containsKey key = true ↔ key = m.key ∨ set.containsKey key = true := by
  rw [containsKey_eq_true, containsKey_eq_true, insert, mem_entries_put]
  constructor
  · rintro (⟨hkey, -⟩ | ⟨-, hmem⟩)
    · exact Or.inl hkey
    · exact Or.inr hmem
  · rintro (hkey | hmem)
    · exact Or.inl ⟨hkey, rfl⟩
    · by_cases hkey : key = m.key
      · exact Or.inl ⟨hkey, rfl⟩
      · exact Or.inr ⟨hkey, hmem⟩

/-- A set that marks some keys beyond another one: each of them has its flag set, and every other
entry is as it was. -/
def MarksBeyond (after before : Infected) (keys : List String) : Prop :=
  ∀ key flag, (key, flag) ∈ after.entries ↔
    key ∈ keys ∧ flag = true ∨ key ∉ keys ∧ (key, flag) ∈ before.entries

theorem MarksBeyond.refl (set : Infected) : set.MarksBeyond set [] := by
  intro key flag
  simp

/-- What is marked beyond a set in which a member has just been marked. -/
theorem MarksBeyond.of_insert {after before : Infected} {m : Member} {keys : List String}
    (h : after.MarksBeyond (before.insert m) keys) : after.MarksBeyond before (m.key :: keys) := by
  intro key flag
  rw [h key flag, insert, mem_entries_put, List.mem_cons]
  constructor
  · rintro (⟨hkey, hflag⟩ | ⟨hkey, ⟨hm, hflag⟩ | ⟨hm, hmem⟩⟩)
    · exact Or.inl ⟨Or.inr hkey, hflag⟩
    · exact Or.inl ⟨Or.inl hm, hflag⟩
    · exact Or.inr ⟨not_or.mpr ⟨hm, hkey⟩, hmem⟩
  · rintro (⟨hm | hkey, hflag⟩ | ⟨hkeys, hmem⟩)
    · by_cases hkey : key ∈ keys
      · exact Or.inl ⟨hkey, hflag⟩
      · exact Or.inr ⟨hkey, Or.inl ⟨hm, hflag⟩⟩
    · exact Or.inl ⟨hkey, hflag⟩
    · obtain ⟨hm, hkey⟩ := not_or.mp hkeys
      exact Or.inr ⟨hkey, Or.inr ⟨hm, hmem⟩⟩

theorem MarksBeyond.containsKey_iff {after before : Infected} {keys : List String}
    (h : after.MarksBeyond before keys) (key : String) :
    after.containsKey key = true ↔ before.containsKey key = true ∨ key ∈ keys := by
  rw [containsKey_eq_true, containsKey_eq_true, h key true]
  constructor
  · rintro (⟨hkey, -⟩ | ⟨-, hmem⟩)
    · exact Or.inr hkey
    · exact Or.inl hmem
  · rintro (hmem | hkey)
    · by_cases hkey : key ∈ keys
      · exact Or.inl ⟨hkey, rfl⟩
      · exact Or.inr ⟨hkey, hmem⟩
    · exact Or.inl ⟨hkey, rfl⟩

theorem containsKey_empty (key : String) : empty.containsKey key = false := rfl

theorem containsKey_singleton (m : Member) (key : String) :
    (singleton m).containsKey key = true ↔ key = m.key := by
  rw [singleton, containsKey_insert, containsKey_empty, or_iff_left Bool.false_ne_true]

theorem marksBeyond_foldl_insert (set : Infected) (inserted : List Member) :
    (inserted.foldl insert set).MarksBeyond set (inserted.map Member.key) := by
  induction inserted generalizing set with
  | nil => exact MarksBeyond.refl set
  | cons m inserted ih => exact (ih (set.insert m)).of_insert

theorem contains_foldl_insert (set : Infected) (inserted : List Member) (m : Member) :
    (inserted.foldl insert set).contains m = true ↔
      set.contains m = true ∨ ∃ other ∈ inserted, other.SamePeer m := by
  rw [contains, (marksBeyond_foldl_insert set inserted).containsKey_iff, List.mem_map, contains]
  simp only [Member.key_eq_iff]

/-- Keys identify peers: the key of an address and a port is that of no other pair, whatever the
address looks like. So a set finds a member marked exactly if one of the same peer has been
inserted. -/
theorem keys_identify_peers :
    (∀ (addr addr' : String) (port port' : UInt16),
      peerKey addr port = peerKey addr' port' ↔ addr = addr' ∧ port = port') ∧
    ∀ (inserted : List Member) (m : Member),
      (inserted.foldl insert empty).contains m = true ↔ ∃ other ∈ inserted, other.SamePeer m := by
  refine ⟨fun addr addr' port port' ↦ peerKey_eq_iff, fun inserted m ↦ ?_⟩
  rw [contains_foldl_insert, contains, containsKey_empty, or_iff_right Bool.false_ne_true]

theorem foldl_put_entries {read rest : List (String × Bool)}
    (h : (read ++ rest).Pairwise (·.1 < ·.1)) {set : Infected} (hset : set.entries = read) :
    (rest.foldl (fun set e ↦ set.put e.1 e.2) set).entries = read ++ rest := by
  induction rest generalizing read set with
  | nil => rw [List.foldl_nil, hset, List.append_nil]
  | cons e rest ih =>
    have hlt : ∀ x ∈ read, x.1 < e.1 := fun x hx ↦
      (List.pairwise_append.mp h).2.2 x hx e List.mem_cons_self
    have hput : (set.put e.1 e.2).entries = read ++ [e] := by
      rw [← hset] at hlt ⊢
      exact insertSorted_of_lt hlt
    rw [List.foldl_cons, ih (by simpa using h) hput]
    simp

/-- A set is built again from its entries. -/
theorem ofList_entries (set : Infected) : ofList set.entries = set := by
  have hsorted : (([] : List (String × Bool)) ++ set.entries).Pairwise (·.1 < ·.1) := set.sorted
  have h : (ofList set.entries).entries = set.entries := foldl_put_entries hsorted rfl
  cases hbuilt : ofList set.entries with
  | mk entries sorted =>
    rw [hbuilt] at h
    subst h
    rfl

end Infected

end Gossip
