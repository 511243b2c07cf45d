import Gossip.Proofs.Infected
import Gossip.Proofs.Member
import Gossip.Selection

/-!
What the choice of targets guarantees. The targets stand in the list in their order, no more than
asked for, none of them passed over and no key twice. Their keys are exactly what is marked in
addition, and while fewer are chosen than asked for, nobody on the list is left out.
-/

set_option autoImplicit false
set_option relaxedAutoImplicit false

namespace Gossip

theorem passesOver_eq_false {self m : Member} {infected : Infected} :
    passesOver self infected m = false ↔
      ¬m.SamePeer self ∧ infected.containsKey m.key = false := by
  rw [passesOver, Bool.or_eq_false_iff, decide_eq_false_iff_not, Infected.contains]

/-- A member that is passed over once it is marked. -/
theorem passesOver_insert {self m : Member} {infected : Infected} (target : Member)
    (h : passesOver self (infected.insert target) m = false) :
    passesOver self infected m = false ∧ m.key ≠ target.key := by
  rw [passesOver_eq_false, Bool.eq_false_iff, ne_eq, Infected.containsKey_insert, not_or] at h
  obtain ⟨hself, hkey, hmarked⟩ := h
  exact ⟨passesOver_eq_false.mpr ⟨hself, Bool.eq_false_iff.mpr hmarked⟩, hkey⟩

section Choice

variable {self : Member}

@[simp] theorem selectTargets_nil (amount : Nat) (infected : Infected) :
    selectTargets self [] amount infected = ([], infected) := by
  rw [selectTargets]

@[simp] theorem selectTargets_zero (members : List Member) (infected : Infected) :
    selectTargets self members 0 infected = ([], infected) := by
  cases members <;> rw [selectTargets]

theorem selectTargets_cons_of_passed {m : Member} {infected : Infected}
    (h : passesOver self infected m = true) (rest : List Member) (amount : Nat) :
    selectTargets self (m :: rest) amount infected = selectTargets self rest amount infected := by
  cases amount with
  | zero => rw [selectTargets_zero, selectTargets_zero]
  | succ amount => rw [selectTargets, if_pos h]

theorem selectTargets_cons_of_chosen {m : Member} {infected : Infected}
    (h : passesOver self infected m = false) (rest : List Member) (amount : Nat) :
    selectTargets self (m :: rest) (amount + 1) infected =
      (m :: (selectTargets self rest amount (infected.insert m)).1,
        (selectTargets self rest amount (infected.insert m)).2) := by
  rw [selectTargets, if_neg (Bool.eq_false_iff.mp h)]

/-- The choice goes member by member: nobody is left, nobody more is asked for, the next member is
passed over, or it is chosen. -/
theorem selectTargets_induction (self : Member) {motive : List Member → Nat → Infected → Prop}
    (nil : ∀ amount infected, motive [] amount infected)
    (zero : ∀ members infected, motive members 0 infected)
    (passed : ∀ m rest amount infected, passesOver self infected m = true →
      motive rest amount infected → motive (m :: rest) amount infected)
    (chosen : ∀ m rest amount infected, passesOver self infected m = false →
      motive rest amount (infected.insert m) → motive (m :: rest) (amount + 1) infected)
    (members : List Member) (amount : Nat) (infected : Infected) :
    motive members amount infected := by
  induction members generalizing amount infected with
  | nil => exact nil amount infected
  | cons m rest ih =>
    cases amount with
    | zero => exact zero (m :: rest) infected
    | succ amount =>
      cases h : passesOver self infected m with
      | true => exact passed m rest _ infected h (ih _ infected)
      | false => exact chosen m rest amount infected h (ih amount _)

theorem selectTargets_sublist (members : List Member) (amount : Nat) (infected : Infected) :
    (selectTargets self members amount infected).1.Sublist members := by
  induction members, amount, infected using selectTargets_induction self with
  | nil amount infected => simp
  | zero members infected => simp
  | passed m rest amount infected h ih =>
    rw [selectTargets_cons_of_passed h]
    exact ih.cons m
  | chosen m rest amount infected h ih =>
    rw [selectTargets_cons_of_chosen h]
    exact ih.cons_cons m

theorem length_selectTargets_le (members : List Member) (amount : Nat) (infected : Infected) :
    (selectTargets self members amount infected).1.length ≤ amount := by
  induction members, amount, infected using selectTargets_induction self with
  | nil amount infected => simp
  | zero members infected => simp
  | passed m rest amount infected h ih => rwa [selectTargets_cons_of_passed h]
  | chosen m rest amount infected h ih =>
    rw [selectTargets_cons_of_chosen h, List.length_cons]
    exact Nat.succ_le_succ ih

theorem passesOver_of_mem_selectTargets {members : List Member} {amount : Nat}
    {infected : Infected} {m : Member} (hm : m ∈ (selectTargets self members amount infected).1) :
    passesOver self infected m = false := by
  induction members, amount, infected using selectTargets_induction self with
  | nil amount infected => exact absurd hm (by simp)
  | zero members infected => exact absurd hm (by simp)
  | passed target rest amount infected h ih =>
    rw [selectTargets_cons_of_passed h] at hm
    exact ih hm
  | chosen target rest amount infected h ih =>
    rw [selectTargets_cons_of_chosen h, List.mem_cons] at hm
    rcases hm with rfl | hm
    · exact h
    · exact (passesOver_insert target (ih hm)).1

theorem nodup_keys_selectTargets (members : List Member) (amount : Nat) (infected : Infected) :
    ((selectTargets self members amount infected).1.map Member.key).Nodup := by
  induction members, amount, infected using selectTargets_induction self with
  | nil amount infected => simp
  | zero members infected => simp
  | passed m rest amount infected h ih => rwa [selectTargets_cons_of_passed h]
  | chosen m rest amount infected h ih =>
    rw [selectTargets_cons_of_chosen h, List.map_cons, List.nodup_cons]
    refine ⟨fun hmem ↦ ?_, ih⟩
    obtain ⟨target, htarget, hkey⟩ := List.mem_map.mp hmem
    exact (passesOver_insert m (passesOver_of_mem_selectTargets htarget)).2 hkey

/-- The marks of a choice are those of its targets, beyond the ones that were there. -/
theorem marksBeyond_selectTargets (members : List Member) (amount : Nat) (infected : Infected) :
    (selectTargets self members amount infected).2.MarksBeyond infected
      ((selectTargets self members amount infected).1.map Member.key) := by
  induction members, amount, infected using selectTargets_induction self with
  | nil amount infected =>
    rw [selectTargets_nil]
    exact .refl infected
  | zero members infected =>
    rw [selectTargets_zero]
    exact .refl infected
  | passed m rest amount infected h ih => rwa [selectTargets_cons_of_passed h]
  | chosen m rest amount infected h ih =>
    rw [selectTargets_cons_of_chosen h]
    exact ih.of_insert

theorem containsKey_selectTargets (members : List Member) (amount : Nat) (infected : Infected)
    (key : String) :
    (selectTargets self members amount infected).2.containsKey key = true ↔
      infected.containsKey key = true ∨
        key ∈ (selectTargets self members amount infected).1.map Member.key :=
  (marksBeyond_selectTargets members amount infected).containsKey_iff key

/-- With targets to spare, everybody on the list is reached. -/
theorem containsKey_of_length_lt {members : List Member} {amount : Nat} {infected : Infected}
    (hlength : (selectTargets self members amount infected).1.length < amount) {m : Member}
    (hm : m ∈ members) (hself : ¬m.SamePeer self) :
    (selectTargets self members amount infected).2.containsKey m.key = true := by
  induction members, amount, infected using selectTargets_induction self with
  | nil amount infected => exact absurd hm (by simp)
  | zero members infected => exact absurd hlength (by simp)
  | passed target rest amount infected h ih =>
    rw [selectTargets_cons_of_passed h] at hlength ⊢
    rcases List.mem_cons.mp hm with rfl | hm
    · have hmarked : infected.containsKey m.key = true := by
        rw [passesOver, Bool.or_eq_true, decide_eq_true_eq] at h
        exact h.resolve_left hself
      exact (containsKey_selectTargets rest amount infected m.key).mpr (Or.inl hmarked)
    · exact ih hlength hm
  | chosen target rest amount infected h ih =>
    rw [selectTargets_cons_of_chosen h] at hlength ⊢
    rcases List.mem_cons.mp hm with rfl | hm
    · have hmarked := (infected.containsKey_insert m m.key).mpr (Or.inl rfl)
      exact (containsKey_selectTargets rest amount _ m.key).mpr (Or.inl hmarked)
    · exact ih (Nat.succ_lt_succ_iff.mp hlength) hm

/-- The choice of targets, whatever the list holds: several values of one peer, this node, peers
that are marked already. The targets stand in the list in their order. They are no more than asked
for, all of different peers, none of them this node and none marked before. Marked in addition are
exactly their keys; all other entries stay, those with the flag cleared among them. And if there are
fewer targets than asked for, everybody on the list but this node is marked. -/
theorem selectTargets_complete (self : Member) (members : List Member) (amount : Nat)
    (infected : Infected) :
    let (targets, marked) := selectTargets self members amount infected
    targets.Sublist members ∧ targets.length ≤ amount ∧
      (targets.map fun m ↦ (m.addr, m.port)).Nodup ∧
      (∀ m ∈ targets, ¬m.SamePeer self ∧ infected.contains m = false) ∧
      marked.MarksBeyond infected (targets.map Member.key) ∧
      (targets.length < amount → ∀ m ∈ members, m.SamePeer self ∨ marked.contains m = true) := by
  have hpeers : ((selectTargets self members amount infected).1.map
      fun m ↦ (m.addr, m.port)).Nodup := by
    -- A key is made of an address and a port, so different keys are keys of different peers.
    refine List.pairwise_map.mpr ((List.pairwise_map.mp
      (nodup_keys_selectTargets members amount infected)).imp fun hkeys hpeers ↦ hkeys ?_)
    exact congrArg (fun p : String × UInt16 ↦ peerKey p.1 p.2) hpeers
  refine ⟨selectTargets_sublist members amount infected,
    length_selectTargets_le members amount infected, hpeers, fun m hm ↦ ?_,
    marksBeyond_selectTargets members amount infected, fun hlength m hm ↦ ?_⟩
  · exact passesOver_eq_false.mp (passesOver_of_mem_selectTargets hm)
  · by_cases hself : m.SamePeer self
    · exact Or.inl hself
    · exact Or.inr (containsKey_of_length_lt hlength hm hself)

end Choice

/-- This node under another name, two values of one peer, a peer that is marked, and one whose flag
is cleared. -/
example :
    selectTargets { addr := "10.0.0.1", port := 1 }
        [{ addr := "10.0.0.1", port := 1, name := "a" }, { addr := "10.0.0.1", port := 2 },
          { addr := "10.0.0.1", port := 2, mac := "b" }, { addr := "10.0.0.1", port := 3 },
          { addr := "10.0.0.1", port := 4 }]
        3 (.ofList [("10.0.0.1:3", true), ("10.0.0.1:4", false)]) =
      ([{ addr := "10.0.0.1", port := 2 }, { addr := "10.0.0.1", port := 4 }],
        .ofList [("10.0.0.1:2", true), ("10.0.0.1:3", true), ("10.0.0.1:4", true)]) := by
  decide

end Gossip
