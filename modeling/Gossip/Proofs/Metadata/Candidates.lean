import Gossip.Proofs.Metadata.Learning
import Mathlib.Data.List.Nodup

/-!
Candidates offered one after the other. What is stored at any time is the maximum so far: a
candidate is taken in exactly if it exceeds what was stored at first and every candidate before it.
So the first candidate of the greatest version is left in the end, and the order in which candidates
come matters only among those of one version.
-/

set_option autoImplicit false
set_option relaxedAutoImplicit false

namespace Gossip

namespace Metadata

/-- What is stored after all of some candidates have been offered, and the answer to each offer. -/
def adoptAll : Metadata → List Metadata → Metadata × List Bool
  | current, [] => (current, [])
  | current, candidate :: rest =>
    let (current, adopted) := current.adopt candidate
    let (current, answers) := adoptAll current rest
    (current, adopted :: answers)

/-- The first candidate that attains the greatest version. -/
def firstGreatest? (candidates : List Metadata) : Option Metadata :=
  candidates.find? fun m ↦ ∀ other ∈ candidates, other.version ≤ m.version

variable {current m : Metadata} {candidates : List Metadata}

/-! ### One offer -/

theorem adopt_eq (current candidate : Metadata) :
    current.adopt candidate =
      (current.learn (some candidate), decide (candidate.Newer current)) := by
  by_cases h : candidate.Newer current
  · rw [learn_of_newer h, adopt, if_pos h, decide_eq_true h]
  · rw [learn_of_not_newer h, adopt, if_neg h, decide_eq_false h]

/-- A version exceeds what is stored after an offer exactly if it exceeds both what was stored and
what has been offered. -/
theorem version_learn_lt_iff (current candidate : Metadata) (version : Int64) :
    (current.learn (some candidate)).version < version ↔
      current.version < version ∧ candidate.version < version := by
  constructor
  · intro h
    exact ⟨Int64.lt_of_le_of_lt (current.version_le_learn _) h,
      Int64.lt_of_le_of_lt (current.version_news_le_learn candidate) h⟩
  · rintro ⟨hcurrent, hcandidate⟩
    rcases current.learn_eq_or (some candidate) with hsame | hnews
    · rw [hsame]
      exact hcurrent
    · rw [← Option.some.inj hnews]
      exact hcandidate

/-! ### All offers -/

theorem adoptAll_cons (current candidate : Metadata) (rest : List Metadata) :
    current.adoptAll (candidate :: rest) =
      (((current.learn (some candidate)).adoptAll rest).1,
        decide (candidate.Newer current) ::
          ((current.learn (some candidate)).adoptAll rest).2) := by
  rw [adoptAll, adopt_eq]

theorem length_answers (current : Metadata) (candidates : List Metadata) :
    (current.adoptAll candidates).2.length = candidates.length := by
  induction candidates generalizing current with
  | nil => rfl
  | cons candidate rest ih => rw [adoptAll_cons, List.length_cons, ih, List.length_cons]

/-- A candidate is taken in exactly if it exceeds everything before it. -/
theorem answer_iff {i : ℕ} (h : candidates[i]? = some m) :
    (current.adoptAll candidates).2[i]? = some true ↔
      current.version < m.version ∧
        ∀ earlier ∈ candidates.take i, earlier.version < m.version := by
  induction candidates generalizing current i with
  | nil => exact absurd h (by simp)
  | cons candidate rest ih =>
    rw [adoptAll_cons]
    cases i with
    | zero =>
      obtain rfl : candidate = m := Option.some.inj h
      rw [List.getElem?_cons_zero, Option.some.injEq, decide_eq_true_iff, List.take_zero]
      exact ⟨fun hnewer ↦ ⟨hnewer, fun earlier hearlier ↦ absurd hearlier List.not_mem_nil⟩,
        And.left⟩
    | succ i =>
      rw [List.getElem?_cons_succ] at h
      rw [List.getElem?_cons_succ, ih h, version_learn_lt_iff, List.take_succ_cons,
        List.forall_mem_cons, and_assoc]

/-- What is left in the end: nothing exceeds it, and it is what was stored at first, or a candidate
that exceeds that and everything before it. -/
structure Prevails (current : Metadata) (candidates : List Metadata) (last : Metadata) : Prop where
  current_le : current.version ≤ last.version
  candidate_le : ∀ m ∈ candidates, m.version ≤ last.version
  origin : last = current ∨ current.version < last.version ∧ ∃ before after,
    candidates = before ++ last :: after ∧ ∀ m ∈ before, m.version < last.version

theorem prevails_adoptAll (current : Metadata) (candidates : List Metadata) :
    Prevails current candidates (current.adoptAll candidates).1 := by
  induction candidates generalizing current with
  | nil => exact ⟨Int64.le_refl _, by simp, Or.inl rfl⟩
  | cons candidate rest ih =>
    rw [adoptAll_cons]
    obtain ⟨hleast, hrest, horigin⟩ := ih (current.learn (some candidate))
    have hcandidate := current.version_news_le_learn candidate
    refine ⟨Int64.le_trans (current.version_le_learn _) hleast,
      List.forall_mem_cons.mpr ⟨Int64.le_trans hcandidate hleast, hrest⟩, ?_⟩
    rcases horigin with hlearned | ⟨hlt, before, after, hsplit, hbefore⟩
    · -- nothing behind the candidate has been taken in
      rw [hlearned]
      by_cases hnewer : candidate.Newer current
      · rw [learn_of_newer hnewer]
        exact Or.inr ⟨hnewer, [], rest, rfl, by simp⟩
      · exact Or.inl (learn_of_not_newer hnewer)
    · have hboth := (version_learn_lt_iff current candidate _).mp hlt
      exact Or.inr ⟨hboth.1, candidate :: before, after, congrArg (candidate :: ·) hsplit,
        List.forall_mem_cons.mpr ⟨hboth.2, hbefore⟩⟩

namespace Prevails

variable {last other : Metadata} {others : List Metadata}

/-- What is left is the first greatest candidate, if that is newer than what was stored. -/
theorem eq_firstGreatest (h : Prevails current candidates last) :
    last = ((firstGreatest? candidates).filter (·.Newer current)).getD current := by
  rcases h.origin with rfl | ⟨hlt, before, after, hsplit, hbefore⟩
  · cases hgreatest : firstGreatest? candidates with
    | none => rfl
    | some m =>
      have hold : ¬m.Newer last :=
        Int64.not_lt.mpr (h.candidate_le m (List.mem_of_find?_eq_some hgreatest))
      rw [Option.filter_some, decide_eq_false hold]
      rfl
  · have hgreatest : firstGreatest? candidates = some last := by
      refine List.find?_eq_some_iff_append.mpr ⟨decide_eq_true h.candidate_le, before, after,
        hsplit, fun m hm ↦ ?_⟩
      have hexceeded : ¬∀ other ∈ candidates, other.version ≤ m.version := fun hall ↦
        Int64.not_le.mpr (hbefore m hm) (hall last (hsplit ▸ by simp))
      rw [decide_eq_false hexceeded]
      rfl
    rw [hgreatest, Option.filter_some, decide_eq_true (show last.Newer current from hlt)]
    rfl

theorem eq_or_mem (h : Prevails current candidates last) :
    last = current ∨ current.version < last.version ∧ last ∈ candidates := by
  refine h.origin.imp_right fun ⟨hlt, before, after, hsplit, _⟩ ↦ ⟨hlt, ?_⟩
  rw [hsplit]
  exact List.mem_append_right before List.mem_cons_self

theorem version_le (h : Prevails current candidates last) (hperm : candidates.Perm others)
    (hother : Prevails current others other) : last.version ≤ other.version := by
  rcases h.eq_or_mem with rfl | ⟨-, hmem⟩
  · exact hother.current_le
  · exact hother.candidate_le last (hperm.subset hmem)

theorem version_eq (h : Prevails current candidates last) (hperm : candidates.Perm others)
    (hother : Prevails current others other) : other.version = last.version :=
  Int64.le_antisymm (hother.version_le hperm.symm h) (h.version_le hperm hother)

/-- Among candidates of different versions, the one that is left is known by its version. -/
theorem eq_of_nodup (h : Prevails current candidates last) (hperm : candidates.Perm others)
    (hother : Prevails current others other) (hnodup : (candidates.map version).Nodup) :
    other = last := by
  have hversion := h.version_eq hperm hother
  rcases h.eq_or_mem with rfl | ⟨hlt, hmem⟩
  · refine hother.eq_or_mem.resolve_right fun hlater ↦ ?_
    rw [hversion] at hlater
    exact Int64.lt_irrefl hlater.1
  · rcases hother.eq_or_mem with rfl | ⟨-, hmem'⟩
    · rw [hversion] at hlt
      exact absurd hlt Int64.lt_irrefl
    · exact List.inj_on_of_nodup_map hnodup (hperm.symm.subset hmem') hmem hversion

end Prevails

/-- There is a greatest candidate as soon as there is a candidate. -/
theorem firstGreatest?_eq_none_iff : firstGreatest? candidates = none ↔ candidates = [] := by
  refine ⟨fun hnone ↦ ?_, fun hnil ↦ hnil ▸ rfl⟩
  cases candidates with
  | nil => rfl
  | cons first rest =>
    -- offered to the first candidate, all of them leave one that nothing exceeds
    have hlast := prevails_adoptAll first rest
    have hmem : (first.adoptAll rest).1 ∈ first :: rest :=
      List.mem_cons.mpr (hlast.eq_or_mem.imp_right And.right)
    refine absurd (List.find?_eq_none.mp hnone _ hmem) (not_not_intro ?_)
    exact decide_eq_true (List.forall_mem_cons.mpr ⟨hlast.current_le, hlast.candidate_le⟩)

/-- Candidates offered one after the other, whatever their versions are and whatever is stored at
first. In the end, the first candidate that attains the greatest version is stored if that version
is strictly greater than the one at first, and otherwise what was stored at first; there is such a
candidate unless there is none at all. Each offer is answered, and with yes exactly if the candidate
exceeds the version at first and those of all candidates before it. In any other order the
candidates leave the same version, and if their versions differ, the same metadata. -/
theorem adoptAll_leaves_first_greatest (current : Metadata) (candidates : List Metadata) :
    let (last, answers) := current.adoptAll candidates
    last = ((firstGreatest? candidates).filter (·.Newer current)).getD current ∧
      (firstGreatest? candidates = none ↔ candidates = []) ∧
      answers.length = candidates.length ∧
      (∀ (i : ℕ) m, candidates[i]? = some m →
        (answers[i]? = some true ↔ current.version < m.version ∧
          ∀ earlier ∈ candidates.take i, earlier.version < m.version)) ∧
      ∀ others, candidates.Perm others →
        (current.adoptAll others).1.version = last.version ∧
          ((candidates.map version).Nodup → (current.adoptAll others).1 = last) := by
  have hlast := current.prevails_adoptAll candidates
  refine ⟨hlast.eq_firstGreatest, firstGreatest?_eq_none_iff, current.length_answers candidates,
    fun i m h ↦ answer_iff h, fun others hperm ↦ ?_⟩
  have hothers := current.prevails_adoptAll others
  exact ⟨hlast.version_eq hperm hothers, hlast.eq_of_nodup hperm hothers⟩

/-- A version that comes twice, and one below zero. -/
example :
    let (last, answers) := ofData [0] (-3) |>.adoptAll
      [.ofData [1] (-5), .ofData [2] 7, .ofData [3] 7, .ofData [4] (-1)]
    last = .ofData [2] 7 ∧ answers = [false, true, false, false] := by
  decide

end Metadata

end Gossip
