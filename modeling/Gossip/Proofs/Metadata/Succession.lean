import Gossip.Proofs.Metadata.Publication
import Gossip.Proofs.Operation

/-!
Which metadata follows which on one node. Whatever a node takes in is newer than what it replaces.
What it publishes is not compared with anything: it replaces what is stored, under the stamp of the
clock as it reads then. So the version of a node goes back exactly where it publishes under a clock
that is behind the version it stores.
-/

set_option autoImplicit false
set_option relaxedAutoImplicit false

namespace Gossip

namespace Node

variable {ω : Type} (link : Link ω) (node : Node)

/-! ### One operation -/

/-- What a node publishes is stored as it is, what it hears is compared with what it stores, and
nothing else it does concerns its metadata. -/
theorem metadata_perform (operation : Operation) (w : ω) :
    (node.perform link operation w).2.1.metadata =
      match operation with
      | .publish moment data => .publishedAt data moment.now
      | .handle _ unit => node.metadata.learn ((node.read? unit).bind Message.news?)
      | .beat _ | .set _ _ | .nodes _ => node.metadata := by
  cases operation with
  | publish moment data => exact node.metadata_publish link moment data w
  | beat moment => exact node.metadata_beat link moment w
  | handle clock unit => exact node.metadata_tryHandle link clock unit w
  | set member now => rfl
  | nodes moment => rfl

/-- An operation that is not a publication never takes the version back. -/
theorem version_le_perform {operation : Operation}
    (h : ∀ moment data, operation ≠ .publish moment data) (w : ω) :
    node.metadata.version ≤ (node.perform link operation w).2.1.metadata.version := by
  rw [metadata_perform]
  cases operation with
  | publish moment data => exact absurd rfl (h moment data)
  | handle clock unit => exact node.metadata.version_le_learn _
  | beat moment | set member now | nodes moment => exact Int64.le_refl _

/-- The version goes back at a publication under a clock that is behind it, and nowhere else. -/
theorem version_perform_lt_iff (operation : Operation) (w : ω) :
    (node.perform link operation w).2.1.metadata.version < node.metadata.version ↔
      ∃ moment data, operation = .publish moment data ∧
        moment.now.stamp < node.metadata.version := by
  constructor
  · intro hback
    by_cases h : ∃ moment data, operation = .publish moment data
    · obtain ⟨moment, data, rfl⟩ := h
      rw [metadata_perform] at hback
      exact ⟨moment, data, rfl, hback⟩
    · have hother : ∀ moment data, operation ≠ .publish moment data :=
        fun moment data heq ↦ h ⟨moment, data, heq⟩
      exact absurd hback (Int64.not_lt.mpr (node.version_le_perform link hother w))
  · rintro ⟨moment, data, rfl, hstamp⟩
    rw [metadata_perform]
    exact hstamp

/-! ### A run -/

/-- What a node stores after the first of some operations. -/
def metadataAfter (operations : List Operation) (w : ω) (count : ℕ) : Metadata :=
  (performAll link (operations.take count) node w).2.1.metadata

variable {operations : List Operation} {w : ω} {k : ℕ}

/-- The next operation is done by the node that the operations before it have left. -/
theorem metadataAfter_succ {operation : Operation} (h : operations[k]? = some operation) :
    node.metadataAfter link operations w (k + 1) =
      ((performAll link (operations.take k) node w).2.1.perform link operation
        (performAll link (operations.take k) node w).2.2).2.1.metadata := by
  unfold metadataAfter
  rw [List.take_add_one, h, performAll_append_snd]
  rfl

theorem metadataAfter_succ_of_none (h : operations[k]? = none) :
    node.metadataAfter link operations w (k + 1) = node.metadataAfter link operations w k := by
  unfold metadataAfter
  rw [List.take_add_one, h, Option.toList_none, List.append_nil]

theorem metadataAfter_publish {moment : Moment} {data : Bytes}
    (h : operations[k]? = some (.publish moment data)) :
    node.metadataAfter link operations w (k + 1) = .publishedAt data moment.now := by
  rw [node.metadataAfter_succ link h, metadata_perform]

theorem metadataAfter_handle {clock : Option Moment} {unit : Bytes}
    (h : operations[k]? = some (.handle clock unit)) :
    node.metadataAfter link operations w (k + 1) =
      (node.metadataAfter link operations w k).learn ((node.read? unit).bind Message.news?) := by
  rw [node.metadataAfter_succ link h, metadata_perform]
  dsimp only
  rw [read?_congr (node.settings_performAll link (operations.take k) w)]
  rfl

theorem version_after_lt_iff {operation : Operation} (h : operations[k]? = some operation) :
    (node.metadataAfter link operations w (k + 1)).version <
        (node.metadataAfter link operations w k).version ↔
      ∃ moment data, operation = .publish moment data ∧
        moment.now.stamp < (node.metadataAfter link operations w k).version := by
  rw [node.metadataAfter_succ link h]
  exact version_perform_lt_iff link _ operation _

/-- Assumes: no publication is stamped below the version that is stored then. The version never
goes back. -/
theorem version_after_le
    (hstamps : ∀ k moment data, operations[k]? = some (.publish moment data) →
      (node.metadataAfter link operations w k).version ≤ moment.now.stamp) {l : ℕ} (hkl : k ≤ l) :
    (node.metadataAfter link operations w k).version ≤
      (node.metadataAfter link operations w l).version := by
  induction l, hkl using Nat.le_induction with
  | base => exact Int64.le_refl _
  | succ l _ ih =>
    refine Int64.le_trans ih ?_
    cases hget : operations[l]? with
    | none =>
      rw [node.metadataAfter_succ_of_none link hget]
      exact Int64.le_refl _
    | some operation =>
      refine Int64.not_lt.mp fun hback ↦ ?_
      obtain ⟨moment, data, rfl, hstamp⟩ := (node.version_after_lt_iff link hget).mp hback
      exact absurd hstamp (Int64.not_lt.mpr (hstamps l moment data hget))

/-- How the version of a node moves while it does any operations, next to any link, under any
readings of the clock. No operation takes it back but a publication that is stamped below it. A
publication stores exactly what it stamps, and so it is newer than what it replaces exactly if the
stamp is. The version never goes back in the run exactly if no publication of the run is stamped
below the version that is stored then. -/
theorem version_recedes_iff (operations : List Operation) (w : ω) :
    let metadata := node.metadataAfter link operations w
    (∀ k operation, operations[k]? = some operation →
      ((metadata (k + 1)).version < (metadata k).version ↔ ∃ moment data,
        operation = .publish moment data ∧ moment.now.stamp < (metadata k).version)) ∧
      (∀ k moment data, operations[k]? = some (.publish moment data) →
        metadata (k + 1) = .publishedAt data moment.now ∧
          ((metadata k).version < (metadata (k + 1)).version ↔
            (metadata k).version < moment.now.stamp)) ∧
      ((∀ k l, k ≤ l → (metadata k).version ≤ (metadata l).version) ↔
        ∀ k moment data, operations[k]? = some (.publish moment data) →
          (metadata k).version ≤ moment.now.stamp) := by
  refine ⟨fun k operation h ↦ node.version_after_lt_iff link h, fun k moment data h ↦ ?_,
    fun hmonotone k moment data h ↦ ?_,
    fun hstamps k l hkl ↦ node.version_after_le link hstamps hkl⟩
  · have hstored := node.metadataAfter_publish link (w := w) h
    refine ⟨hstored, ?_⟩
    rw [hstored]
    exact Iff.rfl
  · have hnext := hmonotone k (k + 1) (Nat.le_succ k)
    rwa [node.metadataAfter_publish link h] at hnext

end Node

/-- What a node hears from another one that has published under a later clock. -/
def Site.forerun (s : Site) : Bytes :=
  s.unitOf (Packet.encode
    ⟨s.node.settings.secret, .swapRequest ⟨.ofNumber 1, .publishedAt [1] daybreak.now⟩⟩)

theorem Site.read?_forerun (s : Site) : s.node.read? s.forerun =
    some (.swapRequest ⟨.ofNumber 1, .publishedAt [1] daybreak.now⟩) := by
  have hhears := s.hears_of_carries (carries_encode
    ⟨s.node.settings.secret, .swapRequest ⟨.ofNumber 1, .publishedAt [1] daybreak.now⟩⟩)
  rwa [if_pos rfl] at hhears

/-- A node takes in what has been published at daybreak, and publishes at dawn: its version goes
back. When it hears of the other publication again, it gives up its own. -/
theorem version_recedes_at_dawn :
    let s := Site.knowing 2 dawn.now 0 []
    let metadata := s.node.metadataAfter Offload.link
      [.handle (some dawn) s.forerun, .publish dawn [2], .handle (some dawn) s.forerun] {}
    (metadata 2).version < (metadata 1).version ∧
      metadata 2 = .publishedAt [2] dawn.now ∧ metadata 3 = .publishedAt [1] daybreak.now := by
  intro s metadata
  have hnews : (s.node.read? s.forerun).bind Message.news? =
      some (.publishedAt [1] daybreak.now) := by
    rw [s.read?_forerun]
    rfl
  have hfirst : metadata 1 = .publishedAt [1] daybreak.now := by
    refine (s.node.metadataAfter_handle Offload.link rfl).trans ?_
    rw [hnews]
    exact Metadata.learn_of_newer (by decide)
  have hsecond : metadata 2 = .publishedAt [2] dawn.now :=
    s.node.metadataAfter_publish Offload.link rfl
  have hthird : metadata 3 = .publishedAt [1] daybreak.now := by
    refine (s.node.metadataAfter_handle Offload.link rfl).trans ?_
    rw [hnews]
    show (metadata 2).learn _ = _
    rw [hsecond]
    exact Metadata.learn_of_newer (by decide)
  refine ⟨?_, hsecond, hthird⟩
  rw [hfirst, hsecond]
  decide

end Gossip
