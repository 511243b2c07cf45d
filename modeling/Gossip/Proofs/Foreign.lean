import Gossip.Agent
import Gossip.Proofs.Operation

/-!
Units that are not meant for a node. A unit counts if what is left of it without its frame, where
the node receives frames, reads as a packet under the node's own secret. All other units are
invisible: a node does with any run of operations what it does without them, to itself and to
whatever is outside it.
-/

set_option autoImplicit false
set_option relaxedAutoImplicit false

namespace Gossip

namespace Node

/-- A unit that reads as a packet under the node's own secret. -/
def Accepts (node : Node) (unit : Bytes) : Prop :=
  ∃ payload packet, node.payload unit = .ok payload ∧ Packet.decode payload = .ok packet ∧
    packet.secret = node.settings.secret

/-- The node finds a message in the units that it accepts, and in no others. -/
theorem accepts_iff {node : Node} {unit : Bytes} :
    node.Accepts unit ↔ (node.read? unit).isSome := by
  unfold Accepts read?
  cases node.payload unit with
  | error error => simp
  | ok payload =>
    cases hdecode : Packet.decode payload with
    | error error => simp [hdecode]
    | ok packet =>
      by_cases hsecret : packet.secret = node.settings.secret <;> simp [hdecode, hsecret]

instance (node : Node) (unit : Bytes) : Decidable (node.Accepts unit) :=
  decidable_of_iff _ accepts_iff.symm

theorem accepts_congr {node other : Node} (h : node.settings = other.settings) (unit : Bytes) :
    node.Accepts unit ↔ other.Accepts unit := by
  rw [accepts_iff, accepts_iff, read?_congr h]

/-- Whether the clock can be read or not, a unit that is not accepted gets through and does
nothing. -/
theorem tryHandle_of_not_accepts {ω : Type} (link : Link ω) {node : Node} {unit : Bytes}
    (h : ¬node.Accepts unit) (clock : Option Moment) (w : ω) :
    node.tryHandle link clock unit w = (true, node, w) := by
  have hread : node.read? unit = none := by
    rwa [accepts_iff, Bool.not_eq_true, Option.isSome_eq_false_iff, Option.isNone_iff_eq_none] at h
  cases clock <;> simp only [tryHandle, handle, hread]

end Node

/-- Every operation but the handling of a unit that the node does not accept. -/
def Operation.Heeded (node : Node) : Operation → Prop
  | .handle _ unit => node.Accepts unit
  | _ => True

instance (node : Node) : DecidablePred (Operation.Heeded node)
  | .handle _ unit => inferInstanceAs (Decidable (node.Accepts unit))
  | .publish _ _ | .beat _ | .set _ _ | .nodes _ => inferInstanceAs (Decidable True)

namespace Operation

theorem heeded_congr {node other : Node} (h : node.settings = other.settings)
    (operation : Operation) : operation.Heeded node ↔ operation.Heeded other := by
  cases operation with
  | handle clock unit => exact Node.accepts_congr h unit
  | publish _ _ | beat _ | set _ _ | nodes _ => exact Iff.rfl

/-- The handling of some units, each with a reading of the clock if it can be read. -/
def handles (units : List (Option Moment × Bytes)) : List Operation :=
  units.map fun u ↦ .handle u.1 u.2

theorem filter_handles (node : Node) (units : List (Option Moment × Bytes)) :
    (handles units).filter (·.Heeded node) =
      handles (units.filter fun u ↦ node.Accepts u.2) := by
  rw [handles, List.filter_map]
  rfl

end Operation

namespace Node

section Invisible

variable {ω : Type} (link : Link ω)

theorem perform_of_not_heeded {node : Node} {operation : Operation}
    (h : ¬operation.Heeded node) (w : ω) : (node.perform link operation w).2 = (node, w) := by
  cases operation with
  | handle clock unit =>
    have haccepts : ¬node.Accepts unit := h
    simp only [perform, tryHandle_of_not_accepts link haccepts]
  | publish _ _ | beat _ | set _ _ | nodes _ => exact absurd trivial h

/-- A node does with operations what it does with those of them that it heeds. -/
theorem performAll_filter_heeded (node : Node) (operations : List Operation) (w : ω) :
    (performAll link operations node w).2 =
      (performAll link (operations.filter (·.Heeded node)) node w).2 := by
  induction operations generalizing node w with
  | nil => rfl
  | cons operation rest ih =>
    by_cases h : operation.Heeded node
    · -- The secret and the mode stay, and with them what is heeded.
      have hsettings := node.settings_perform link operation w
      have hrest := ih (node.perform link operation w).2.1 (node.perform link operation w).2.2
      simp only [Operation.heeded_congr hsettings] at hrest
      rw [List.filter_cons_of_pos (by simpa using h)]
      exact hrest
    · have hsame := perform_of_not_heeded link h w
      rw [List.filter_cons_of_neg (by simpa using h), ← ih node w]
      show (performAll link rest (node.perform link operation w).2.1
        (node.perform link operation w).2.2).2 = _
      rw [hsame]

/-- Units that are not packets under the secret of a node are invisible. Whatever the units are,
handling all of them leaves the node as handling those that it accepts: with the same members,
those that are too old among them, the same metadata, and the same place in the ring of batch keys.
The world is the same too, which is to say that the same packets have been sent, the same batches
registered and the same versions pinned, in the same order and with the same results. -/
theorem foreign_units_invisible (node : Node) (units : List (Option Moment × Bytes)) (w : ω) :
    (performAll link (Operation.handles units) node w).2 =
      (performAll link (Operation.handles (units.filter fun u ↦ node.Accepts u.2)) node w).2 := by
  rw [performAll_filter_heeded, Operation.filter_handles]

end Invisible

end Node

/-- An agent that works off its queue gets as far as without the units that its node does not
accept, and leaves the same behind. -/
theorem Agent.handleAll_filter_accepts {ω : Type} (link : Link ω) (clock : Option Moment)
    (node : Node) (units : List Bytes) (w : ω) :
    let all := handleAll link clock node units w
    let accepted := handleAll link clock node (units.filter (node.Accepts ·)) w
    all.1 = accepted.1 ∧ all.2.1 = accepted.2.1 ∧ all.2.2.1 = accepted.2.2.1 := by
  induction units generalizing node w with
  | nil => exact ⟨rfl, rfl, rfl⟩
  | cons unit rest ih =>
    by_cases h : node.Accepts unit
    · rw [List.filter_cons_of_pos (by simpa using h)]
      have hsettings := node.settings_tryHandle link clock unit w
      unfold handleAll
      cases hhandled : node.tryHandle link clock unit w with
      | mk through after =>
        rw [hhandled] at hsettings
        cases through with
        | false => exact ⟨rfl, rfl, rfl⟩
        | true =>
          have hrest := ih after.1 after.2
          simp only [Node.accepts_congr hsettings] at hrest
          exact hrest
    · have hsame := Node.tryHandle_of_not_accepts link h clock w
      rw [List.filter_cons_of_neg (by simpa using h)]
      rw [handleAll, hsame]
      exact ih node w

end Gossip
