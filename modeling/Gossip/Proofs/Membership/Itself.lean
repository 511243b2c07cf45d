import Gossip.Proofs.Agent
import Gossip.Proofs.Membership.Gateway

/-!
A node among its own members. Its own entry is an entry like any other: it is stored when the node
is built, with each beat, and with each publication, and goes when a look finds it too old. Looking
never refreshes it, and a node that has not joined, or has been stopped, does not beat. So such a
node forgets itself, and goes on listing those whom it has met in the meantime.
-/

set_option autoImplicit false
set_option relaxedAutoImplicit false

namespace Gossip

namespace Node

/-- What the store of a node is built from, and what operations ask of it then. -/
def chronicle (node : Node) (self : Member) (built : Instant) (operations : List Operation) :
    Chronicle where
  self
  lifetime := node.settings.lifetime
  mask := node.settings.mask
  gateway := node.settings.gateway
  built
  accesses := operations.flatMap (·.accesses node)

section Built

variable {self : Member} {settings : Settings} {offload : Bool} {built : Instant} {node : Node}
  (hbuild : Node.build self settings offload built = .ok node)

include hbuild

theorem start_chronicle (operations : List Operation) :
    (node.chronicle self built operations).start = node.membership := by
  rw [(Node.eq_of_build hbuild).2]
  rfl

/-- The store of a node is what its chronicle comes to. -/
theorem after_chronicle {ω : Type} (link : Link ω) (operations more : List Operation) (w : ω) :
    (node.chronicle self built (operations ++ more)).after
        (operations.flatMap (·.accesses node)).length =
      (performAll link operations node w).2.1.membership := by
  rw [Chronicle.after, start_chronicle hbuild, membership_performAll]
  unfold chronicle
  rw [List.flatMap_append, List.take_left]

/-- A node that has been built lists the values that are present when it looks. -/
theorem mem_nodes_iff {ω : Type} (link : Link ω) (operations : List Operation) (w : ω)
    (moment : Moment) (v : Member) :
    let chronicle := node.chronicle self built (operations ++ [.nodes moment])
    v ∈ ((performAll link operations node w).2.1.nodes moment).2 ↔
      chronicle.Present v chronicle.accesses.length := by
  have hafter := after_chronicle hbuild link operations [.nodes moment] w
  have hsplit : (node.chronicle self built (operations ++ [.nodes moment])).accesses =
      operations.flatMap (·.accesses node) ++ [.get moment] := List.flatMap_append
  generalize node.chronicle self built (operations ++ [.nodes moment]) = c at hafter hsplit ⊢
  have haccess : c.accesses[(operations.flatMap (·.accesses node)).length]? =
      some (.get moment) := by
    rw [hsplit, List.getElem?_concat_length]
  have hlisted := Chronicle.perm_after_of_serve haccess moment rfl
  rw [hafter] at hlisted
  dsimp only
  rw [hsplit, List.length_append, List.length_singleton]
  exact hlisted.mem_iff.trans (Chronicle.mem_members_after_of_looks haccess rfl)

theorem self_performAll {ω : Type} (link : Link ω) (operations : List Operation) (w : ω) :
    (performAll link operations node w).2.1.self = self.withAddr := by
  have hrules := node.membership.sameRules_serveAll (operations.flatMap (·.accesses node))
  rw [← membership_performAll link node operations w] at hrules
  exact hrules.self.trans (congrArg Membership.self (start_chronicle hbuild [])).symm

end Built

end Node

/-- Assumes: the node has been built. Whatever happens to it and its tasks then, next to any link
and under any readings of the clock, it lists itself among the live members exactly if every look
at them since its own entry was last stored, this one among them, found that entry young enough. Its
entry is stored when it is built, beats or publishes, or is handed its own value; joining, starting,
stopping, listening and looking do not store it. -/
theorem Agent.lists_itself_iff {self : Member} {settings : Settings} {offload : Bool}
    {built : Instant} {node : Node} (hbuild : Node.build self settings offload built = .ok node)
    {ω : Type} (link : Link ω) (occurrences : List Occurrence) (w : ω) (moment : Moment) :
    let (agent, _) := undergoAll link occurrences { node } w
    let chronicle := node.chronicle self built
      (deeds link occurrences { node } w ++ [.nodes moment])
    agent.node.self ∈ (agent.node.nodes moment).2 ↔
      chronicle.Present self.withAddr chronicle.accesses.length := by
  have hdone := performAll_deeds link occurrences { node } w
  have hself := Node.self_performAll hbuild link (deeds link occurrences { node } w) w
  have hlists := Node.mem_nodes_iff hbuild link (deeds link occurrences { node } w) w moment
    self.withAddr
  rw [hdone] at hself hlists
  dsimp only at hself hlists ⊢
  rw [hself]
  exact hlists

/-- A member, and a neighbour of it. -/
def resident : Member := { addr := "10.0.0.1", port := 1 }

def neighbour : Member := { addr := "10.0.0.2", port := 1 }

/-- The clock some seconds after the member has been built. -/
def afterBuilt (elapsed : ℕ) : Moment := .plain (.ofParts (1700000000 + elapsed) 0)

/-- A node joins, its tasks take their first turns, of which the last is a beat, and it is stopped.
After some seconds it stores a neighbour. -/
def stopping (elapsed : ℕ) : List Occurrence :=
  [.join, .turn (some (afterBuilt 0)), .turn (some (afterBuilt 0)), .turn (some (afterBuilt 0)),
    .stop, .turn (some (afterBuilt 0)), .set neighbour (afterBuilt elapsed).now]

/-- A node that has been stopped lists itself for thirty-two seconds, which is its lifetime. -/
theorem lists_itself_within_lifetime :
    ∃ node, Node.build resident {} false (afterBuilt 0).now = .ok node ∧
      let (agent, _) := Agent.undergoAll Offload.link (stopping 32) { node } {}
      let chronicle := node.chronicle resident (afterBuilt 0).now
        (Agent.deeds Offload.link (stopping 32) { node } {} ++ [.nodes (afterBuilt 32)])
      agent.node.self ∈ (agent.node.nodes (afterBuilt 32)).2 ∧
        chronicle.Present resident.withAddr chronicle.accesses.length := by
  have hbuild : Node.build resident {} false (afterBuilt 0).now = .ok _ := rfl
  have hlists := Agent.lists_itself_iff hbuild Offload.link (stopping 32) {} (afterBuilt 32)
  refine ⟨_, hbuild, ?_⟩
  generalize hrun : Agent.undergoAll Offload.link (stopping 32) _ _ = run at hlists ⊢
  obtain ⟨agent, offload⟩ := run
  have hlisted : (agent.node.nodes (afterBuilt 32)).2 = [resident, neighbour] :=
    congrArg (fun run ↦ (run.1.node.nodes (afterBuilt 32)).2) hrun.symm
  have hself : agent.node.self = resident := congrArg (fun run ↦ run.1.node.self) hrun.symm
  have hmem : agent.node.self ∈ (agent.node.nodes (afterBuilt 32)).2 := by
    rw [hlisted, hself]
    exact List.mem_cons_self
  exact ⟨hmem, hlists.mp hmem⟩

/-- A second later it lists its neighbour, and not itself. -/
theorem forgets_itself_when_stopped :
    ∃ node, Node.build resident {} false (afterBuilt 0).now = .ok node ∧
      let (agent, _) := Agent.undergoAll Offload.link (stopping 33) { node } {}
      (agent.node.nodes (afterBuilt 33)).2 = [neighbour] ∧
        agent.node.self ∉ (agent.node.nodes (afterBuilt 33)).2 := by
  refine ⟨_, rfl, ?_⟩
  generalize hrun : Agent.undergoAll Offload.link (stopping 33) _ _ = run
  obtain ⟨agent, offload⟩ := run
  have hlisted : (agent.node.nodes (afterBuilt 33)).2 = [neighbour] :=
    congrArg (fun run ↦ (run.1.node.nodes (afterBuilt 33)).2) hrun.symm
  have hself : agent.node.self = resident := congrArg (fun run ↦ run.1.node.self) hrun.symm
  refine ⟨hlisted, ?_⟩
  rw [hlisted, hself]
  decide

end Gossip
