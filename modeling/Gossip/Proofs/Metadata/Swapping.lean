import Gossip.Proofs.Metadata.Announcing
import Gossip.Proofs.Metadata.Comparison

/-!
What handling a swap leaves alone. Of the node only the metadata may change, and of the offload
program only the pinned version. At most one thing is asked for: to pin the version that has been
adopted, or to send the answer, which is no batch to any program.
-/

set_option autoImplicit false
set_option relaxedAutoImplicit false

namespace Gossip

/-! ### The batches of a program -/

/-- What a link upholds, it upholds behind a journal: a request that is refused does nothing
there. -/
theorem Journal.upholds_behind {ω : Type} {inner : Link ω} {A : Request → Prop} {P : ω → Prop}
    (hup : inner.Upholds A P) (rules : Rules) :
    (Journal.link rules inner).Upholds A fun w ↦ P w.2 := by
  intro r w hr hw
  have hrecord (action : Action ω) (haction : P (action w.2).2) :
      P (record rules r action w).2.2 := by
    unfold record
    split
    · exact hw
    · exact haction
  cases r with
  | send s => exact hrecord _ (hup (.send s) w.2 hr hw)
  | register key targets => exact hrecord _ (hup (.register key targets) w.2 hr hw)
  | pin version =>
    refine hrecord (if rules.keepPin then inner.pin version else Action.skip) ?_
    split
    · exact hup (.pin version) w.2 hr hw
    · exact hw

/-- The batches of a program change only when one is registered. -/
theorem Offload.upholds_batches {τ : Type} (transport : Offload → Send → Action τ)
    (batches : Table BatchKey (List Target)) :
    (Offload.beside transport).Upholds (fun r ↦ ∀ key targets, r ≠ .register key targets)
      fun w ↦ w.2.batches = batches := by
  intro r w hr hw
  cases r with
  | send s => exact hw
  | register key targets => exact absurd rfl (hr key targets)
  | pin version => exact hw

/-! ### Comparing -/

/-- The message that brings a swap, as a request to compare or as an answer. -/
def Swap.message (swap : Swap) (isRequest : Bool) : Message :=
  if isRequest then .swapRequest swap else .swapResponse swap

namespace Node

/-- A swap is compared, whether the clock can be read or not. -/
theorem tryHandle_of_swap {ω : Type} (link : Link ω) {node : Node} {unit : Bytes} {swap : Swap}
    {isRequest : Bool} (hread : node.read? unit = some (swap.message isRequest))
    (clock : Option Moment) (w : ω) :
    node.tryHandle link clock unit w = (true, (node.compareSwap link swap isRequest w).2) := by
  cases isRequest <;> cases clock <;> simp only [tryHandle, handle, hread] <;> rfl

section Requests

variable {ω : Type} (rules : Rules) (inner : Link ω) (node : Node)

theorem requests_pin (version : Int64) (w : Journal × ω) :
    (node.pin (Journal.link rules inner) version w).1.requests =
      w.1.requests ++ if node.batching.isSome then [.pin version] else [] := by
  obtain ⟨made, hmade, hpin⟩ := node.exists_made_pin rules inner version w
  unfold Journal.requests
  rw [hmade, List.map_append, hpin]

/-- What a node asks for when it compares. -/
theorem requests_compareSwap (swap : Swap) (isRequest : Bool) (w : Journal × ω) :
    (node.compareSwap (Journal.link rules inner) swap isRequest w).2.2.1.requests =
      w.1.requests ++
        if swap.metadata.Newer node.metadata then
          if node.batching.isSome then [.pin swap.metadata.version] else []
        else if node.metadata.Newer swap.metadata ∧ isRequest then
          [.send ⟨swap.node.addr, swap.node.port, node.responsePacket.encode⟩]
        else [] := by
  unfold compareSwap
  by_cases hnewer : swap.metadata.Newer node.metadata
  · rw [if_pos hnewer, if_pos hnewer]
    unfold adopt Metadata.adopt
    rw [if_pos hnewer]
    exact requests_pin rules inner { node with metadata := swap.metadata } _ w
  · rw [if_neg hnewer, if_neg hnewer]
    by_cases hanswer : node.metadata.Newer swap.metadata ∧ isRequest
    · rw [if_pos hanswer, if_pos hanswer]
      exact Journal.requests_send rules inner _ w
    · rw [if_neg hanswer, if_neg hanswer, List.append_nil]

end Requests

/-- Assumes: a unit reads as a swap under the node's secret, as a request to compare or an answer.
Whatever the node is and whoever sends which version, next to an offload program and any transport,
whether the clock can be read or not, and whichever requests are refused: the unit gets through; of
the node nothing changes but the metadata, which becomes that of the swap if its version is strictly
greater; and the registered batches stay. If the version is greater, the node asks to pin it, if
there is a program; if it is a request with a strictly smaller version, the node asks to send one
packet to the node of the swap; and it asks for nothing else. The packet reads as an answer with the
node itself and the metadata that it stores, is no batch to any program, and is one delivery on a
network in memory, with a program attached or without. -/
theorem swap_touches_metadata {node : Node} {unit payload : Bytes} {swap : Swap}
    {isRequest : Bool} (hpayload : node.payload unit = .ok payload)
    (hdecode : Packet.decode payload = .ok ⟨node.settings.secret, swap.message isRequest⟩)
    (clock : Option Moment) {τ : Type} (transport : Offload → Send → Action τ) (rules : Rules)
    (journal : Journal) (state : τ) (program : Offload) :
    let handled := node.tryHandle (Journal.link rules (Offload.beside transport)) clock unit
      (journal, state, program)
    let after := handled.2.1
    let later := handled.2.2.1
    let programAfter := handled.2.2.2.2
    let newer := node.metadata.version < swap.metadata.version
    let older := swap.metadata.version < node.metadata.version
    let answer := node.responsePacket.encode
    handled.1 = true ∧
      after = { node with metadata := if newer then swap.metadata else node.metadata } ∧
      programAfter.batches = program.batches ∧
      later.requests = journal.requests ++
        (if newer then if node.batching.isSome then [.pin swap.metadata.version] else []
        else if older ∧ isRequest then [.send ⟨swap.node.addr, swap.node.port, answer⟩]
        else []) ∧
      Packet.decode answer =
        .ok ⟨node.settings.secret, .swapResponse ⟨node.self, node.metadata⟩⟩ ∧
      (∀ attached : Offload, attached.replicas? answer = none) ∧
      ∀ (f : Fabric) (attached : Option Offload),
        f.send attached ⟨swap.node.addr, swap.node.port, answer⟩ =
          f.deliver (peerKey swap.node.addr swap.node.port) answer := by
  have hbatch : (Wire.ofPacket node.responsePacket).batch = 0 := rfl
  have hbatches : (node.compareSwap (Journal.link rules (Offload.beside transport)) swap isRequest
      (journal, state, program)).2.2.2.2.batches = program.batches :=
    node.compareSwap_upholds
      (Journal.upholds_behind (Offload.upholds_batches transport program.batches) rules)
      (fun _ _ _ ↦ Request.noConfusion) swap (fun _ _ _ ↦ Request.noConfusion) rfl
  rw [tryHandle_of_swap _ (read?_of_payload hpayload hdecode)]
  refine ⟨rfl, ?_, hbatches, ?_, Packet.decode_encode _, fun o ↦ o.replicas?_of_no_batch hbatch,
    fun f attached ↦ f.send_of_no_batch attached hbatch _ _⟩
  · exact (node.compareSwap_node _ swap isRequest _).trans (by rw [Metadata.learn_some]; rfl)
  · exact node.requests_compareSwap rules (Offload.beside transport) swap isRequest _

/-- A node that receives frames, stores a version, and knows members of which one is too old. -/
def keeper : Node where
  settings := { mode := .xdp, buffer := 90, lifetime := .ofSeconds 32 }
  membership := { batcher.membership with seen := acquaintances }
  metadata := .ofData [9] 9
  batching := batcher.batching

/-- What the second member stores. -/
def outdated : Swap := ⟨inSubnet 2, .ofData [5] 5⟩

/-- The frame with which it asks. -/
def asking : Bytes := frame (Packet.encode ⟨keeper.settings.secret, outdated.message true⟩)

/-- A program in which one batch is registered. -/
def oneBatch : Offload where
  batches := Table.empty.insert KeyRing.fresh.advance.key [(inSubnet 3).target]
  version := 9

/-- It is asked while the clock cannot be read, and no packet can be sent. -/
def answering : Bool × Node × Journal × Unit × Offload :=
  keeper.tryHandle
    (Journal.link { refuse := fun _ _ ↦ some (.transport "unreachable") }
      (Offload.beside fun _ _ ↦ Action.skip))
    none asking ({}, (), oneBatch)

/-- The answer is attempted once, and both the node and the batches stay what they are. -/
theorem swap_touches_metadata_answering :
    ∃ payload, keeper.payload asking = .ok payload ∧
      Packet.decode payload = .ok ⟨keeper.settings.secret, outdated.message true⟩ ∧
      answering.1 = true ∧ answering.2.1 = keeper ∧
      answering.2.2.2.2.batches.get? KeyRing.fresh.advance.key = some [(inSubnet 3).target] ∧
      ∃ answer, answering.2.2.1.requests = [.send ⟨"10.0.0.2", 1, answer⟩] ∧
        Packet.decode answer =
          .ok ⟨keeper.settings.secret, .swapResponse ⟨inSubnet 1, .ofData [9] 9⟩⟩ ∧
        ∀ attached : Offload, attached.replicas? answer = none := by
  obtain ⟨payload, hframe, hdecode⟩ :=
    (carries_encode ⟨keeper.settings.secret, outdated.message true⟩).2
  have hpayload : keeper.payload asking = .ok payload := hframe
  have hswap := swap_touches_metadata hpayload hdecode none
    (fun _ _ ↦ Action.skip) { refuse := fun _ _ ↦ some (.transport "unreachable") } {} () oneBatch
  dsimp only at hswap
  generalize hrun : keeper.tryHandle _ _ _ _ = run at hswap
  obtain rfl : answering = run := hrun
  obtain ⟨hthrough, hafter, hbatches, hrequests, hanswer, hreplicas, -⟩ := hswap
  refine ⟨payload, hpayload, hdecode, hthrough, hafter, ?_, _, hrequests, hanswer, hreplicas⟩
  exact (congrArg (Table.get? · KeyRing.fresh.advance.key) hbatches).trans (by decide)

end Node

end Gossip
