import Gossip.Proofs.Construction
import Gossip.Proofs.Offload
import Gossip.Proofs.Requests

/-!
Which version the offload program knows. A node that broadcasts in batches pins a version whenever
it has stored one, and before it does anything that may fail; nothing else that it asks for touches
the pinned version. So the program knows the version that is stored, after every operation and
whatever becomes of it.
-/

set_option autoImplicit false
set_option relaxedAutoImplicit false

namespace Gossip

/-- Behind a link a version is pinned, which changes to what it is told and at no other request. -/
structure Link.Pins {ω : Type} (link : Link ω) (pinned : ω → Int64) : Prop where
  send : ∀ s w, pinned (link.send s w).2 = pinned w
  register : ∀ key targets w, pinned (link.register key targets w).2 = pinned w
  pin : ∀ version w, pinned (link.pin version w).2 = version

theorem Offload.pins_beside {τ : Type} (transport : Offload → Send → Action τ) :
    (Offload.beside transport).Pins fun w ↦ w.2.version where
  send _ _ := rfl
  register key targets w := by
    unfold Offload.beside Offload.register
    dsimp only
    by_cases h : Offload.capacity < targets.length
    · rw [if_pos h]
    · rw [if_neg h]
  pin _ _ := rfl

/-- Registrations may be refused. -/
theorem Journal.pins_link {ω : Type} {inner : Link ω} {pinned : ω → Int64}
    (hpins : inner.Pins pinned) (reject : Nat → BatchKey → Option Error) :
    (Journal.link { reject } inner).Pins fun w ↦ pinned w.2 where
  send s w := hpins.send s w.2
  register key targets w := by
    unfold Journal.link record
    dsimp only
    split
    · rfl
    · exact hpins.register key targets w.2
  pin version w := hpins.pin version w.2

/-- What a broadcast asks for is no pin, and so it leaves the version alone. -/
theorem Link.Pins.upholds {ω : Type} {link : Link ω} {pinned : ω → Int64}
    (hpins : link.Pins pinned) (version : Int64) :
    link.Upholds (fun r ↦ ∀ v, r ≠ .pin v) fun w ↦ pinned w = version := by
  intro r w hr hw
  cases r with
  | send s => exact (hpins.send s w).trans hw
  | register key targets => exact (hpins.register key targets w).trans hw
  | pin v => exact absurd rfl (hr v)

theorem Spreading.ne_pin {secret : String} {h : Heartbeat} {targets : List Member} {r : Request}
    (hr : Spreading secret h targets r) (version : Int64) : r ≠ .pin version := by
  rintro rfl
  cases hr

namespace Node

/-- The node broadcasts in batches, and the program knows the version that it stores. -/
structure InStep {ω : Type} (pinned : ω → Int64) (node : Node) (w : ω) : Prop where
  batching : node.batching.isSome = true
  version : pinned w = node.metadata.version

namespace InStep

variable {ω : Type} {link : Link ω} {pinned : ω → Int64} {node : Node} {w : ω}
  (hpins : link.Pins pinned)

include hpins

/-- Whatever the program knew before, a pin brings it up to date. -/
theorem pin (hbatching : node.batching.isSome = true) (metadata : Metadata) (w : ω) :
    InStep pinned { node with metadata } (node.pin link metadata.version w) := by
  refine ⟨hbatching, ?_⟩
  unfold Node.pin
  split
  next hnone => exact absurd hbatching (by simp [hnone])
  · exact hpins.pin _ w

variable (h : node.InStep pinned w)

include h

theorem adopt (m : Metadata) :
    (node.adopt link m w).2.1.InStep pinned (node.adopt link m w).2.2 := by
  unfold Node.adopt
  split
  next adopted _ => exact pin hpins h.batching adopted w
  · exact h

theorem takeUpdate (heartbeat : Heartbeat) :
    (node.takeUpdate link heartbeat w).1.InStep pinned (node.takeUpdate link heartbeat w).2 := by
  unfold Node.takeUpdate
  split
  · exact h.adopt hpins heartbeat.metadata
  · exact h

theorem compareSwap (swap : Swap) (isRequest : Bool) :
    (node.compareSwap link swap isRequest w).2.1.InStep pinned
      (node.compareSwap link swap isRequest w).2.2 := by
  unfold Node.compareSwap
  split
  · exact h.adopt hpins swap.metadata
  · split
    · exact ⟨h.batching, (hpins.send _ w).trans h.version⟩
    · exact h

/-- A broadcast leaves both versions alone, whether it gets through or not. -/
theorem broadcast (moment : Moment) (heartbeat : Heartbeat) :
    (node.broadcast link moment heartbeat w).2.1.InStep pinned
      (node.broadcast link moment heartbeat w).2.2 := by
  have hbatching : (node.broadcast link moment heartbeat w).2.1.batching.isSome = true := by
    rw [broadcast_eq]
    split
    · exact h.batching
    · unfold spread
      split
      next hnone => exact absurd h.batching (by simp_all)
      · rfl
  refine ⟨hbatching, ?_⟩
  rw [metadata_broadcast]
  exact node.broadcast_upholds (hpins.upholds node.metadata.version) moment
    (fun _ hr ↦ hr.ne_pin) h.version

theorem initiate (moment : Moment) :
    (node.initiate link moment w).2.1.InStep pinned (node.initiate link moment w).2.2 := by
  unfold Node.initiate
  dsimp only
  split
  · exact ⟨h.batching, h.version⟩
  · exact ⟨h.batching, (hpins.send _ w).trans h.version⟩

theorem receive (moment : Moment) (message : Message) :
    (node.receive link moment message w).1.InStep pinned
      (node.receive link moment message w).2 := by
  cases hwave : message.wave? with
  | some heartbeat =>
    rw [node.receive_of_wave link moment hwave, receiveHeartbeat_eq]
    have htaken := h.takeUpdate hpins heartbeat
    have hmeeting : (node.meeting link moment heartbeat w).InStep pinned
        (node.takeUpdate link heartbeat w).2 := ⟨htaken.batching, htaken.version⟩
    exact hmeeting.broadcast hpins moment heartbeat
  | none =>
    cases message with
    | heartbeat _ | forward _ _ => exact absurd hwave (by simp [Message.wave?])
    | swapRequest swap | swapResponse swap => exact h.compareSwap hpins swap _

theorem receiveUntimed (message : Message) :
    (node.receiveUntimed link message w).2.1.InStep pinned
      (node.receiveUntimed link message w).2.2 := by
  cases message with
  | heartbeat heartbeat | forward heartbeat _ => exact h.takeUpdate hpins heartbeat
  | swapRequest swap | swapResponse swap => exact h.compareSwap hpins swap _

theorem tryHandle (clock : Option Moment) (unit : Bytes) :
    (node.tryHandle link clock unit w).2.1.InStep pinned
      (node.tryHandle link clock unit w).2.2 := by
  cases hread : node.read? unit with
  | none => cases clock <;> simp only [Node.tryHandle, handle, hread] <;> exact h
  | some message =>
    cases clock with
    | some moment =>
      simp only [Node.tryHandle, handle, hread]
      exact h.receive hpins moment message
    | none =>
      simp only [Node.tryHandle, hread]
      exact h.receiveUntimed hpins message

theorem beat (moment : Moment) :
    (node.beat link moment w).1.InStep pinned (node.beat link moment w).2 := by
  have htouched : (node.touch moment.now).InStep pinned w := ⟨h.batching, h.version⟩
  exact (htouched.broadcast hpins moment (.alive node.self)).initiate hpins moment

/-- A publication is pinned before it is spread. -/
theorem publish (moment : Moment) (data : Bytes) :
    (node.publish link moment data w).2.1.InStep pinned
      (node.publish link moment data w).2.2 := by
  have htouched : (node.touch moment.now).batching.isSome = true := h.batching
  exact (pin hpins htouched (.publishedAt data moment.now) w).broadcast hpins moment _

theorem perform (operation : Operation) :
    (node.perform link operation w).2.1.InStep pinned (node.perform link operation w).2.2 := by
  cases operation with
  | publish moment data => exact h.publish hpins moment data
  | beat moment => exact h.beat hpins moment
  | handle clock unit => exact h.tryHandle hpins clock unit
  | set member now => exact ⟨h.batching, h.version⟩
  | nodes moment => exact ⟨h.batching, h.version⟩

theorem performAll (operations : List Operation) :
    (performAll link operations node w).2.1.InStep pinned
      (performAll link operations node w).2.2 := by
  induction operations generalizing node w with
  | nil => exact h
  | cons operation rest ih => exact ih (h.perform hpins operation)

end InStep

/-- Assumes: the node has been built, in a mode that asks for an offload program. It stands next to
such a program, which is fresh and which no other node uses, and sends by any transport. Whatever
the node is told to do then, under any readings of the clock, and whichever of its registrations are
refused, so that publishing returns an error: the version that the program knows is the one that
the node stores. This is so after each of the operations, as those up to it are operations too. -/
theorem pins_what_it_stores {self : Member} {settings : Settings} {built : Instant} {node : Node}
    (hbuild : Node.build self settings true built = .ok node)
    (hmode : settings.mode.isOffload = true) {τ : Type} (transport : Offload → Send → Action τ)
    (reject : Nat → BatchKey → Option Error) (operations : List Operation) (state : τ) :
    let (_, later, _, _, program) :=
      performAll (Journal.link { reject } (Offload.beside transport)) operations node
        ({}, state, {})
    program.version = later.metadata.version := by
  have hpins := Journal.pins_link (Offload.pins_beside transport) reject
  have hstart : node.InStep (fun w : Journal × τ × Offload ↦ w.2.2.version) ({}, state, {}) := by
    refine ⟨by rw [Node.batching_of_build hbuild hmode]; rfl, ?_⟩
    rw [(Node.eq_of_build hbuild).2]
  exact (hstart.performAll hpins operations).version

/-- The settings of a node that broadcasts in batches, and defaults otherwise. -/
def inBatches : Settings := { mode := .tc }

/-- An offload program in which no batch can be registered. -/
def mapFull (_ : Nat) (key : BatchKey) : Option Error :=
  some (.batchRefused key.value "map full")

/-- A peer is stored by hand, and a publication goes to it. -/
def publishingToPeer : List Operation :=
  [.set { addr := "10.0.0.2", port := 1 } (.ofParts 1 0), .publish (.plain (.ofParts 2 0)) [7]]

/-- Publishing fails, and the program knows the version that has been published. -/
theorem pins_what_it_fails_to_spread :
    ∃ node, Node.build { addr := "10.0.0.1", port := 1 } inBatches true (.ofParts 1 0) = .ok node ∧
      inBatches.mode.isOffload = true ∧
        let (replies, later, _, _, program) :=
          performAll (Journal.link { reject := mapFull } (Offload.beside fun _ _ ↦ Action.skip))
            publishingToPeer node ({}, (), {})
        replies = [.stored true, .published (.error (.batchRefused 101 "map full"))] ∧
          program.version = 2000000000 ∧ program.version = later.metadata.version := by
  have hbuild : Node.build { addr := "10.0.0.1", port := 1 } inBatches true (.ofParts 1 0) =
      .ok _ := rfl
  have hpinned := pins_what_it_stores hbuild rfl (fun _ _ ↦ Action.skip) mapFull publishingToPeer ()
  exact ⟨_, hbuild, rfl, rfl, rfl, hpinned⟩

end Node

end Gossip
