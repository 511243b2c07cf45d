import Gossip.Journal
import Gossip.Proofs.Operation

/-!
Packets that fail to go out. Two nodes that do the same operations next to two links stay equal as
long as registrations come out alike, whatever becomes of packets and pins. In particular nothing
that a node does, stores or returns depends on which of its packets were refused: it attempts the
same packets and registers the same batches.
-/

set_option autoImplicit false
set_option relaxedAutoImplicit false

namespace Gossip

section Parallel

variable {ω ω' : Type}

/-- Worlds that correspond do so after the same request, and registrations come out alike. How
packets and pins come out is left open. -/
structure Link.Parallel (R : ω → ω' → Prop) (link : Link ω) (link' : Link ω') : Prop where
  send : ∀ s {w : ω} {w' : ω'}, R w w' → R (link.send s w).2 (link'.send s w').2
  register : ∀ key targets {w : ω} {w' : ω'}, R w w' →
    (link.register key targets w).1 = (link'.register key targets w').1 ∧
      R (link.register key targets w).2 (link'.register key targets w').2
  pin : ∀ version {w : ω} {w' : ω'}, R w w' → R (link.pin version w).2 (link'.pin version w').2

/-- The same has come out, in worlds that correspond. -/
def Alike {α : Type} (R : ω → ω' → Prop) (x : α × ω) (y : α × ω') : Prop :=
  x.1 = y.1 ∧ R x.2 y.2

variable {R : ω → ω' → Prop} {link : Link ω} {link' : Link ω'} {w : ω} {w' : ω'}

theorem sendEach_parallel (hlinks : Link.Parallel R link link') (bytes : Bytes)
    (targets : List Member) (hw : R w w') :
    R (sendEach link bytes targets w) (sendEach link' bytes targets w') := by
  unfold sendEach
  induction targets generalizing w w' with
  | nil => exact hw
  | cons m rest ih => exact ih (hlinks.send ⟨m.addr, m.port, bytes⟩ hw)

theorem sendBatch_parallel (hlinks : Link.Parallel R link link') (secret : String) (h : Heartbeat)
    (key : BatchKey) (group : List Member) (hw : R w w') :
    R (sendBatch link secret h key group w) (sendBatch link' secret h key group w') := by
  cases group with
  | nil => exact hw
  | cons first others => exact hlinks.send _ hw

/-- A registration that fails ends both broadcasts. -/
theorem dispatchGroups_parallel (hlinks : Link.Parallel R link link') (secret : String)
    (h : Heartbeat) (pieces : List (List Member)) (ring : KeyRing) (hw : R w w') :
    Alike (Alike R) (dispatchGroups link secret h pieces ring w)
      (dispatchGroups link' secret h pieces ring w') := by
  induction pieces generalizing ring w w' with
  | nil => exact ⟨rfl, rfl, hw⟩
  | cons group rest ih =>
    obtain ⟨hresult, hworlds⟩ := hlinks.register ring.advance.key (group.map Member.target) hw
    unfold dispatchGroups
    dsimp only
    cases hregister : link.register ring.advance.key (group.map Member.target) w with
    | mk result w₁ =>
      cases hregister' : link'.register ring.advance.key (group.map Member.target) w' with
      | mk result' w₁' =>
        rw [hregister, hregister'] at hresult hworlds
        obtain rfl : result = result' := hresult
        cases result with
        | error error => exact ⟨rfl, rfl, hworlds⟩
        | ok u =>
          cases u
          have hsent := sendBatch_parallel hlinks secret h ring.advance.key group hworlds
          obtain ⟨hreport, hrest⟩ := ih ring.advance hsent
          exact ⟨congrArg (Except.map _) hreport, hrest⟩

namespace Node

variable (node : Node)

theorem spread_parallel (hlinks : Link.Parallel R link link') (h : Heartbeat)
    (targets : List Member) (hw : R w w') :
    Alike (Alike R) (node.spread link h targets w) (node.spread link' h targets w') := by
  unfold spread
  cases node.batching with
  | none => exact ⟨rfl, rfl, sendEach_parallel hlinks _ targets hw⟩
  | some ring =>
    obtain ⟨hreport, hring, hworlds⟩ :=
      dispatchGroups_parallel hlinks node.settings.secret h (groups targets) ring hw
    exact ⟨congrArg (Except.map _) hreport,
      congrArg (fun ring ↦ { node with batching := some ring }) hring, hworlds⟩

theorem broadcast_parallel (hlinks : Link.Parallel R link link') (moment : Moment) (h : Heartbeat)
    (hw : R w w') :
    Alike (Alike R) (node.broadcast link moment h w) (node.broadcast link' moment h w') := by
  rw [broadcast_eq, broadcast_eq]
  cases (choice node.settings node.membership moment h).1 with
  | nil => exact ⟨rfl, rfl, hw⟩
  | cons first rest => exact spread_parallel _ hlinks _ (first :: rest) hw

theorem pin_parallel (hlinks : Link.Parallel R link link') (version : Int64) (hw : R w w') :
    R (node.pin link version w) (node.pin link' version w') := by
  unfold pin
  cases node.batching with
  | none => exact hw
  | some ring => exact hlinks.pin version hw

theorem adopt_parallel (hlinks : Link.Parallel R link link') (metadata : Metadata) (hw : R w w') :
    Alike (Alike R) (node.adopt link metadata w) (node.adopt link' metadata w') := by
  unfold adopt
  cases node.metadata.adopt metadata with
  | mk stored isNewer =>
    cases isNewer with
    | true => exact ⟨rfl, rfl, pin_parallel _ hlinks _ hw⟩
    | false => exact ⟨rfl, rfl, hw⟩

theorem takeUpdate_parallel (hlinks : Link.Parallel R link link') (h : Heartbeat) (hw : R w w') :
    Alike R (node.takeUpdate link h w) (node.takeUpdate link' h w') := by
  unfold takeUpdate
  by_cases hupdate : h.isUpdate
  · rw [if_pos hupdate, if_pos hupdate]
    exact (node.adopt_parallel hlinks h.metadata hw).2
  · rw [if_neg hupdate, if_neg hupdate]
    exact ⟨rfl, hw⟩

/-- Whether the answer goes out makes no difference to the one who answers. -/
theorem compareSwap_parallel (hlinks : Link.Parallel R link link') (swap : Swap)
    (isRequest : Bool) (hw : R w w') :
    Alike R (node.compareSwap link swap isRequest w).2
      (node.compareSwap link' swap isRequest w').2 := by
  unfold compareSwap
  by_cases hnewer : swap.metadata.Newer node.metadata
  · rw [if_pos hnewer, if_pos hnewer]
    exact (node.adopt_parallel hlinks swap.metadata hw).2
  · rw [if_neg hnewer, if_neg hnewer]
    by_cases hanswer : node.metadata.Newer swap.metadata ∧ isRequest
    · rw [if_pos hanswer, if_pos hanswer]
      exact ⟨rfl, hlinks.send _ hw⟩
    · rw [if_neg hanswer, if_neg hanswer]
      exact ⟨rfl, hw⟩

/-- Whether the request goes out makes no difference to the one who asks. -/
theorem initiate_parallel (hlinks : Link.Parallel R link link') (moment : Moment) (hw : R w w') :
    Alike R (node.initiate link moment w).2 (node.initiate link' moment w').2 := by
  unfold initiate
  dsimp only
  cases (node.membership.look moment).2.find?
      fun member ↦ ¬member.SamePeer (node.membership.look moment).1.self with
  | none => exact ⟨rfl, hw⟩
  | some peer => exact ⟨rfl, hlinks.send _ hw⟩

theorem receive_parallel (hlinks : Link.Parallel R link link') (moment : Moment)
    (message : Message) (hw : R w w') :
    Alike R (node.receive link moment message w) (node.receive link' moment message w') := by
  cases hwave : message.wave? with
  | some h =>
    obtain ⟨htaken, hworlds⟩ := node.takeUpdate_parallel hlinks h hw
    have hmeeting : node.meeting link moment h w = node.meeting link' moment h w' := by
      unfold meeting
      rw [htaken]
    rw [receive_of_wave link node moment hwave, receive_of_wave link' node moment hwave,
      receiveHeartbeat_eq, receiveHeartbeat_eq, hmeeting]
    exact (broadcast_parallel _ hlinks moment h hworlds).2
  | none =>
    cases message with
    | heartbeat _ | forward _ _ => exact absurd hwave (by simp [Message.wave?])
    | swapRequest swap | swapResponse swap => exact node.compareSwap_parallel hlinks swap _ hw

theorem receiveUntimed_parallel (hlinks : Link.Parallel R link link') (message : Message)
    (hw : R w w') :
    Alike (Alike R) (node.receiveUntimed link message w)
      (node.receiveUntimed link' message w') := by
  cases message with
  | heartbeat h | forward h _ => exact ⟨rfl, node.takeUpdate_parallel hlinks h hw⟩
  | swapRequest swap | swapResponse swap =>
    exact ⟨rfl, node.compareSwap_parallel hlinks swap _ hw⟩

theorem tryHandle_parallel (hlinks : Link.Parallel R link link') (clock : Option Moment)
    (unit : Bytes) (hw : R w w') :
    Alike (Alike R) (node.tryHandle link clock unit w) (node.tryHandle link' clock unit w') := by
  cases hread : node.read? unit with
  | none => cases clock <;> simp only [tryHandle, handle, hread] <;> exact ⟨rfl, rfl, hw⟩
  | some message =>
    cases clock with
    | some moment =>
      simp only [tryHandle, handle, hread]
      exact ⟨rfl, node.receive_parallel hlinks moment message hw⟩
    | none =>
      simp only [tryHandle, hread]
      exact node.receiveUntimed_parallel hlinks message hw

theorem beat_parallel (hlinks : Link.Parallel R link link') (moment : Moment) (hw : R w w') :
    Alike R (node.beat link moment w) (node.beat link' moment w') := by
  obtain ⟨-, hnode, hworlds⟩ := (node.touch moment.now).broadcast_parallel hlinks moment
    (.alive (node.touch moment.now).self) hw
  unfold beat
  dsimp only
  rw [hnode]
  exact initiate_parallel _ hlinks moment hworlds

theorem publish_parallel (hlinks : Link.Parallel R link link') (moment : Moment) (data : Bytes)
    (hw : R w w') :
    Alike (Alike R) (node.publish link moment data w) (node.publish link' moment data w') := by
  obtain ⟨hreport, hrest⟩ := broadcast_parallel
    { node.touch moment.now with metadata := .publishedAt data moment.now } hlinks moment
    (.announcing (node.touch moment.now).self (.publishedAt data moment.now))
    (pin_parallel { node.touch moment.now with metadata := .publishedAt data moment.now } hlinks
      (Metadata.publishedAt data moment.now).version hw)
  exact ⟨congrArg (Except.map _) hreport, hrest⟩

theorem perform_parallel (hlinks : Link.Parallel R link link') (operation : Operation)
    (hw : R w w') :
    Alike (Alike R) (node.perform link operation w) (node.perform link' operation w') := by
  cases operation with
  | publish moment data =>
    obtain ⟨hresult, hrest⟩ := node.publish_parallel hlinks moment data hw
    exact ⟨congrArg Reply.published hresult, hrest⟩
  | beat moment => exact ⟨rfl, node.beat_parallel hlinks moment hw⟩
  | handle clock unit =>
    obtain ⟨hthrough, hrest⟩ := node.tryHandle_parallel hlinks clock unit hw
    exact ⟨congrArg Reply.handled hthrough, hrest⟩
  | set member now => exact ⟨rfl, rfl, hw⟩
  | nodes moment => exact ⟨rfl, rfl, hw⟩

/-- Nodes that are equal stay equal, operation by operation, and return the same. -/
theorem performAll_parallel (hlinks : Link.Parallel R link link') (operations : List Operation)
    (hw : R w w') :
    Alike (Alike R) (performAll link operations node w) (performAll link' operations node w') := by
  induction operations generalizing node w w' with
  | nil => exact ⟨rfl, rfl, hw⟩
  | cons operation rest ih =>
    obtain ⟨hreply, hnode, hworlds⟩ := node.perform_parallel hlinks operation hw
    obtain ⟨hreplies, hrest⟩ := ih (node.perform link operation w).2.1 hworlds
    unfold performAll
    dsimp only
    rw [← hnode]
    exact ⟨congrArg₂ List.cons hreply hreplies, hrest⟩

end Node

end Parallel

/-! ### Packets that are refused -/

namespace Journal

/-- A journal without the errors that packets met. -/
def outline (j : Journal) : Journal where
  entries := j.entries.map fun e ↦
    match e.1 with
    | .send s => (.send s, none)
    | _ => e

theorem sends_outline (j : Journal) : j.outline.sends = j.sends.map fun s ↦ (s.1, none) := by
  unfold outline sends
  rw [List.filterMap_map, List.map_filterMap]
  refine congrArg (List.filterMap · j.entries) (funext fun e ↦ ?_)
  obtain ⟨request, met⟩ := e
  cases request <;> rfl

theorem registrations_outline (j : Journal) : j.outline.registrations = j.registrations := by
  unfold outline registrations
  rw [List.filterMap_map]
  refine congrArg (List.filterMap · j.entries) (funext fun e ↦ ?_)
  obtain ⟨request, met⟩ := e
  cases request <;> rfl

/-- Journals that are equal but for the errors that packets met tell of the same packets. -/
theorem attempted_eq {j j' : Journal} (h : j.outline = j'.outline) :
    j.sends.map Prod.fst = j'.sends.map Prod.fst := by
  have hfirst (j : Journal) : j.outline.sends.map Prod.fst = j.sends.map Prod.fst := by
    rw [sends_outline, List.map_map]
    rfl
  rw [← hfirst, h, hfirst]

theorem registrations_eq {j j' : Journal} (h : j.outline = j'.outline) :
    j.registrations = j'.registrations := by
  rw [← registrations_outline, h, registrations_outline]

theorem outline_note (j : Journal) (request : Request) (result : Except Error Unit) :
    (j.note request result).outline =
      ⟨j.outline.entries ++ (Journal.outline (note {} request result)).entries⟩ := by
  cases result <;> simp [note, outline]

theorem outline_note_send (j : Journal) (s : Send) (result : Except Error Unit) :
    (j.note (.send s) result).outline = ⟨j.outline.entries ++ [(.send s, none)]⟩ := by
  cases result <;> simp [note, outline]

/-- What has been asked of the tables is the same, and the tables are. -/
def SameOutline (w w' : Journal × Offload) : Prop :=
  w.1.outline = w'.1.outline ∧ w.2 = w'.2

theorem sameOutline_record {rules rules' : Rules} {request : Request} {action : Action Offload}
    {w w' : Journal × Offload} (hw : SameOutline w w')
    (hverdict : verdict rules w.1 request = verdict rules' w'.1 request) :
    (record rules request action w).1 = (record rules' request action w').1 ∧
      SameOutline (record rules request action w).2 (record rules' request action w').2 := by
  obtain ⟨j, o⟩ := w
  obtain ⟨j', o'⟩ := w'
  obtain ⟨houtline, rfl⟩ : j.outline = j'.outline ∧ o = o' := hw
  have hnote (result : Except Error Unit) :
      (j.note request result).outline = (j'.note request result).outline := by
    rw [outline_note j, outline_note j', houtline]
  unfold record
  rw [← hverdict]
  cases verdict rules j request with
  | some error => exact ⟨rfl, hnote _, rfl⟩
  | none => exact ⟨rfl, hnote _, rfl⟩

/-- A packet leaves the same behind, whether it is refused or not. -/
theorem outline_send (rules : Rules) (s : Send) (w : Journal × Offload) :
    ((link rules Offload.link).send s w).2.1.outline =
        ⟨w.1.outline.entries ++ [(.send s, none)]⟩ ∧
      ((link rules Offload.link).send s w).2.2 = w.2 := by
  unfold link record
  dsimp only
  split <;> exact ⟨outline_note_send w.1 s _, rfl⟩

/-- Next to the tables alone, links differ in the packets that they refuse and in nothing else. -/
theorem parallel_link (rules : Rules) (refuse : Nat → Send → Option Error) :
    Link.Parallel SameOutline (link rules Offload.link)
      (link { rules with refuse } Offload.link) := by
  refine ⟨fun s w w' hw ↦ ?_, fun key targets w w' hw ↦ ?_, fun version w w' hw ↦ ?_⟩
  · obtain ⟨houtline, hoffload⟩ := outline_send rules s w
    obtain ⟨houtline', hoffload'⟩ := outline_send { rules with refuse } s w'
    exact ⟨by rw [houtline, houtline', hw.1], by rw [hoffload, hoffload', hw.2]⟩
  · refine sameOutline_record hw ?_
    unfold verdict
    dsimp only
    rw [registrations_eq hw.1]
  · exact (sameOutline_record hw rfl).2

end Journal

/-- Packets that fail to go out are missed by their targets and by nobody else. Let a node do any
operations twice, under two patterns of packets that are refused, with the same clocks, the same
orders of its members and the same refused registrations. What comes back is the same, the results
of publishing among it, and so are the node, the registered batches, the pinned version, the packets
that were attempted, in their order, and the registrations with their results. This is so after
each of the operations, as those up to it are operations too. -/
theorem send_failures_without_influence (rules : Rules) (refuse : Nat → Send → Option Error)
    (node : Node) (o : Offload) (operations : List Operation) :
    let one := Node.performAll (Journal.link rules Offload.link) operations node ({}, o)
    let other :=
      Node.performAll (Journal.link { rules with refuse } Offload.link) operations node ({}, o)
    one.1 = other.1 ∧ one.2.1 = other.2.1 ∧ one.2.2.2 = other.2.2.2 ∧
      one.2.2.1.sends.map Prod.fst = other.2.2.1.sends.map Prod.fst ∧
      one.2.2.1.registrations = other.2.2.1.registrations := by
  obtain ⟨hreplies, hnode, houtline, hoffload⟩ := node.performAll_parallel
    (Journal.parallel_link rules refuse) operations (w := ({}, o)) ⟨rfl, rfl⟩
  exact ⟨hreplies, hnode, hoffload, Journal.attempted_eq houtline,
    Journal.registrations_eq houtline⟩

end Gossip
