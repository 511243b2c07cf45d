import Gossip.Journal
import Gossip.Proofs.Metadata.Learning
import Gossip.Proofs.Operation

/-!
What a node asks of its link. Whatever a node is told to do, it only asks to send a heartbeat to
those it has chosen for it, to register groups of these, to send its metadata to a stored member or
to the one who asked for it, and to pin versions. So a property of the world that no such request
ends holds behind the operation, and a journal of the link shows no other request.
-/

set_option autoImplicit false
set_option relaxedAutoImplicit false

namespace Gossip

/-! ### Requests -/

section Links

variable {ω : Type}

/-- What a link does about a request. -/
def Link.ask (link : Link ω) : Request → Action ω
  | .send s => link.send s
  | .register key targets => link.register key targets
  | .pin version => link.pin version

/-- A property of the world stays whenever one of these requests is made. -/
def Link.Upholds (link : Link ω) (A : Request → Prop) (P : ω → Prop) : Prop :=
  ∀ r w, A r → P w → P (link.ask r w).2

theorem Journal.mem_entries_note {j : Journal} {r : Request} {result : Except Error Unit}
    {e : Request × Option Error} (he : e ∈ (j.note r result).entries) :
    e ∈ j.entries ∨ e.1 = r := by
  unfold note at he
  split at he <;>
  · rcases List.mem_append.mp he with he | he
    · exact Or.inl he
    · exact Or.inr (congrArg Prod.fst (List.mem_singleton.mp he))

/-- A journal shows only requests that have been made. -/
theorem Journal.upholds_link (rules : Rules) (inner : Link ω) (A : Request → Prop) :
    (Journal.link rules inner).Upholds A fun w ↦ ∀ e ∈ w.1.entries, A e.1 := by
  have hrecord (r : Request) (action : Action ω) (w : Journal × ω) (hr : A r)
      (hw : ∀ e ∈ w.1.entries, A e.1) : ∀ e ∈ (record rules r action w).2.1.entries, A e.1 := by
    unfold record
    split <;>
    · intro e he
      rcases mem_entries_note he with he | he
      · exact hw e he
      · exact he ▸ hr
  intro r w hr hw
  cases r with
  | send s => exact hrecord (.send s) _ w hr hw
  | register key targets => exact hrecord (.register key targets) _ w hr hw
  | pin version => exact hrecord (.pin version) _ w hr hw

theorem Journal.exists_entry_of_mem_registrations {j : Journal}
    {batch : (BatchKey × List Target) × Option Error} (hbatch : batch ∈ j.registrations) :
    ∃ e ∈ j.entries, e.1 = .register batch.1.1 batch.1.2 := by
  obtain ⟨e, he, hregistered⟩ := List.mem_filterMap.mp hbatch
  refine ⟨e, he, ?_⟩
  split at hregistered
  next key targets hkind =>
    rw [hkind, ← Option.some.inj hregistered]
  · exact absurd hregistered (by simp)

end Links

/-- What is asked for to spread a heartbeat to some members: packets that carry it, each to one of
them, and the registration of groups of them. -/
inductive Spreading (secret : String) (h : Heartbeat) (targets : List Member) : Request → Prop
  | packet (m : Member) (batch : Option BatchKey) (hm : m ∈ targets) :
    Spreading secret h targets
      (.send ⟨m.addr, m.port, (Packet.mk secret (.forward h batch)).encode⟩)
  | group (key : BatchKey) (group : List Member) (hgroup : group ⊆ targets) :
    Spreading secret h targets (.register key (group.map Member.target))

theorem Spreading.mono {secret : String} {h : Heartbeat} {targets more : List Member} {r : Request}
    (hr : Spreading secret h targets r) (hmore : targets ⊆ more) : Spreading secret h more r := by
  cases hr with
  | packet m batch hm => exact .packet m batch (hmore hm)
  | group key group hgroup => exact .group key group (List.Subset.trans hgroup hmore)

/-- What is asked for to broadcast a heartbeat. -/
def Broadcasting (settings : Settings) (membership : Membership) (moment : Moment) (h : Heartbeat) :
    Request → Prop :=
  Spreading settings.secret (onward settings membership moment h)
    (choice settings membership moment h).1

/-- What a node may ask for when it is told to do something. -/
inductive Node.Asks (node : Node) : Operation → Request → Prop
  | pin (operation : Operation) (version : Int64) : node.Asks operation (.pin version)
  | announcement (moment : Moment) (data : Bytes) (r : Request)
      (hr : Broadcasting node.settings (node.membership.touch moment.now) moment
        (.announcing node.self (.publishedAt data moment.now)) r) :
    node.Asks (.publish moment data) r
  | sign (moment : Moment) (r : Request)
      (hr : Broadcasting node.settings (node.membership.touch moment.now) moment
        (.alive node.self) r) :
    node.Asks (.beat moment) r
  | probe (moment : Moment) (m : Member)
      (hm : m ∈ (node.membership.touch moment.now).members) :
    node.Asks (.beat moment) (.send ⟨m.addr, m.port, node.requestPacket.encode⟩)
  | wave (moment : Moment) (unit : Bytes) (message : Message) (h : Heartbeat) (r : Request)
      (hread : node.read? unit = some message) (hwave : message.wave? = some h)
      (hr : Broadcasting node.settings (node.membership.set h.node moment.now).1 moment h r) :
    node.Asks (.handle (some moment) unit) r
  | answer (clock : Option Moment) (unit : Bytes) (swap : Swap)
      (hread : node.read? unit = some (.swapRequest swap)) :
    node.Asks (.handle clock unit)
      (.send ⟨swap.node.addr, swap.node.port, node.responsePacket.encode⟩)

/-! ### Spreading -/

section Upholding

variable {ω : Type} {link : Link ω} {A : Request → Prop} {P : ω → Prop}

theorem sendEach_upholds (hup : link.Upholds A P) {secret : String} {h : Heartbeat}
    {targets : List Member} (hasks : ∀ r, Spreading secret h targets r → A r) {w : ω} (hw : P w) :
    P (sendEach link (forwardPacket secret h).encode targets w) := by
  unfold sendEach
  induction targets generalizing w with
  | nil => exact hw
  | cons m rest ih =>
    have hsent := hup _ w (hasks _ (.packet m none List.mem_cons_self)) hw
    exact ih (fun r hr ↦ hasks r (hr.mono (List.subset_cons_self m rest))) hsent

theorem sendBatch_upholds (hup : link.Upholds A P) {secret : String} {h : Heartbeat}
    {group : List Member} (hasks : ∀ r, Spreading secret h group r → A r) (key : BatchKey) {w : ω}
    (hw : P w) : P (sendBatch link secret h key group w) := by
  cases group with
  | nil => exact hw
  | cons first rest => exact hup _ w (hasks _ (.packet first (some key) List.mem_cons_self)) hw

theorem dispatchGroups_upholds (hup : link.Upholds A P) {secret : String} {h : Heartbeat}
    {pieces : List (List Member)} (hasks : ∀ r, Spreading secret h pieces.flatten r → A r)
    (ring : KeyRing) {w : ω} (hw : P w) : P (dispatchGroups link secret h pieces ring w).2.2 := by
  induction pieces generalizing ring w with
  | nil => exact hw
  | cons group rest ih =>
    have hfirst : ∀ r, Spreading secret h group r → A r :=
      fun r hr ↦ hasks r (hr.mono (List.subset_append_left group rest.flatten))
    have hrest : ∀ r, Spreading secret h rest.flatten r → A r :=
      fun r hr ↦ hasks r (hr.mono (List.subset_append_right group rest.flatten))
    have hregistered : P (link.register ring.advance.key (group.map Member.target) w).2 :=
      hup (.register _ _) w (hfirst _ (.group _ group (List.Subset.refl group))) hw
    unfold dispatchGroups
    dsimp only
    cases hregister : link.register ring.advance.key (group.map Member.target) w with
    | mk result w₁ =>
      rw [hregister] at hregistered
      cases result with
      | error error => exact hregistered
      | ok u =>
        cases u
        exact ih hrest ring.advance (sendBatch_upholds hup hfirst _ hregistered)

namespace Node

variable (node : Node)

theorem spread_upholds (hup : link.Upholds A P) {h : Heartbeat} {targets : List Member}
    (hasks : ∀ r, Spreading node.settings.secret h targets r → A r) {w : ω} (hw : P w) :
    P (node.spread link h targets w).2.2 := by
  unfold spread
  cases node.batching with
  | none => exact sendEach_upholds hup hasks hw
  | some ring =>
    rw [← flatten_groups targets] at hasks
    exact dispatchGroups_upholds hup hasks ring hw

theorem broadcast_upholds (hup : link.Upholds A P) (moment : Moment) {h : Heartbeat}
    (hasks : ∀ r, Broadcasting node.settings node.membership moment h r → A r) {w : ω} (hw : P w) :
    P (node.broadcast link moment h w).2.2 := by
  rw [broadcast_eq]
  unfold Broadcasting at hasks
  split
  · exact hw
  next first rest hchoice =>
    rw [hchoice] at hasks
    exact spread_upholds { node with membership := (node.membership.look moment).1 } hup hasks hw

/-! ### Metadata -/

theorem pin_upholds (hup : link.Upholds A P) {version : Int64} (hasks : A (.pin version)) {w : ω}
    (hw : P w) : P (node.pin link version w) := by
  unfold pin
  split
  · exact hw
  · exact hup (.pin version) w hasks hw

theorem adopt_upholds (hup : link.Upholds A P) (hasks : ∀ version, A (.pin version)) (m : Metadata)
    {w : ω} (hw : P w) : P (node.adopt link m w).2.2 := by
  unfold adopt
  split
  · exact pin_upholds _ hup (hasks _) hw
  · exact hw

theorem takeUpdate_upholds (hup : link.Upholds A P) (hasks : ∀ version, A (.pin version))
    (h : Heartbeat) {w : ω} (hw : P w) : P (node.takeUpdate link h w).2 := by
  unfold takeUpdate
  split
  · exact node.adopt_upholds hup hasks h.metadata hw
  · exact hw

theorem compareSwap_upholds (hup : link.Upholds A P) (hasks : ∀ version, A (.pin version))
    (swap : Swap) {isRequest : Bool} (hanswer : isRequest = true →
      A (.send ⟨swap.node.addr, swap.node.port, node.responsePacket.encode⟩)) {w : ω} (hw : P w) :
    P (node.compareSwap link swap isRequest w).2.2 := by
  unfold compareSwap
  split
  · exact node.adopt_upholds hup hasks swap.metadata hw
  · split
    next h => exact hup _ w (hanswer h.2) hw
    · exact hw

theorem initiate_upholds (hup : link.Upholds A P) (moment : Moment)
    (hasks : ∀ m ∈ node.membership.members,
      A (.send ⟨m.addr, m.port, node.requestPacket.encode⟩)) {w : ω} (hw : P w) :
    P (node.initiate link moment w).2.2 := by
  unfold initiate
  dsimp only
  split
  · exact hw
  next peer hpeer =>
    have hlive := Membership.mem_members_of_mem_look (List.mem_of_find?_eq_some hpeer)
    exact hup _ w (hasks peer hlive) hw

/-! ### Operations -/

theorem receive_upholds (hup : link.Upholds A P) (moment : Moment) {unit : Bytes}
    {message : Message} (hread : node.read? unit = some message)
    (hasks : ∀ r, node.Asks (.handle (some moment) unit) r → A r) {w : ω} (hw : P w) :
    P (node.receive link moment message w).2 := by
  have hpins (version : Int64) : A (.pin version) := hasks _ (.pin _ version)
  cases hwave : message.wave? with
  | some h =>
    rw [node.receive_of_wave link moment hwave, receiveHeartbeat_eq]
    refine broadcast_upholds _ hup moment (fun r hr ↦ ?_) (node.takeUpdate_upholds hup hpins h hw)
    unfold meeting at hr
    rw [(node.sameStores_takeUpdate link h w).settings] at hr
    exact hasks r (.wave moment unit message h r hread hwave hr)
  | none =>
    cases message with
    | heartbeat _ | forward _ _ => exact absurd hwave (by simp [Message.wave?])
    | swapRequest swap =>
      exact node.compareSwap_upholds hup hpins swap (fun _ ↦ hasks _ (.answer _ unit swap hread)) hw
    | swapResponse swap => exact node.compareSwap_upholds hup hpins swap (by simp) hw

theorem receiveUntimed_upholds (hup : link.Upholds A P) {unit : Bytes} {message : Message}
    (hread : node.read? unit = some message)
    (hasks : ∀ r, node.Asks (.handle none unit) r → A r) {w : ω} (hw : P w) :
    P (node.receiveUntimed link message w).2.2 := by
  have hpins (version : Int64) : A (.pin version) := hasks _ (.pin _ version)
  cases message with
  | heartbeat h | forward h _ => exact node.takeUpdate_upholds hup hpins h hw
  | swapRequest swap =>
    exact node.compareSwap_upholds hup hpins swap (fun _ ↦ hasks _ (.answer _ unit swap hread)) hw
  | swapResponse swap => exact node.compareSwap_upholds hup hpins swap (by simp) hw

theorem tryHandle_upholds (hup : link.Upholds A P) (clock : Option Moment) (unit : Bytes)
    (hasks : ∀ r, node.Asks (.handle clock unit) r → A r) {w : ω} (hw : P w) :
    P (node.tryHandle link clock unit w).2.2 := by
  cases hread : node.read? unit with
  | none => cases clock <;> simp only [tryHandle, handle, hread] <;> exact hw
  | some message =>
    cases clock with
    | some moment =>
      simp only [tryHandle, handle, hread]
      exact node.receive_upholds hup moment hread hasks hw
    | none =>
      simp only [tryHandle, hread]
      exact node.receiveUntimed_upholds hup hread hasks hw

/-- A request to compare tells of no more than settings, identity and metadata. -/
theorem requestPacket_congr {node other : Node} (hsettings : node.settings = other.settings)
    (hself : node.self = other.self) (hmetadata : node.metadata = other.metadata) :
    node.requestPacket = other.requestPacket := by
  unfold requestPacket swap
  rw [hsettings, hself, hmetadata]

theorem beat_upholds (hup : link.Upholds A P) (moment : Moment)
    (hasks : ∀ r, node.Asks (.beat moment) r → A r) {w : ω} (hw : P w) :
    P (node.beat link moment w).2 := by
  have hsame := sameStores_broadcast link (node.touch moment.now) moment
    (.alive (node.touch moment.now).self) w
  have hmetadata := metadata_broadcast link (node.touch moment.now) moment
    (.alive (node.touch moment.now).self) w
  have hself := congrArg Membership.self hsame.membership
  have hrequest : (broadcast link moment (node.touch moment.now)
      (.alive (node.touch moment.now).self) w).2.1.requestPacket = node.requestPacket :=
    requestPacket_congr hsame.settings hself hmetadata
  unfold beat
  dsimp only
  refine initiate_upholds _ hup moment (fun m hm ↦ ?_) ?_
  · rw [hsame.membership] at hm
    rw [hrequest]
    exact hasks _ (.probe moment m (Membership.mem_members_of_mem_expire hm))
  · exact broadcast_upholds _ hup moment (fun r hr ↦ hasks r (.sign moment r hr)) hw

theorem publish_upholds (hup : link.Upholds A P) (moment : Moment) (data : Bytes)
    (hasks : ∀ r, node.Asks (.publish moment data) r → A r) {w : ω} (hw : P w) :
    P (node.publish link moment data w).2.2 :=
  broadcast_upholds _ hup moment (fun r hr ↦ hasks r (.announcement moment data r hr))
    (pin_upholds _ hup (hasks _ (.pin _ _)) hw)

/-- No operation asks for anything else. -/
theorem perform_upholds (hup : link.Upholds A P) {operation : Operation}
    (hasks : ∀ r, node.Asks operation r → A r) {w : ω} (hw : P w) :
    P (node.perform link operation w).2.2 := by
  cases operation with
  | publish moment data => exact node.publish_upholds hup moment data hasks hw
  | beat moment => exact node.beat_upholds hup moment hasks hw
  | handle clock unit => exact node.tryHandle_upholds hup clock unit hasks hw
  | set member now => exact hw
  | nodes moment => exact hw

/-- Assumes: an invariant of the node, which holds at first, and under which it asks for nothing
else. -/
theorem performAll_upholds (hup : link.Upholds A P) {I : Node → Prop}
    (hstep : ∀ node operation w, I node → I (node.perform link operation w).2.1)
    (hasks : ∀ node operation r, I node → node.Asks operation r → A r) {node : Node}
    (hnode : I node) (operations : List Operation) {w : ω} (hw : P w) :
    I (performAll link operations node w).2.1 ∧ P (performAll link operations node w).2.2 := by
  induction operations generalizing node w with
  | nil => exact ⟨hnode, hw⟩
  | cons operation rest ih =>
    exact ih (hstep node operation w hnode)
      (node.perform_upholds hup (fun r ↦ hasks node operation r hnode) hw)

end Node

end Upholding

end Gossip
