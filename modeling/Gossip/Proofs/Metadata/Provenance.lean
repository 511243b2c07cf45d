import Gossip.Proofs.Metadata.Publication
import Gossip.Proofs.Requests

/-!
Where metadata comes from. A node tells others only of metadata that it stores, or that it has just
been told of; and what it stores it has published, or has been told of. So whatever is stored or in
flight anywhere has been published somewhere, however parcels are handed over, lost or doubled, and
whichever packets, batches and pins are refused. Where no two publications share a version, a
version therefore stands for one value in the whole cluster.
-/

set_option autoImplicit false
set_option relaxedAutoImplicit false

namespace Gossip

/-! ### What a node tells -/

/-- The metadata that the message makes count, if any, is known. -/
def Message.Tells (K : Metadata → Prop) (message : Message) : Prop :=
  ∀ m, message.news? = some m → K m

/-- Whatever is asked of a link that sends packets of known metadata only, a property of the world
stays. -/
structure Link.Keeps {ω : Type} (link : Link ω) (K : Metadata → Prop) (P : ω → Prop) : Prop where
  send : ∀ (p : Packet) (addr : String) (port : UInt16) (w : ω), p.message.Tells K → P w →
    P (link.send ⟨addr, port, p.encode⟩ w).2
  register : ∀ key targets w, P w → P (link.register key targets w).2
  pin : ∀ version w, P w → P (link.pin version w).2

/-- A request sends nothing but packets of known metadata. -/
def Request.Tells (K : Metadata → Prop) : Request → Prop
  | .send s => ∃ p : Packet, s.bytes = p.encode ∧ p.message.Tells K
  | .register _ _ | .pin _ => True

/-- Whatever an operation brings up is known. -/
def Operation.Tells (K : Metadata → Prop) (node : Node) : Operation → Prop
  | .publish moment data => K (.publishedAt data moment.now)
  | .handle _ unit => ∀ message, node.read? unit = some message → message.Tells K
  | .beat _ | .set _ _ | .nodes _ => True

section Telling

variable {K : Metadata → Prop}

theorem Link.Keeps.upholds {ω : Type} {link : Link ω} {P : ω → Prop} (hkeeps : link.Keeps K P) :
    link.Upholds (Request.Tells K) P := by
  intro r w hr hw
  cases r with
  | send s =>
    obtain ⟨addr, port, bytes⟩ := s
    obtain ⟨p, hp, htells⟩ := hr
    obtain rfl : bytes = p.encode := hp
    exact hkeeps.send p addr port w htells hw
  | register key targets => exact hkeeps.register key targets w hw
  | pin version => exact hkeeps.pin version w hw

theorem Broadcasting.tells {settings : Settings} {membership : Membership} {moment : Moment}
    {h : Heartbeat} {r : Request} (hr : Broadcasting settings membership moment h r)
    (htells : ∀ m, h.news? = some m → K m) : r.Tells K := by
  cases hr with
  | packet m batch hm => exact ⟨_, rfl, htells⟩
  | group key group hgroup => trivial

/-- A node that knows what it stores and is told asks to tell of nothing else. -/
theorem Node.tells_of_asks {node : Node} (hstored : K node.metadata) {operation : Operation}
    (htells : operation.Tells K node) {r : Request} (hr : node.Asks operation r) : r.Tells K := by
  cases hr with
  | pin _ version => trivial
  | announcement moment data _ hr => exact hr.tells fun m hm ↦ Option.some.inj hm ▸ htells
  | sign moment _ hr =>
    exact hr.tells fun m hm ↦ absurd hm (by simp [Heartbeat.alive, Heartbeat.news?])
  | probe moment m hm => exact ⟨_, rfl, fun m hm ↦ Option.some.inj hm ▸ hstored⟩
  | wave moment unit message h _ hread hwave hr =>
    have hnews := htells message hread
    unfold Message.Tells at hnews
    rw [Message.news?_of_wave hwave] at hnews
    exact hr.tells hnews
  | answer clock unit swap hread => exact ⟨_, rfl, fun m hm ↦ Option.some.inj hm ▸ hstored⟩

end Telling

/-! ### What is on the network -/

/-- Whatever message is read from the bytes tells of known metadata only. -/
def BytesTell (K : Metadata → Prop) (bytes : Bytes) : Prop :=
  ∀ message ∈ readings bytes, message.Tells K

section Bytes

variable {K : Metadata → Prop}

theorem bytesTell_of_carries {p : Packet} {bytes : Bytes} (hcarries : Carries p bytes)
    (htells : p.message.Tells K) : BytesTell K bytes := by
  intro message hmessage
  rw [readings_of_carries hcarries] at hmessage
  have heq : message = p.message := by simpa using hmessage
  exact heq ▸ htells

/-- Whatever a packet becomes behind the program still carries it. -/
theorem Offload.carries_of_mem_parcels (o : Offload) {p : Packet} {addr : String} {port : UInt16}
    {q : Parcel} (hq : q ∈ o.parcels ⟨addr, port, p.encode⟩) : Carries p q.bytes := by
  unfold parcels at hq
  split at hq
  · obtain ⟨i, hi, rfl⟩ := List.mem_mapIdx.mp hq
    exact carries_stampReplica p i
  · rw [List.mem_singleton.mp hq]
    exact carries_encode p

theorem Egress.keeps_link :
    Egress.link.Keeps K fun e ↦ ∀ q ∈ e.parcels, BytesTell K q.bytes := by
  refine ⟨fun p addr port e htells he q hq ↦ ?_, fun key targets e he ↦ ?_, fun _ _ he ↦ he⟩
  · rcases List.mem_append.mp hq with hq | hq
    · exact he q hq
    · exact bytesTell_of_carries (e.offload.carries_of_mem_parcels hq) htells
  · unfold Egress.link
    dsimp only
    split <;> exact he

/-- A link that refuses some of what it is asked for keeps what it keeps otherwise. -/
theorem Journal.keeps_link {ω : Type} {link : Link ω} {P : ω → Prop} (hkeeps : link.Keeps K P)
    (rules : Rules) : (Journal.link rules link).Keeps K fun w ↦ P w.2 := by
  have hrecord {request : Request} {action : Action ω} {w : Journal × ω} (hw : P w.2)
      (haction : P (action w.2).2) : P (record rules request action w).2.2 := by
    unfold record
    split
    · exact hw
    · exact haction
  have hpin (version : Int64) {w : ω} (hw : P w) :
      P ((if rules.keepPin then link.pin version else Action.skip) w).2 := by
    split
    · exact hkeeps.pin version w hw
    · exact hw
  exact ⟨fun p addr port w htells hw ↦ hrecord hw (hkeeps.send p addr port w.2 htells hw),
    fun key targets w hw ↦ hrecord hw (hkeeps.register key targets w.2 hw),
    fun version w hw ↦ hrecord hw (hpin version hw)⟩

end Bytes

/-! ### Sites under rules -/

/-- What a node does: it publishes a payload, it beats, or it handles the bytes of a parcel, with a
clock that can be read or without one. -/
inductive Deed where
  | publish (moment : Moment) (data : Bytes)
  | beat (moment : Moment)
  | handle (clock : Option Moment) (bytes : Bytes)

/-- Whatever the deed brings up is known. -/
def Deed.Tells (K : Metadata → Prop) : Deed → Prop
  | .publish moment data => K (.publishedAt data moment.now)
  | .beat _ => True
  | .handle _ bytes => BytesTell K bytes

namespace Site

/-- What a node does next to a link. -/
def act {ω : Type} (s : Site) (link : Link ω) (w : ω) : Deed → Node × ω
  | .publish moment data => (s.node.publish link moment data w).2
  | .beat moment => s.node.beat link moment w
  | .handle clock bytes => (s.node.tryHandle link clock (s.unitOf bytes) w).2

/-- The site after its node has done something while rules have refused some of what it asked for,
and what has left the site. -/
def perform (s : Site) (rules : Rules) (deed : Deed) : Site × List Parcel :=
  let (node, _, e) := s.act (Journal.link rules Egress.link) ({}, ⟨s.offload, []⟩) deed
  ({ s with node, offload := e.offload }, e.parcels)

variable {K : Metadata → Prop} {s : Site} {deed : Deed}

theorem known_act {ω : Type} {link : Link ω} {P : ω → Prop} (hkeeps : link.Keeps K P)
    (hstored : K s.node.metadata) (htells : deed.Tells K) {w : ω} (hw : P w) :
    K (s.act link w deed).1.metadata ∧ P (s.act link w deed).2 := by
  have hasks {operation : Operation} (htells : operation.Tells K s.node) (r : Request)
      (hr : s.node.Asks operation r) : r.Tells K := Node.tells_of_asks hstored htells hr
  cases deed with
  | publish moment data =>
    refine ⟨?_, s.node.publish_upholds hkeeps.upholds moment data (hasks htells) hw⟩
    exact (s.node.metadata_publish link moment data w).symm ▸ htells
  | beat moment =>
    refine ⟨?_, s.node.beat_upholds hkeeps.upholds moment (hasks trivial) hw⟩
    exact (s.node.metadata_beat link moment w).symm ▸ hstored
  | handle clock bytes =>
    have hread : ∀ message, s.node.read? (s.unitOf bytes) = some message → message.Tells K :=
      fun message h ↦ htells message (mem_readings_of_hears h)
    refine ⟨?_, s.node.tryHandle_upholds hkeeps.upholds clock _ (hasks hread) hw⟩
    have hlearnt := s.node.metadata_tryHandle link clock (s.unitOf bytes) w
    unfold act
    dsimp only
    rw [hlearnt]
    rcases s.node.metadata.learn_eq_or ((s.node.read? (s.unitOf bytes)).bind Message.news?) with
      hsame | hnews
    · exact hsame.symm ▸ hstored
    · obtain ⟨message, hmessage, hnew⟩ := Option.bind_eq_some_iff.mp hnews
      exact hread message hmessage _ hnew

/-- Where what is stored and what is brought up is known, so is what is stored and sent then. -/
theorem known_perform (rules : Rules) (hstored : K s.node.metadata) (htells : deed.Tells K) :
    K (s.perform rules deed).1.node.metadata ∧
      ∀ p ∈ (s.perform rules deed).2, BytesTell K p.bytes :=
  known_act (Journal.keeps_link Egress.keeps_link rules) hstored htells (by simp)

end Site

end Gossip
