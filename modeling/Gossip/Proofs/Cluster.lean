import Gossip.Proofs.Handling
import Mathlib.Data.Multiset.AddSub

/-!
Nodes on a network. A cluster is its sites and what is in flight between them. A parcel in flight
is handed to the site that has its key, or it is lost; what leaves the site then is in flight in
its turn. Parcels are told apart by where they come from: each has its number among those that
left together, in front of the lineage of the parcel that caused them. Nodes never see a lineage.
-/

set_option autoImplicit false
set_option relaxedAutoImplicit false

namespace Gossip

/-- A node on the network, with the key of its endpoint and the program attached to it. A node
that broadcasts without the program registers nothing there. -/
structure Site where
  key : String
  node : Node
  offload : Offload

namespace Site

/-- The unit in which the endpoint hands up the bytes of a parcel. -/
def unitOf (s : Site) (bytes : Bytes) : Bytes :=
  if s.node.settings.mode.receivesFrames then frame bytes else bytes

/-- The message that the node finds in the bytes of a parcel, if they are meant for it. -/
def hears (s : Site) (bytes : Bytes) : Option Message := s.node.read? (s.unitOf bytes)

/-- The site after it has handled the bytes of a parcel, and what has left it. -/
def hand (s : Site) (moment : Moment) (bytes : Bytes) : Site × List Parcel :=
  let (node, e) := s.node.handle Egress.link moment (s.unitOf bytes) ⟨s.offload, []⟩
  ({ s with node, offload := e.offload }, e.parcels)

/-- The site after it has broadcast a heartbeat, and what has left it. -/
def launch (s : Site) (moment : Moment) (h : Heartbeat) : Site × List Parcel :=
  let (_, node, e) := s.node.broadcast Egress.link moment h ⟨s.offload, []⟩
  ({ s with node, offload := e.offload }, e.parcels)

/-- What a node keeps while it handles units. -/
structure Continues (s before : Site) : Prop where
  key : s.key = before.key
  settings : s.node.settings = before.node.settings
  self : s.node.self = before.node.self

theorem Continues.refl (s : Site) : Continues s s := ⟨rfl, rfl, rfl⟩

theorem Continues.trans {s t u : Site} (hst : Continues s t) (htu : Continues t u) :
    Continues s u :=
  ⟨hst.key.trans htu.key, hst.settings.trans htu.settings, hst.self.trans htu.self⟩

/-! ### Handing up a parcel -/

section Hand

variable {s : Site} {bytes : Bytes}

theorem hears_of_carries {p : Packet} (h : Carries p bytes) :
    s.hears bytes = if p.secret = s.node.settings.secret then some p.message else none := by
  obtain ⟨hraw, payload, hstrip, hframed⟩ := h
  unfold hears unitOf Node.read? Node.payload
  cases s.node.settings.mode.receivesFrames with
  | true => simp [hstrip, hframed]
  | false => simp [hraw]

theorem hand_of_hears_none (moment : Moment) (h : s.hears bytes = none) :
    s.hand moment bytes = (s, []) := by
  unfold hears at h
  unfold hand Node.handle
  simp only [h]

theorem hand_of_hears (moment : Moment) {message : Message} (h : s.hears bytes = some message) :
    s.hand moment bytes =
      ({ s with
          node := (s.node.receive Egress.link moment message ⟨s.offload, []⟩).1
          offload := (s.node.receive Egress.link moment message ⟨s.offload, []⟩).2.offload },
        (s.node.receive Egress.link moment message ⟨s.offload, []⟩).2.parcels) := by
  unfold hears at h
  unfold hand Node.handle
  simp only [h]

/-- A wave is spread by the node that knows its sender. -/
theorem hand_spreads (moment : Moment) {message : Message} {h : Heartbeat}
    (hhears : s.hears bytes = some message) (hwave : message.wave? = some h) :
    Spreads s.node.settings (s.node.membership.set h.node moment.now).1 moment h
      (s.hand moment bytes).2 := by
  obtain ⟨sent, hparcels, hspreads⟩ :=
    s.node.parcels_receive_of_wave moment hwave ⟨s.offload, []⟩
  rw [hand_of_hears moment hhears, hparcels]
  exact hspreads

/-- Only a wave changes the members that a node stores: its sender is stored, and those that are too
old are dropped. -/
theorem membership_hand (s : Site) (moment : Moment) (bytes : Bytes) :
    (s.hand moment bytes).1.node.membership = s.node.membership ∨
      ∃ message h, s.hears bytes = some message ∧ message.wave? = some h ∧
        (s.hand moment bytes).1.node.membership =
          ((s.node.membership.set h.node moment.now).1.look moment).1 := by
  cases hhears : s.hears bytes with
  | none =>
    rw [hand_of_hears_none moment hhears]
    exact Or.inl rfl
  | some message =>
    rw [hand_of_hears moment hhears]
    cases hwave : message.wave? with
    | none =>
      have hsame := s.node.sameStores_receive_of_swap Egress.link moment hwave ⟨s.offload, []⟩
      exact Or.inl hsame.membership
    | some h =>
      have hsame := s.node.sameStores_receive_of_wave Egress.link moment hwave ⟨s.offload, []⟩
      exact Or.inr ⟨message, h, rfl, hwave, hsame.membership⟩

theorem continues_hand (s : Site) (moment : Moment) (bytes : Bytes) :
    Continues (s.hand moment bytes).1 s := by
  cases hhears : s.hears bytes with
  | none =>
    rw [hand_of_hears_none moment hhears]
    exact .refl s
  | some message =>
    rw [hand_of_hears moment hhears]
    cases hwave : message.wave? with
    | none =>
      have hsame := s.node.sameStores_receive_of_swap Egress.link moment hwave ⟨s.offload, []⟩
      have hself := congrArg Membership.self hsame.membership
      exact ⟨rfl, hsame.settings, hself⟩
    | some h =>
      have hsame := s.node.sameStores_receive_of_wave Egress.link moment hwave ⟨s.offload, []⟩
      have hself := congrArg Membership.self hsame.membership
      exact ⟨rfl, hsame.settings, hself⟩

end Hand

/-! ### Starting a wave -/

theorem launch_spreads (s : Site) (moment : Moment) (h : Heartbeat) :
    Spreads s.node.settings s.node.membership moment h (s.launch moment h).2 := by
  obtain ⟨report, node, o, sent, hbroadcast, hspreads⟩ :=
    Node.broadcast_spreads moment s.node h ⟨s.offload, []⟩
  unfold launch
  rw [hbroadcast]
  exact hspreads

theorem continues_launch (s : Site) (moment : Moment) (h : Heartbeat) :
    Continues (s.launch moment h).1 s := by
  have hsame := s.node.sameStores_broadcast Egress.link moment h ⟨s.offload, []⟩
  have hself := congrArg Membership.self hsame.membership
  exact ⟨rfl, hsame.settings, hself⟩

end Site

/-! ### The network -/

/-- A parcel on the network, with the way it has come. -/
structure InFlight extends Parcel where
  lineage : List ℕ
  deriving DecidableEq

/-- The parcels that leave together, each with its number in front of a lineage. -/
def numbered (lineage : List ℕ) (sent : List Parcel) : List InFlight :=
  sent.mapIdx fun i p ↦ ⟨p, i :: lineage⟩

theorem map_toParcel_numbered (lineage : List ℕ) (sent : List Parcel) :
    (numbered lineage sent).map InFlight.toParcel = sent := by
  have h := map_mapIdx (f := fun i p ↦ (⟨p, i :: lineage⟩ : InFlight))
    (g := InFlight.toParcel) (k := id) (fun _ _ ↦ rfl) sent
  rwa [List.map_id] at h

theorem mem_numbered {lineage : List ℕ} {sent : List Parcel} {p : InFlight} :
    p ∈ numbered lineage sent ↔ ∃ i, sent[i]? = some p.toParcel ∧ p.lineage = i :: lineage := by
  rw [numbered, List.mem_mapIdx]
  constructor
  · rintro ⟨i, hi, rfl⟩
    exact ⟨i, List.getElem?_eq_getElem hi, rfl⟩
  · rintro ⟨i, hp, hlineage⟩
    obtain ⟨hi, hget⟩ := List.getElem?_eq_some_iff.mp hp
    exact ⟨i, hi, by rw [hget, ← hlineage]⟩

theorem toParcel_mem_of_mem_numbered {lineage : List ℕ} {sent : List Parcel} {p : InFlight}
    (hp : p ∈ numbered lineage sent) : p.toParcel ∈ sent := by
  obtain ⟨i, hget, -⟩ := mem_numbered.mp hp
  exact List.mem_of_getElem? hget

/-- The sites of a cluster, and the parcels in flight between them. -/
structure Cluster (n : ℕ) where
  sites : Fin n → Site
  flight : Multiset InFlight

namespace Cluster

variable {n : ℕ}

/-- A site handles a parcel in flight. -/
def deliver (c : Cluster n) (i : Fin n) (moment : Moment) (p : InFlight) : Cluster n where
  sites := Function.update c.sites i ((c.sites i).hand moment p.bytes).1
  flight := c.flight.erase p + numbered p.lineage ((c.sites i).hand moment p.bytes).2

/-- A site starts a wave, from whose root all its lineages come. -/
def launch (c : Cluster n) (i : Fin n) (moment : Moment) (h : Heartbeat) (root : List ℕ) :
    Cluster n where
  sites := Function.update c.sites i ((c.sites i).launch moment h).1
  flight := c.flight + numbered root ((c.sites i).launch moment h).2

/-- A parcel never arrives. -/
def lose (c : Cluster n) (p : InFlight) : Cluster n := { c with flight := c.flight.erase p }

/-- What happens while nobody starts anything: a parcel is handed to a site that has its key, or
it is lost. -/
inductive Step : Cluster n → Cluster n → Prop
  | deliver (c : Cluster n) (i : Fin n) (moment : Moment) {p : InFlight} (hp : p ∈ c.flight)
      (hkey : (c.sites i).key = p.key) : Step c (c.deliver i moment p)
  | lose (c : Cluster n) {p : InFlight} (hp : p ∈ c.flight) : Step c (c.lose p)

theorem flight_deliver {c : Cluster n} {p : InFlight} {rest : Multiset InFlight}
    (hflight : c.flight = p ::ₘ rest) (i : Fin n) (moment : Moment) :
    (c.deliver i moment p).flight =
      rest + numbered p.lineage ((c.sites i).hand moment p.bytes).2 := by
  rw [deliver, hflight, Multiset.erase_cons_head]

theorem mem_flight_deliver {c : Cluster n} {i : Fin n} {moment : Moment} {p q : InFlight} :
    q ∈ (c.deliver i moment p).flight ↔
      q ∈ c.flight.erase p ∨ q ∈ numbered p.lineage ((c.sites i).hand moment p.bytes).2 := by
  rw [deliver, Multiset.mem_add, Multiset.mem_coe]

theorem sites_deliver (c : Cluster n) (i : Fin n) (moment : Moment) (p : InFlight) (j : Fin n) :
    (c.deliver i moment p).sites j =
      if j = i then ((c.sites i).hand moment p.bytes).1 else c.sites j :=
  Function.update_apply c.sites i _ j

theorem sites_launch (c : Cluster n) (i : Fin n) (moment : Moment) (h : Heartbeat)
    (root : List ℕ) (j : Fin n) :
    (c.launch i moment h root).sites j =
      if j = i then ((c.sites i).launch moment h).1 else c.sites j :=
  Function.update_apply c.sites i _ j

theorem continues_deliver (c : Cluster n) (i : Fin n) (moment : Moment) (p : InFlight)
    (j : Fin n) : ((c.deliver i moment p).sites j).Continues (c.sites j) := by
  rw [sites_deliver]
  by_cases h : j = i
  · rw [if_pos h, h]
    exact Site.continues_hand _ _ _
  · rw [if_neg h]
    exact .refl _

theorem continues_launch (c : Cluster n) (i : Fin n) (moment : Moment) (h : Heartbeat)
    (root : List ℕ) (j : Fin n) : ((c.launch i moment h root).sites j).Continues (c.sites j) := by
  rw [sites_launch]
  by_cases hj : j = i
  · rw [if_pos hj, hj]
    exact Site.continues_launch _ _ _
  · rw [if_neg hj]
    exact .refl _

end Cluster

/-! ### Hops -/

/-- A parcel handed to a site: to which, when, and what parcel. -/
structure Hop where
  site : Site
  moment : Moment
  parcel : InFlight

namespace Hop

/-- What leaves the site then. -/
def sent (hop : Hop) : List Parcel := (hop.site.hand hop.moment hop.parcel.bytes).2

/-- What leaves the site then, in flight. -/
def children (hop : Hop) : List InFlight := numbered hop.parcel.lineage hop.sent

/-- The heartbeat of the wave that the site takes in, if it is one. -/
def wave? (hop : Hop) : Option Heartbeat :=
  (hop.site.hears hop.parcel.bytes).bind Message.wave?

theorem sent_of_hears_none {hop : Hop} (h : hop.site.hears hop.parcel.bytes = none) :
    hop.sent = [] := by
  rw [sent, Site.hand_of_hears_none hop.moment h]

theorem wave?_of_carries (hop : Hop) {h : Heartbeat} {batch : Option BatchKey}
    (hcarries : Carries ⟨hop.site.node.settings.secret, .forward h batch⟩ hop.parcel.bytes) :
    hop.wave? = some h := by
  rw [wave?, hop.site.hears_of_carries hcarries, if_pos rfl]
  rfl

/-- A forward is taken in, or, under another secret, not at all. -/
theorem wave?_or_silent (hop : Hop) {secret : String} {h : Heartbeat} {batch : Option BatchKey}
    (hcarries : Carries ⟨secret, .forward h batch⟩ hop.parcel.bytes) :
    hop.wave? = some h ∨ hop.sent = [] := by
  by_cases hsecret : secret = hop.site.node.settings.secret
  · rw [hsecret] at hcarries
    exact Or.inl (hop.wave?_of_carries hcarries)
  · have hhears := hop.site.hears_of_carries hcarries
    rw [if_neg hsecret] at hhears
    exact Or.inr (sent_of_hears_none hhears)

theorem sent_spreads {hop : Hop} {h : Heartbeat} (hwave : hop.wave? = some h) :
    Spreads hop.site.node.settings (hop.site.node.membership.set h.node hop.moment.now).1
      hop.moment h hop.sent := by
  obtain ⟨message, hhears, hmessage⟩ := Option.bind_eq_some_iff.mp hwave
  exact Site.hand_spreads hop.moment hhears hmessage

theorem keys_sent (hop : Hop) {h : Heartbeat} {batch : Option BatchKey}
    (hcarries : Carries ⟨hop.site.node.settings.secret, .forward h batch⟩ hop.parcel.bytes) :
    hop.sent.map Parcel.key = (choice hop.site.node.settings
      (hop.site.node.membership.set h.node hop.moment.now).1 hop.moment h).1.map Member.key :=
  (sent_spreads (hop.wave?_of_carries hcarries)).keys

end Hop

/-- A run of deliveries from a cluster to another, hop by hop. -/
inductive Run {n : ℕ} (c₀ : Cluster n) : List Hop → Cluster n → Prop
  | nil : Run c₀ [] c₀
  | snoc {hops : List Hop} {c : Cluster n} (hrun : Run c₀ hops c) (i : Fin n) (moment : Moment)
      {p : InFlight} (hp : p ∈ c.flight) (hkey : (c.sites i).key = p.key) :
      Run c₀ (hops ++ [⟨c.sites i, moment, p⟩]) (c.deliver i moment p)

theorem Run.continues {n : ℕ} {c₀ c : Cluster n} {hops : List Hop} (hrun : Run c₀ hops c)
    (i : Fin n) : (c.sites i).Continues (c₀.sites i) := by
  induction hrun with
  | nil => exact .refl _
  | @snoc hops c _ j moment p hp hkey ih => exact (c.continues_deliver j moment p i).trans ih

theorem Run.continues_launch {n : ℕ} {c₀ c : Cluster n} {o : Fin n} {start : Moment}
    {h₀ : Heartbeat} {root : List ℕ} {hops : List Hop}
    (hrun : Run (c₀.launch o start h₀ root) hops c) (i : Fin n) :
    (c.sites i).Continues (c₀.sites i) :=
  (hrun.continues i).trans (c₀.continues_launch o start h₀ root i)

/-- Only a parcel that is addressed to a site is handed to it. -/
theorem Run.key_eq {n : ℕ} {c₀ c : Cluster n} {hops : List Hop} (hrun : Run c₀ hops c) :
    ∀ hop ∈ hops, hop.site.key = hop.parcel.key := by
  induction hrun with
  | nil => simp
  | @snoc hops c _ i moment p hp hkey ih =>
    intro hop hhop
    rcases List.mem_append.mp hhop with hhop | hhop
    · exact ih hop hhop
    · rw [List.mem_singleton.mp hhop]
      exact hkey

/-- A run goes through each of its hops. -/
theorem Run.split {n : ℕ} {c₀ c : Cluster n} {hops : List Hop} (hrun : Run c₀ hops c) {hop : Hop}
    (hhop : hop ∈ hops) :
    ∃ before after c₁ i, hops = before ++ hop :: after ∧ Run c₀ before c₁ ∧
      c₁.sites i = hop.site ∧ hop.parcel ∈ c₁.flight ∧
      Run (c₁.deliver i hop.moment hop.parcel) after c := by
  induction hrun with
  | nil => exact absurd hhop (by simp)
  | @snoc hops c hrun i moment p hp hkey ih =>
    rcases List.mem_append.mp hhop with hhop | hhop
    · obtain ⟨before, after, c₁, j, rfl, hbefore, hsite, hparcel, hafter⟩ := ih hhop
      exact ⟨before, after ++ [⟨c.sites i, moment, p⟩], c₁, j, by simp, hbefore, hsite, hparcel,
        .snoc hafter i moment hp hkey⟩
    · obtain rfl := List.mem_singleton.mp hhop
      exact ⟨hops, [], c, i, rfl, hrun, rfl, hp, .nil⟩

end Gossip
