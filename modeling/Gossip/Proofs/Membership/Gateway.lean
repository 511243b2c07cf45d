import Gossip.Proofs.Construction
import Gossip.Proofs.Membership.Presence
import Gossip.Proofs.Requests

/-!
The way to every member. A value that is stored has an address, and either shares the local subnet
or carries the link-layer address of the gateway; such a value is stored as it is. Members come in
when the store is built, when the local member is refreshed and when a member is set, and only the
last of these sees to the way; the other two store the local member, which shares its own subnet
whatever its address says. So the targets that a node registers with its offload program can be
reached, at every point of every run.
-/

set_option autoImplicit false
set_option relaxedAutoImplicit false

namespace Gossip

/-- A text shares a network with itself, whether it is an address or not. -/
theorem sameSubnet_self (mask : Ipv4) (addr : String) : sameSubnet mask addr addr = true := by
  unfold sameSubnet
  cases (Ip.parse? addr).bind Ip.ipv4? with
  | none => rfl
  | some ip => exact decide_eq_true rfl

theorem Member.addr_withAddr_ne (member : Member) : member.withAddr.addr ≠ "" := by
  unfold Member.withAddr
  split
  · exact (by decide : Member.unspecifiedAddr ≠ "")
  next h => exact h

theorem Member.withAddr_of_ne {member : Member} (h : member.addr ≠ "") :
    member.withAddr = member :=
  if_neg h

/-! ### Routed values -/

namespace Membership

/-- An address is on the local subnet, or a link-layer address leads through the gateway. -/
def Reaches (m : Membership) (addr mac : String) : Prop :=
  sameSubnet m.mask addr m.self.addr = true ∨ mac = m.gateway

/-- A value has an address, and can be reached. -/
structure Routed (m : Membership) (v : Member) : Prop where
  addr : v.addr ≠ ""
  way : m.Reaches v.addr v.mac

/-- The local member and all stored values are routed. -/
structure WellRouted (m : Membership) : Prop where
  self : m.self.addr ≠ ""
  members : ∀ v ∈ m.members, m.Routed v

variable {m other : Membership} {v : Member} {access : Access}

theorem routed_self (h : m.self.addr ≠ "") : m.Routed m.self :=
  ⟨h, Or.inl (sameSubnet_self m.mask m.self.addr)⟩

theorem routed_normalize (m : Membership) (member : Member) : m.Routed (m.normalize member) := by
  unfold normalize
  dsimp only
  split
  next h => exact ⟨member.addr_withAddr_ne, Or.inl h⟩
  · exact ⟨member.addr_withAddr_ne, Or.inr rfl⟩

/-- A routed value is stored as it is. -/
theorem Routed.normalize_eq (h : m.Routed v) : m.normalize v = v := by
  unfold normalize
  rw [Member.withAddr_of_ne h.addr]
  dsimp only
  split
  · rfl
  next hsubnet =>
    have hmac : v.mac = m.gateway := h.way.resolve_left hsubnet
    rw [← hmac]

theorem SameRules.reaches (h : SameRules m other) (addr mac : String) :
    m.Reaches addr mac ↔ other.Reaches addr mac := by
  unfold Reaches
  rw [h.self, h.mask, h.gateway]

theorem SameRules.routed (h : SameRules m other) : m.Routed v ↔ other.Routed v :=
  ⟨fun hv ↦ ⟨hv.addr, (h.reaches _ _).mp hv.way⟩, fun hv ↦ ⟨hv.addr, (h.reaches _ _).mpr hv.way⟩⟩

theorem routed_of_stores {now : Instant} (hself : m.self.addr ≠ "")
    (h : m.stores? access = some (v, now)) : m.Routed v := by
  cases access with
  | set member now' =>
    obtain ⟨rfl, -⟩ := Prod.mk.inj (Option.some.inj h)
    exact m.routed_normalize member
  | touch now' =>
    obtain ⟨rfl, -⟩ := Prod.mk.inj (Option.some.inj h)
    exact routed_self hself
  | get moment | peers moment => exact absurd h (by simp [Membership.stores?])

theorem mem_members_of_mem_serve (h : v ∈ (m.serve access).2.members) :
    v ∈ m.members ∨ ∃ now, m.stores? access = some (v, now) := by
  obtain ⟨second, hentry⟩ := mem_members_iff.mp h
  rcases m.stores?_or_looks? access with ⟨u, now, hstores, -⟩ | ⟨now, -, hlooks⟩
  · rcases (mem_entries_serve_of_stores hstores).mp hentry with ⟨rfl, -⟩ | ⟨-, hentry⟩
    · exact Or.inr ⟨now, hstores⟩
    · exact Or.inl (mem_members_iff.mpr ⟨second, hentry⟩)
  · exact Or.inl (mem_members_iff.mpr ⟨second, ((mem_entries_serve_of_looks hlooks).mp hentry).1⟩)

theorem wellRouted_start (self : Member) (lifetime : Span) (mask : Ipv4) (gateway : String)
    (now : Instant) : (start self lifetime mask gateway now).WellRouted := by
  have hself : self.withAddr.addr ≠ "" := self.addr_withAddr_ne
  refine ⟨hself, fun v hv ↦ ?_⟩
  obtain rfl : v = self.withAddr := List.mem_singleton.mp hv
  exact routed_self (m := start self lifetime mask gateway now) hself

theorem WellRouted.serve (h : m.WellRouted) (access : Access) :
    (m.serve access).2.WellRouted := by
  have hrules := m.sameRules_serve access
  refine ⟨hrules.self ▸ h.self, fun v hv ↦ hrules.routed.mpr ?_⟩
  rcases mem_members_of_mem_serve hv with hmem | ⟨now, hstores⟩
  · exact h.members v hmem
  · exact routed_of_stores h.self hstores

theorem WellRouted.serveAll (h : m.WellRouted) (accesses : List Access) :
    (m.serveAll accesses).WellRouted := by
  induction accesses generalizing m with
  | nil => exact h
  | cons access rest ih => exact ih (h.serve access)

/-! ### Storing again -/

/-- A value is seen now, and nothing else is changed. -/
structure Refreshes (m m' : Membership) (v : Member) (now : Instant) : Prop where
  rules : SameRules m' m
  members : m'.members = m.members
  seen : (v, now.seconds) ∈ m'.seen.entries
  others : ∀ u ≠ v, ∀ second, (u, second) ∈ m'.seen.entries ↔ (u, second) ∈ m.seen.entries

theorem members_serve_of_stores {now : Instant} (hstores : m.stores? access = some (v, now))
    (hv : v ∈ m.members) : (m.serve access).2.members = m.members := by
  cases access with
  | set member now' | touch now' =>
    obtain ⟨rfl, -⟩ := Prod.mk.inj (Option.some.inj hstores)
    exact (Table.map_fst_putEntry _ _ _).trans (if_pos hv)
  | get moment | peers moment => exact absurd hstores (by simp [Membership.stores?])

/-- Whatever stores a value that is stored already refreshes it. -/
theorem refreshes_serve {now : Instant} (hstores : m.stores? access = some (v, now))
    (hv : v ∈ m.members) : m.Refreshes (m.serve access).2 v now where
  rules := m.sameRules_serve access
  members := members_serve_of_stores hstores hv
  seen := (mem_entries_serve_of_stores hstores).mpr (Or.inl ⟨rfl, rfl⟩)
  others u hu second := by
    rw [mem_entries_serve_of_stores hstores]
    exact ⟨fun h ↦ (h.resolve_left fun hsame ↦ hu hsame.1).2, fun h ↦ Or.inr ⟨hu, h⟩⟩

/-- A routed value that is stored already is not new. -/
theorem Routed.snd_set (h : m.Routed v) (hv : v ∈ m.members) (now : Instant) :
    (m.set v now).2 = false := by
  have hcontains : m.seen.contains v = true := Table.contains_eq_true.mpr hv
  show (!m.seen.contains (m.normalize v)) = false
  rw [h.normalize_eq, hcontains]
  rfl

/-- The targets that are registered can be reached. -/
def ReachesAll (m : Membership) : Request → Prop
  | .register _ targets => ∀ t ∈ targets, m.Reaches t.addr t.mac
  | .send _ | .pin _ => True

theorem SameRules.reachesAll (h : SameRules m other) {r : Request} (hr : m.ReachesAll r) :
    other.ReachesAll r := by
  cases r with
  | register key targets => exact fun t ht ↦ (h.reaches _ _).mp (hr t ht)
  | send s | pin version => trivial

/-- A broadcast goes to stored members. -/
theorem WellRouted.reachesAll (h : m.WellRouted) {settings : Settings} {moment : Moment}
    {heartbeat : Heartbeat} {r : Request} (hr : Broadcasting settings m moment heartbeat r) :
    m.ReachesAll r := by
  cases hr with
  | packet target batch htarget => trivial
  | group key group hgroup =>
    intro t ht
    obtain ⟨target, htarget, rfl⟩ := List.mem_map.mp ht
    have hlive := (selectTargets_sublist _ _ _).subset (hgroup htarget)
    exact (h.members target (mem_members_of_mem_look hlive)).way

end Membership

/-! ### The store of a node -/

/-- What an operation asks of the store of members. -/
def Operation.accesses (node : Node) : Operation → List Access
  | .publish moment _ => [.touch moment.now, .get moment]
  | .beat moment => [.touch moment.now, .get moment, .get moment]
  | .handle clock unit =>
    match clock, (node.read? unit).bind Message.wave? with
    | some moment, some h => [.set h.node moment.now, .get moment]
    | _, _ => []
  | .set member now => [.set member now]
  | .nodes moment => [.get moment]

/-- What an operation asks depends on the settings of the node alone. -/
theorem Operation.accesses_congr {node other : Node} (h : node.settings = other.settings)
    (operation : Operation) : operation.accesses node = operation.accesses other := by
  cases operation with
  | handle clock unit => simp only [Operation.accesses, Node.read?_congr h]
  | publish moment data | beat moment | set member now | nodes moment => rfl

namespace Node

variable {ω : Type} (link : Link ω) (node : Node)

theorem membership_initiate (moment : Moment) (w : ω) :
    (node.initiate link moment w).2.1.membership = (node.membership.look moment).1 := by
  unfold initiate
  dsimp only
  split <;> rfl

theorem membership_tryHandle (clock : Option Moment) (unit : Bytes) (w : ω) :
    (node.tryHandle link clock unit w).2.1.membership =
      node.membership.serveAll (Operation.accesses node (.handle clock unit)) := by
  unfold Operation.accesses
  cases hread : node.read? unit with
  | none => cases clock <;> simp only [tryHandle, handle, hread] <;> rfl
  | some message =>
    cases clock with
    | none =>
      simp only [tryHandle, hread]
      cases message with
      | heartbeat h | forward h _ => exact (node.sameStores_takeUpdate link h w).membership
      | swapRequest swap | swapResponse swap =>
        exact (node.sameStores_compareSwap link swap _ w).membership
    | some moment =>
      simp only [tryHandle, handle, hread, Option.bind_some]
      cases hwave : message.wave? with
      | some h => exact (node.sameStores_receive_of_wave link moment hwave w).membership
      | none => exact (node.sameStores_receive_of_swap link moment hwave w).membership

/-- The store of a node answers to its operations, and to nothing else. -/
theorem membership_perform (operation : Operation) (w : ω) :
    (node.perform link operation w).2.1.membership =
      node.membership.serveAll (operation.accesses node) := by
  cases operation with
  | publish moment data => exact (sameStores_broadcast link _ moment _ _).membership
  | beat moment =>
    have hbroadcast := sameStores_broadcast link (node.touch moment.now) moment
      (.alive (node.touch moment.now).self) w
    exact (membership_initiate link _ moment _).trans
      (congrArg (fun m ↦ (Membership.look m moment).1) hbroadcast.membership)
  | handle clock unit => exact node.membership_tryHandle link clock unit w
  | set member now => rfl
  | nodes moment => rfl

/-- Operations one after the other ask the store for what each of them asks, in their order. -/
theorem membership_performAll (operations : List Operation) (w : ω) :
    (performAll link operations node w).2.1.membership =
      node.membership.serveAll (operations.flatMap (·.accesses node)) := by
  induction operations generalizing node w with
  | nil => rfl
  | cons operation rest ih =>
    have hsettings := node.settings_perform link operation w
    have hrest := ih (node.perform link operation w).2.1 (node.perform link operation w).2.2
    simp only [Operation.accesses_congr hsettings] at hrest
    rw [List.flatMap_cons, Membership.serveAll_append, ← node.membership_perform link operation w]
    exact hrest

variable {node}

/-- A node whose stored values are routed asks for nothing out of reach. -/
theorem reachesAll_of_asks (hrouted : node.membership.WellRouted) {operation : Operation}
    {r : Request} (hr : node.Asks operation r) : node.membership.ReachesAll r := by
  have hbroadcast (access : Access) {moment : Moment} {h : Heartbeat}
      (hr : Broadcasting node.settings (node.membership.serve access).2 moment h r) :
      node.membership.ReachesAll r :=
    (node.membership.sameRules_serve access).reachesAll ((hrouted.serve access).reachesAll hr)
  cases hr with
  | pin _ version => trivial
  | announcement moment data _ hr => exact hbroadcast (.touch moment.now) hr
  | sign moment _ hr => exact hbroadcast (.touch moment.now) hr
  | probe moment m hm => trivial
  | wave moment unit message h _ hread hwave hr =>
    exact hbroadcast (.set h.node moment.now) hr
  | answer clock unit swap hread => trivial

/-- Assumes: the stored values are routed at first. -/
theorem routed_performAll (hrouted : node.membership.WellRouted) (rules : Rules)
    (inner : Link ω) (operations : List Operation) (w : ω) :
    let (_, later, journal, _) := performAll (Journal.link rules inner) operations node ({}, w)
    later.membership.WellRouted ∧ Membership.SameRules later.membership node.membership ∧
      ∀ e ∈ journal.entries, node.membership.ReachesAll e.1 := by
  have hrun := performAll_upholds (Journal.upholds_link rules inner node.membership.ReachesAll)
    (I := fun later ↦ later.membership.WellRouted ∧
      Membership.SameRules later.membership node.membership)
    (fun later operation w hlater ↦ ?_)
    (fun later operation r hlater hr ↦ hlater.2.reachesAll (reachesAll_of_asks hlater.1 hr))
    ⟨hrouted, ⟨rfl, rfl, rfl, rfl⟩⟩ operations (w := ({}, w)) (by simp)
  · exact ⟨hrun.1.1, hrun.1.2, hrun.2⟩
  · rw [membership_perform]
    exact ⟨hlater.1.serveAll _, (later.membership.sameRules_serveAll _).trans hlater.2⟩

end Node

/-! ### A node from its construction on -/

/-- A node starts with its own member, under the mask and the gateway of its settings. -/
theorem Node.membership_build {self : Member} {settings : Settings} {offload : Bool}
    {now : Instant} {node : Node} (h : Node.build self settings offload now = .ok node) :
    ∃ lifetime, node.membership =
      .start self lifetime settings.mask settings.gateway now := by
  obtain ⟨hnormal, heq⟩ := Node.eq_of_build h
  have hkeeps := (Settings.completes_of_normalize hnormal).toKeeps
  refine ⟨node.settings.lifetime, ?_⟩
  rw [heq, hkeeps.mask, hkeeps.gateway]

/-- Assumes: the node has been built. Whatever it is told to do then, next to any link, under any
readings of the clock, and whichever of its packets, batches and pins are refused: every value that
it stores has an address, and shares the subnet of the local address under the mask or carries the
link-layer address of the gateway; so every target outside the subnet that it has ever tried to
register carries that of the gateway; and a stored value is stored again as it is, which changes
nothing but the second at which it was last seen. -/
theorem Node.registers_through_gateway {self : Member} {settings : Settings} {offload : Bool}
    {built : Instant} {node : Node} (hbuild : Node.build self settings offload built = .ok node)
    {ω : Type} (inner : Link ω) (rules : Rules) (operations : List Operation) (w : ω) :
    let (_, later, journal, _) :=
      Node.performAll (Journal.link rules inner) operations node ({}, w)
    (∀ v ∈ later.membership.members, v.addr ≠ "" ∧
      (sameSubnet settings.mask v.addr self.withAddr.addr = true ∨ v.mac = settings.gateway)) ∧
      (∀ batch ∈ journal.registrations, ∀ t ∈ batch.1.2,
        sameSubnet settings.mask t.addr self.withAddr.addr = false → t.mac = settings.gateway) ∧
      ∀ v ∈ later.membership.members, later.membership.normalize v = v ∧
        (∀ now, ∃ refreshed, later.set v now = ({ later with membership := refreshed }, false) ∧
          later.membership.Refreshes refreshed v now) ∧
        ∀ access now, later.membership.stores? access = some (v, now) →
          later.membership.Refreshes (later.membership.serve access).2 v now := by
  obtain ⟨lifetime, hstart⟩ := Node.membership_build hbuild
  have hstarted : node.membership.WellRouted := by
    rw [hstart]
    exact Membership.wellRouted_start _ _ _ _ _
  obtain ⟨hrouted, hrules, hasked⟩ := Node.routed_performAll hstarted rules inner operations w
  have hreaches (addr mac : String) : node.membership.Reaches addr mac ↔
      sameSubnet settings.mask addr self.withAddr.addr = true ∨ mac = settings.gateway := by
    rw [hstart]
    exact Iff.rfl
  refine ⟨fun v hv ↦ ?_, fun batch hbatch t ht hsubnet ↦ ?_, fun v hv ↦ ?_⟩
  · have hv := hrules.routed.mp (hrouted.members v hv)
    exact ⟨hv.addr, (hreaches _ _).mp hv.way⟩
  · obtain ⟨e, he, hregistered⟩ := Journal.exists_entry_of_mem_registrations hbatch
    have htargets : node.membership.ReachesAll (.register batch.1.1 batch.1.2) :=
      hregistered ▸ hasked e he
    refine ((hreaches _ _).mp (htargets t ht)).resolve_left ?_
    rw [hsubnet]
    exact Bool.false_ne_true
  · have hrouted := hrouted.members v hv
    have hstores (now : Instant) : Membership.stores? _ (.set v now) = some (v, now) :=
      congrArg (fun u ↦ some (u, now)) hrouted.normalize_eq
    refine ⟨hrouted.normalize_eq, fun now ↦ ⟨_, ?_, Membership.refreshes_serve (hstores now) hv⟩,
      fun access now hstored ↦ Membership.refreshes_serve hstored hv⟩
    exact Prod.ext rfl (hrouted.snd_set hv now)

/-- The settings of a node that broadcasts in batches on a subnet with a gateway. -/
def behindGateway : Settings := { mode := .tc, gateway := "02:00:00:00:00:01" }

/-- A member from outside the subnet is stored by hand, and then reached by a publication. -/
def reachingOut : List Operation :=
  [.set { addr := "10.0.1.1", port := 1, mac := "02:00:00:00:00:99" } (.ofParts 1 0),
    .publish (.plain (.ofParts 1 0)) []]

/-- The one target that is registered then lies outside the subnet. -/
theorem outsider_registered_through_gateway :
    ∃ node, Node.build { addr := "10.0.0.1", port := 1 } behindGateway true (.ofParts 1 0) =
        .ok node ∧
      let (_, _, journal, _) :=
        Node.performAll (Journal.link {} Offload.link) reachingOut node ({}, {})
      ∃ key t, journal.registrations = [((key, [t]), none)] ∧
        sameSubnet behindGateway.mask t.addr "10.0.0.1" = false ∧
          t.mac = behindGateway.gateway := by
  have hbuild : Node.build { addr := "10.0.0.1", port := 1 } behindGateway true (.ofParts 1 0) =
      .ok _ := rfl
  have htells := Node.registers_through_gateway hbuild Offload.link {} reachingOut {}
  refine ⟨_, hbuild, ?_⟩
  generalize hrun : Node.performAll (Journal.link {} Offload.link) reachingOut _ _ = run
    at htells ⊢
  obtain ⟨replies, later, journal, offload⟩ := run
  have hregistrations : journal.registrations =
      [((KeyRing.fresh.advance.key, [⟨"10.0.1.1", 1, "02:00:00:00:00:01"⟩]), none)] :=
    congrArg (fun run ↦ run.2.2.1.registrations) hrun.symm
  obtain ⟨-, htargets, -⟩ := htells
  rw [hregistrations] at htargets
  exact ⟨_, _, hregistrations, rfl,
    htargets _ (List.mem_singleton.mpr rfl) _ (List.mem_singleton.mpr rfl) rfl⟩

end Gossip
