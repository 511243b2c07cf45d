import Gossip.Proofs.Wave.Termination

/-!
Clusters whose nodes know one another. While nothing gets too old, a node that takes in a wave
about a member of the cluster knows exactly whom it knew before; so a cluster in which everybody
knows exactly the cluster, and in which nothing but waves about its members is in flight, stays
one. Whatever is in flight in it has an addressee, so it can be run until nothing is in flight. A
mesh, in which everybody has just stored everybody, is such a cluster.
-/

set_option autoImplicit false
set_option relaxedAutoImplicit false

namespace Gossip

/-! ### Members that last -/

namespace Membership

/-- No entry gets too old before some second has passed, nor does one that is made then. -/
structure Lasts (membership : Membership) (horizon : ℤ) : Prop where
  ttl_nonneg : 0 ≤ membership.ttl
  entries : ∀ e ∈ membership.seen.entries, horizon - e.2 ≤ membership.ttl

variable {membership : Membership} {horizon : ℤ}

theorem Lasts.expire_eq (hlasts : membership.Lasts horizon) {now : Instant}
    (hnow : now.seconds ≤ horizon) : membership.expire now = membership := by
  have hkept : membership.seen.filter (fun e ↦ membership.isLive now e.2) = membership.seen := by
    have hentries : membership.seen.entries.filter (fun e ↦ membership.isLive now e.2) =
        membership.seen.entries := by
      refine List.filter_eq_self.mpr fun e he ↦ decide_eq_true ?_
      have hage := hlasts.entries e he
      omega
    unfold Table.filter
    congr
  unfold expire
  rw [hkept]

theorem Lasts.set (hlasts : membership.Lasts horizon) (member : Member) {now : Instant}
    (hnow : horizon - now.seconds ≤ membership.ttl) :
    (membership.set member now).1.Lasts horizon := by
  refine ⟨hlasts.ttl_nonneg, fun e he ↦ ?_⟩
  rcases Table.mem_putEntry he with rfl | he
  · exact hnow
  · exact hlasts.entries e he

/-- Exactly the keys of the stored members are listed while nothing gets too old. -/
theorem Lasts.mem_keys_look (hlasts : membership.Lasts horizon) {moment : Moment}
    (hnow : moment.now.seconds ≤ horizon) (key : String) :
    key ∈ (membership.look moment).2.map Member.key ↔ key ∈ membership.members.map Member.key := by
  unfold look
  rw [hlasts.expire_eq hnow]
  exact ((moment.arrange_perm membership.members).map Member.key).mem_iff

end Membership

/-! ### Closed clusters -/

/-- The live members that are listed have exactly the keys of the cluster. -/
def Cluster.ListedBy {n : ℕ} (c : Cluster n) (membership : Membership) (moment : Moment) : Prop :=
  ∀ key, key ∈ (membership.look moment).2.map Member.key ↔ ∃ i, (c.sites i).key = key

/-- Whatever wave the site takes in at a hop, the live members it lists then have exactly the keys
of the cluster. -/
def Cluster.ListedAt {n : ℕ} (c : Cluster n) (hop : Hop) : Prop :=
  ∀ h, hop.wave? = some h → c.ListedBy (hop.site.node.membership.set h.node hop.moment.now).1
    hop.moment

/-- A hop that is over by some second, when the site does not yet drop what it stores now. -/
structure Hop.Timely (hop : Hop) (horizon : ℤ) : Prop where
  now_le : hop.moment.now.seconds ≤ horizon
  sub_now_le : horizon - hop.moment.now.seconds ≤ hop.site.node.membership.ttl

/-- Everybody knows members with exactly the keys of the cluster, none of which gets too old before
some second has passed; and nothing is in flight but waves about some of them, on their way to
some of them. -/
structure Cluster.Closed {n : ℕ} (U : Finset String) (horizon : ℤ) (c : Cluster n) : Prop
    extends Cluster.Within U c where
  mem_iff : ∀ key, key ∈ U ↔ ∃ i, (c.sites i).key = key
  known : ∀ i, ∀ key ∈ U, key ∈ (c.sites i).node.membership.members.map Member.key
  lasts : ∀ i, (c.sites i).node.membership.Lasts horizon
  key_mem : ∀ p ∈ c.flight, p.key ∈ U
  forwards : ∀ p ∈ c.flight, ∃ secret h batch, Carries ⟨secret, .forward h batch⟩ p.bytes

/-- What a broadcast about a member puts on the network may be in flight in a closed cluster. -/
theorem Spreads.closed {U : Finset String} {settings : Settings} {membership : Membership}
    {moment : Moment} {h : Heartbeat} {sent : List Parcel}
    (hs : Spreads settings membership moment h sent)
    (hlive : ∀ m ∈ (membership.look moment).2, m.key ∈ U) (hsender : h.node.withAddr.key ∈ U)
    {p : Parcel} (hp : p ∈ sent) :
    p.key ∈ U ∧ Introduces U p.bytes ∧
      ∃ secret h batch, Carries ⟨secret, .forward h batch⟩ p.bytes := by
  obtain ⟨⟨m, hm, hkey⟩, -⟩ := hs.target_of_mem (List.mem_map_of_mem hp)
  obtain ⟨batch, hcarries⟩ := hs.carries p hp
  refine ⟨hkey ▸ hlive m hm, introduces_of_carries hcarries fun h' hwave ↦ ?_,
    _, _, batch, hcarries⟩
  cases hwave
  exact hsender

section Closed

variable {n : ℕ} {U : Finset String} {horizon : ℤ} {c₀ c : Cluster n} {hops : List Hop}

namespace Cluster

theorem Closed.listedBy (hclosed : Closed U horizon c) (i : Fin n) {moment : Moment}
    (hnow : moment.now.seconds ≤ horizon) :
    c.ListedBy (c.sites i).node.membership moment := by
  intro key
  rw [(hclosed.lasts i).mem_keys_look hnow, ← hclosed.mem_iff]
  constructor
  · intro hkey
    obtain ⟨m, hm, rfl⟩ := List.mem_map.mp hkey
    exact hclosed.knows i m hm
  · exact hclosed.known i key

/-- A site of a closed cluster that stores the sender of a wave still knows the same keys. -/
theorem Closed.listedAt (hclosed : Closed U horizon c) (i : Fin n) {moment : Moment}
    {p : InFlight} (hp : p ∈ c.flight) (htimely : Hop.Timely ⟨c.sites i, moment, p⟩ horizon) :
    c.ListedAt ⟨c.sites i, moment, p⟩ := by
  intro h hwave key
  obtain ⟨message, hhears, hmessage⟩ := Option.bind_eq_some_iff.mp hwave
  have hsender := hclosed.introduces p hp message (Site.mem_readings_of_hears hhears) h hmessage
  have hlasts := (hclosed.lasts i).set h.node htimely.sub_now_le
  rw [hlasts.mem_keys_look htimely.now_le, ← hclosed.mem_iff, List.mem_map]
  constructor
  · rintro ⟨m, hm, rfl⟩
    exact key_mem_of_mem_set (hclosed.knows i) hsender hm
  · intro hkey
    obtain ⟨m, hm, rfl⟩ := List.mem_map.mp (hclosed.known i key hkey)
    exact ⟨m, (Membership.mem_members_set _ _).mpr (Or.inr hm), rfl⟩

/-- What a delivery leaves of the members of a site. -/
theorem Closed.known_hand (hclosed : Closed U horizon c) (i : Fin n) {moment : Moment}
    {p : InFlight} (htimely : Hop.Timely ⟨c.sites i, moment, p⟩ horizon) :
    (∀ key ∈ U, key ∈
        ((c.sites i).hand moment p.bytes).1.node.membership.members.map Member.key) ∧
      ((c.sites i).hand moment p.bytes).1.node.membership.Lasts horizon := by
  rcases (c.sites i).membership_hand moment p.bytes with hsame | ⟨message, h, -, -, hsame⟩
  · rw [hsame]
    exact ⟨hclosed.known i, hclosed.lasts i⟩
  · have hlasts := (hclosed.lasts i).set h.node htimely.sub_now_le
    rw [hsame]
    unfold Membership.look
    rw [hlasts.expire_eq htimely.now_le]
    refine ⟨fun key hkey ↦ ?_, hlasts⟩
    obtain ⟨m, hm, rfl⟩ := List.mem_map.mp (hclosed.known i key hkey)
    exact List.mem_map_of_mem ((Membership.mem_members_set _ _).mpr (Or.inr hm))

theorem Closed.deliver (hclosed : Closed U horizon c) (i : Fin n) {moment : Moment}
    {p : InFlight} (hp : p ∈ c.flight) (hkey : (c.sites i).key = p.key)
    (htimely : Hop.Timely ⟨c.sites i, moment, p⟩ horizon) :
    Closed U horizon (c.deliver i moment p) := by
  obtain ⟨hknown, hlasts⟩ := hclosed.known_hand i htimely
  have hsent : ∀ q ∈ (c.deliver i moment p).flight, q.key ∈ U ∧
      ∃ secret h batch, Carries ⟨secret, .forward h batch⟩ q.bytes := by
    intro q hq
    rcases mem_flight_deliver.mp hq with hq | hq
    · have hold := Multiset.mem_of_mem_erase hq
      exact ⟨hclosed.key_mem q hold, hclosed.forwards q hold⟩
    · -- all that leaves the site is a broadcast of the wave it has taken in
      obtain ⟨secret, h, batch, hcarries⟩ := hclosed.forwards p hp
      have hmem := toParcel_mem_of_mem_numbered hq
      rcases Hop.wave?_or_silent ⟨c.sites i, moment, p⟩ hcarries with htaken | hsilent
      · have hlisted := hclosed.listedAt i hp htimely h htaken
        obtain ⟨message, hhears, hmessage⟩ := Option.bind_eq_some_iff.mp htaken
        have hsender :=
          hclosed.introduces p hp message (Site.mem_readings_of_hears hhears) h hmessage
        obtain ⟨hkey, -, hforward⟩ := (Hop.sent_spreads htaken).closed
          (fun m hm ↦ (hclosed.mem_iff _).mpr ((hlisted _).mp (List.mem_map_of_mem hm)))
          hsender hmem
        exact ⟨hkey, hforward⟩
      · rw [Hop.sent] at hsilent
        rw [hsilent] at hmem
        exact absurd hmem List.not_mem_nil
  refine ⟨hclosed.toWithin.step (.deliver c i moment hp hkey), fun key ↦ ?_, fun j ↦ ?_, fun j ↦ ?_,
    fun q hq ↦ (hsent q hq).1, fun q hq ↦ (hsent q hq).2⟩
  · rw [hclosed.mem_iff]
    exact exists_congr fun j ↦ by rw [(c.continues_deliver i moment p j).key]
  · rw [sites_deliver]
    by_cases hj : j = i
    · rw [if_pos hj]
      exact hknown
    · rw [if_neg hj]
      exact hclosed.known j
  · rw [sites_deliver]
    by_cases hj : j = i
    · rw [if_pos hj]
      exact hlasts
    · rw [if_neg hj]
      exact hclosed.lasts j

/-- A wave about a member that starts in a closed cluster leaves it closed. -/
theorem Closed.launch (hclosed : Closed U horizon c) (o : Fin n) {start : Moment}
    (hnow : start.now.seconds ≤ horizon) {h₀ : Heartbeat} (hsender : h₀.node.withAddr.key ∈ U)
    (root : List ℕ) : Closed U horizon (c.launch o start h₀ root) := by
  have hsame : ∀ j, ((c.launch o start h₀ root).sites j).node.membership =
      (c.sites j).node.membership := by
    intro j
    rw [sites_launch]
    by_cases hj : j = o
    · have hlook := (c.sites o).node.sameStores_broadcast Egress.link start h₀
        ⟨(c.sites o).offload, []⟩
      rw [if_pos hj, hj]
      refine hlook.membership.trans ?_
      exact (hclosed.lasts o).expire_eq hnow
    · rw [if_neg hj]
  have hlive : ∀ m ∈ ((c.sites o).node.membership.look start).2, m.key ∈ U := by
    intro m hm
    exact (hclosed.mem_iff _).mpr
      ((hclosed.listedBy o hnow _).mp (List.mem_map_of_mem hm))
  have hsent : ∀ q ∈ (c.launch o start h₀ root).flight, q.key ∈ U ∧ Introduces U q.bytes ∧
      ∃ secret h batch, Carries ⟨secret, .forward h batch⟩ q.bytes := by
    intro q hq
    rcases Multiset.mem_add.mp hq with hq | hq
    · exact ⟨hclosed.key_mem q hq, hclosed.introduces q hq, hclosed.forwards q hq⟩
    · exact ((c.sites o).launch_spreads start h₀).closed hlive hsender
        (toParcel_mem_of_mem_numbered (Multiset.mem_coe.mp hq))
  refine ⟨⟨fun j ↦ ?_, fun q hq ↦ (hsent q hq).2.1⟩, fun key ↦ ?_, fun j ↦ ?_, fun j ↦ ?_,
    fun q hq ↦ (hsent q hq).1, fun q hq ↦ (hsent q hq).2.2⟩
  · unfold Site.Knows
    rw [hsame]
    exact hclosed.knows j
  · rw [hclosed.mem_iff]
    exact exists_congr fun j ↦ by rw [(c.continues_launch o start h₀ root j).key]
  · rw [hsame]
    exact hclosed.known j
  · rw [hsame]
    exact hclosed.lasts j

end Cluster

/-- Assumes: a closed cluster, and a run that is over before anything gets too old. It stays closed,
and all its waves find exactly the cluster listed. -/
theorem Run.closed (hrun : Run c₀ hops c) (hclosed : c₀.Closed U horizon)
    (htimely : ∀ hop ∈ hops, hop.Timely horizon) :
    c.Closed U horizon ∧ ∀ hop ∈ hops, c₀.ListedAt hop := by
  induction hrun with
  | nil => exact ⟨hclosed, by simp⟩
  | @snoc hops c hrun i moment p hp hkey ih =>
    have hlast := htimely _ (List.mem_append_right hops (List.mem_singleton.mpr rfl))
    obtain ⟨hstill, hlisted⟩ := ih fun hop hhop ↦ htimely hop (List.mem_append_left _ hhop)
    refine ⟨hstill.deliver i hp hkey hlast, fun hop hhop ↦ ?_⟩
    rcases List.mem_append.mp hhop with hhop | hhop
    · exact hlisted hop hhop
    · rw [List.mem_singleton.mp hhop]
      intro h hwave key
      rw [hstill.listedAt i hp hlast h hwave key, ← hstill.mem_iff, hclosed.mem_iff]

/-- A closed cluster can be run, at a moment before anything gets too old, until nothing is in
flight. -/
theorem Cluster.Closed.exists_run {moment : Moment} (hclosed : c.Closed U moment.now.seconds) :
    ∃ hops c', Run c hops c' ∧ c'.flight = 0 ∧ ∀ hop ∈ hops, hop.Timely moment.now.seconds := by
  suffices hrest : ∀ c' hops, Run c hops c' → c'.Closed U moment.now.seconds →
      (∀ hop ∈ hops, hop.Timely moment.now.seconds) → ∃ hops c', Run c hops c' ∧
        c'.flight = 0 ∧ ∀ hop ∈ hops, hop.Timely moment.now.seconds from
    hrest c [] .nil hclosed (by simp)
  intro c'
  -- by induction on what is still in flight
  induction hload : c'.load U using Nat.strong_induction_on generalizing c' with
  | _ load ih =>
    intro hops hrun hstill htimely
    by_cases hempty : c'.flight = 0
    · exact ⟨hops, c', hrun, hempty, htimely⟩
    · obtain ⟨p, hp⟩ := Multiset.exists_mem_of_ne_zero hempty
      obtain ⟨i, hkey⟩ := (hstill.mem_iff _).mp (hstill.key_mem p hp)
      have hnow : Hop.Timely ⟨c'.sites i, moment, p⟩ moment.now.seconds := by
        refine ⟨Int.le_refl _, ?_⟩
        rw [Int.sub_self]
        exact (hstill.lasts i).ttl_nonneg
      have hless := hstill.load_lt (.deliver c' i moment hp hkey)
      refine ih _ (hload ▸ hless) _ rfl _ (.snoc hrun i moment hp hkey)
        (hstill.deliver i hp hkey hnow) fun hop hhop ↦ ?_
      rcases List.mem_append.mp hhop with hhop | hhop
      · exact htimely hop hhop
      · rw [List.mem_singleton.mp hhop]
        exact hnow

/-- A wave about a member of a closed cluster can be run until nothing is in flight, and finds
exactly the cluster listed everywhere. -/
theorem Cluster.Closed.exists_wave {moment : Moment} (hclosed : c.Closed U moment.now.seconds)
    (o : Fin n) {h₀ : Heartbeat} (hsender : h₀.node.withAddr.key ∈ U) (root : List ℕ) :
    ∃ hops c', Run (c.launch o moment h₀ root) hops c' ∧ c'.flight = 0 ∧
      ∀ hop ∈ hops, c.ListedAt hop := by
  have hlaunched := hclosed.launch o (Int.le_refl _) hsender root
  obtain ⟨hops, c', hrun, hempty, htimely⟩ := hlaunched.exists_run
  refine ⟨hops, c', hrun, hempty, fun hop hhop h hwave key ↦ ?_⟩
  rw [(hrun.closed hlaunched htimely).2 hop hhop h hwave key, ← hlaunched.mem_iff, hclosed.mem_iff]

end Closed

/-! ### Meshes -/

/-- A cluster whose sites are told apart by their keys, share a secret, and send waves on. -/
structure Cluster.Meshed {n : ℕ} (c : Cluster n) : Prop where
  key_injective : Function.Injective fun i ↦ (c.sites i).key
  key_eq : ∀ i, (c.sites i).key = (c.sites i).node.self.key
  secret_eq : ∀ i j, (c.sites i).node.settings.secret = (c.sites j).node.settings.secret
  amount_pos : ∀ i, 0 < (c.sites i).node.settings.amount.toNat

/-- A wave about its sender starts with the mark of its sender alone. -/
theorem Cluster.Meshed.containsKey_alive {n : ℕ} {c : Cluster n} (hmesh : c.Meshed) (o : Fin n)
    (key : String) :
    (Heartbeat.alive (c.sites o).node.self).infected.containsKey key = true ↔
      key = (c.sites o).key := by
  rw [hmesh.key_eq]
  exact Infected.containsKey_singleton _ key

/-- A store after some members have been stored in it, all as seen now. -/
def Membership.setAll (membership : Membership) (members : List Member) (now : Instant) :
    Membership :=
  members.foldl (fun membership member ↦ (membership.set member now).1) membership

namespace Membership

theorem mem_keys_setAll (membership : Membership) (members : List Member) (now : Instant)
    (key : String) :
    key ∈ (membership.setAll members now).members.map Member.key ↔
      key ∈ membership.members.map Member.key ∨ ∃ m ∈ members, m.withAddr.key = key := by
  induction members generalizing membership with
  | nil => simp [setAll]
  | cons first rest ih =>
    have hset : key ∈ (membership.set first now).1.members.map Member.key ↔
        first.withAddr.key = key ∨ key ∈ membership.members.map Member.key := by
      rw [← membership.key_normalize, List.mem_map, List.mem_map]
      constructor
      · rintro ⟨m, hm, rfl⟩
        rcases (mem_members_set membership now).mp hm with rfl | hm
        · exact Or.inl rfl
        · exact Or.inr ⟨m, hm, rfl⟩
      · rintro (rfl | ⟨m, hm, rfl⟩)
        · exact ⟨_, (mem_members_set membership now).mpr (Or.inl rfl), rfl⟩
        · exact ⟨m, (mem_members_set membership now).mpr (Or.inr hm), rfl⟩
    have hrest := ih (membership.set first now).1
    rw [hset] at hrest
    unfold setAll at hrest ⊢
    rw [List.foldl_cons, hrest, List.exists_mem_cons_iff, ← or_assoc,
      or_comm (a := first.withAddr.key = key)]

theorem lasts_start (self : Member) {lifetime : Span} (mask : Ipv4) (gateway : String)
    (now : Instant) (hlifetime : 0 ≤ Int.bmod lifetime.seconds UInt64.size) :
    (start self lifetime mask gateway now).Lasts now.seconds := by
  refine ⟨hlifetime, fun e he ↦ ?_⟩
  rw [List.mem_singleton.mp he, Int.sub_self]
  exact hlifetime

theorem Lasts.setAll {membership : Membership} {now : Instant}
    (hlasts : membership.Lasts now.seconds) (members : List Member) :
    (membership.setAll members now).Lasts now.seconds := by
  induction members generalizing membership with
  | nil => exact hlasts
  | cons first rest ih =>
    refine ih (hlasts.set first ?_)
    rw [Int.sub_self]
    exact hlasts.ttl_nonneg

theorem self_setAll (membership : Membership) (members : List Member) (now : Instant) :
    (membership.setAll members now).self = membership.self := by
  induction members generalizing membership with
  | nil => rfl
  | cons first rest ih => exact ih _

end Membership

/-- The member of a small cluster that has some number: all have one address, and each its port. -/
def Member.ofNumber (i : ℕ) : Member := { addr := "10.0.0.1", port := .ofNat (i + 1) }

theorem Member.withAddr_ofNumber (i : ℕ) : (ofNumber i).withAddr = ofNumber i :=
  if_neg (by show ¬"10.0.0.1" = ""; decide)

/-- A moment at which waves may start. -/
def dawn : Moment where
  now := .ofParts 1700000000 0
  arrange_perm := id_perm

/-- The site of a number, whose node has just stored the members of some numbers. -/
def Site.knowing (amount : UInt64) (now : Instant) (i : ℕ) (numbers : List ℕ) : Site where
  key := (Member.ofNumber i).key
  node :=
    { settings := { amount, lifetime := .ofSeconds 32 }
      membership := .setAll (.start (.ofNumber i) (.ofSeconds 32) ⟨255, 255, 255, 0⟩ "" now)
        (numbers.map Member.ofNumber) now }
  offload := {}

namespace Site

variable (amount : UInt64) (now : Instant) (i : ℕ) (numbers : List ℕ)

theorem self_knowing : (knowing amount now i numbers).node.self = Member.ofNumber i := by
  have hself : (knowing amount now i numbers).node.self = (Member.ofNumber i).withAddr :=
    Membership.self_setAll _ _ now
  rwa [Member.withAddr_ofNumber] at hself

theorem mem_keys_knowing (key : String) :
    key ∈ (knowing amount now i numbers).node.membership.members.map Member.key ↔
      (Member.ofNumber i).key = key ∨ ∃ j ∈ numbers, (Member.ofNumber j).key = key := by
  have hstored := Membership.mem_keys_setAll
    (.start (.ofNumber i) (.ofSeconds 32) ⟨255, 255, 255, 0⟩ "" now)
    (numbers.map Member.ofNumber) now key
  have hstart : key ∈ (Membership.start (.ofNumber i) (.ofSeconds 32) ⟨255, 255, 255, 0⟩ ""
      now).members.map Member.key ↔ (Member.ofNumber i).key = key := by
    rw [← Member.withAddr_ofNumber i]
    exact List.mem_singleton.trans eq_comm
  rw [hstart] at hstored
  refine hstored.trans (or_congr_right ?_)
  simp only [List.mem_map, exists_exists_and_eq_and, Member.withAddr_ofNumber]

theorem lasts_knowing : (knowing amount now i numbers).node.membership.Lasts now.seconds := by
  have httl : 0 ≤ Int.bmod (Span.ofSeconds 32).seconds UInt64.size := by decide
  exact (Membership.lasts_start (.ofNumber i) ⟨255, 255, 255, 0⟩ "" now httl).setAll _

end Site

namespace Cluster

/-- A cluster in which everybody has just stored everybody. -/
def mesh (n : ℕ) (amount : UInt64) (now : Instant) : Cluster n where
  sites i := .knowing amount now i (List.range n)
  flight := 0

theorem meshed_mesh {n : ℕ} (hn : n < UInt16.size) {amount : UInt64} (hamount : 0 < amount.toNat)
    (now : Instant) : (mesh n amount now).Meshed := by
  refine ⟨fun i j hkey ↦ ?_, fun i ↦ ?_, fun i j ↦ rfl, fun i ↦ hamount⟩
  · have hport : UInt16.ofNat (i + 1) = UInt16.ofNat (j + 1) := peerKey_injective _ hkey
    have hnumber := congrArg UInt16.toNat hport
    rw [UInt16.toNat_ofNat_of_lt' (Nat.lt_of_le_of_lt i.isLt hn),
      UInt16.toNat_ofNat_of_lt' (Nat.lt_of_le_of_lt j.isLt hn)] at hnumber
    exact Fin.ext (Nat.succ.inj hnumber)
  · exact congrArg Member.key (Site.self_knowing amount now i _).symm

theorem mem_keys_mesh {n : ℕ} (amount : UInt64) (now : Instant) (i : Fin n) (key : String) :
    key ∈ ((mesh n amount now).sites i).node.membership.members.map Member.key ↔
      ∃ j, ((mesh n amount now).sites j).key = key := by
  refine (Site.mem_keys_knowing amount now i _ key).trans ⟨?_, ?_⟩
  · rintro (hself | ⟨j, hj, hkey⟩)
    · exact ⟨i, hself⟩
    · exact ⟨⟨j, List.mem_range.mp hj⟩, hkey⟩
  · rintro ⟨j, hkey⟩
    exact Or.inr ⟨j, List.mem_range.mpr j.isLt, hkey⟩

theorem closed_mesh (n : ℕ) (amount : UInt64) (now : Instant) :
    (mesh n amount now).Closed
      (Finset.univ.image fun i ↦ ((mesh n amount now).sites i).key) now.seconds := by
  have hmem (key : String) : key ∈ Finset.univ.image (fun i ↦ ((mesh n amount now).sites i).key) ↔
      ∃ i, ((mesh n amount now).sites i).key = key := by
    simp
  have hnone : ∀ p, p ∉ (mesh n amount now).flight := Multiset.notMem_zero
  refine ⟨⟨fun i m hm ↦ ?_, fun p hp ↦ absurd hp (hnone p)⟩, hmem, fun i key hkey ↦ ?_,
    fun i ↦ Site.lasts_knowing amount now i _, fun p hp ↦ absurd hp (hnone p),
    fun p hp ↦ absurd hp (hnone p)⟩
  · exact (hmem _).mpr ((mem_keys_mesh amount now i _).mp (List.mem_map_of_mem hm))
  · exact (mem_keys_mesh amount now i key).mpr ((hmem key).mp hkey)

/-- A wave about its sender can be run through a mesh, at the moment of its start. -/
theorem mesh_exists_wave {n : ℕ} (amount : UInt64) (moment : Moment) (o : Fin n) (root : List ℕ) :
    ∃ hops c, Run ((mesh n amount moment.now).launch o moment
        (.alive ((mesh n amount moment.now).sites o).node.self) root) hops c ∧ c.flight = 0 ∧
      ∀ hop ∈ hops, (mesh n amount moment.now).ListedAt hop := by
  have hself : ((mesh n amount moment.now).sites o).node.self = Member.ofNumber o :=
    Site.self_knowing amount moment.now o _
  refine (closed_mesh n amount moment.now).exists_wave o ?_ root
  rw [hself]
  show (Member.ofNumber o).withAddr.key ∈ _
  rw [Member.withAddr_ofNumber]
  exact Finset.mem_image.mpr ⟨o, Finset.mem_univ o, rfl⟩

end Cluster

end Gossip
