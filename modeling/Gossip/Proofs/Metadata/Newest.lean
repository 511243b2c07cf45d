import Gossip.Proofs.Metadata.History
import Gossip.Proofs.Wave.Coverage

/-!
The newest publication prevails. While a site does not yet store what has been published last, a
parcel that announces it is on its way to the site, or announces it without having marked the
site; whoever is handed that one stores the news and sends them on. Publishing anew starts this
over, and as every publication has a greater version than those before it, no site ever goes back
from the news it has. So when nothing is in flight any more, everybody stores what has been
published last, however the waves of the publications have overlapped.
-/

set_option autoImplicit false
set_option relaxedAutoImplicit false

namespace Gossip

/-! ### Bringing news -/

/-- The parcel announces the metadata, and pursues a key. -/
structure InFlight.Brings (p : InFlight) (secret : String) (m : Metadata) (key : String) :
    Prop where
  announces : ∃ h batch, Carries ⟨secret, .forward h batch⟩ p.bytes ∧ h.news? = some m
  pursues : p.Pursues secret key

/-- A parcel that pursues a key, among those that announce the metadata, brings it there. -/
theorem Spreads.brings {settings : Settings} {membership : Membership} {moment : Moment}
    {h : Heartbeat} {sent : List Parcel} (hs : Spreads settings membership moment h sent)
    {m : Metadata} (hnews : h.news? = some m) {lineage : List ℕ} {p : InFlight}
    (hp : p ∈ numbered lineage sent) {key : String} (hpursues : p.Pursues settings.secret key) :
    p.Brings settings.secret m key := by
  obtain ⟨batch, hcarries⟩ := hs.carries p.toParcel (toParcel_mem_of_mem_numbered hp)
  exact ⟨⟨onward settings membership moment h, batch, hcarries, hnews⟩, hpursues⟩

/-- Assumes: a cluster with the sites' keys, settings and names of a meshed one. A parcel that
brings a site metadata is handed to it, or whoever is handed it sends one that does. -/
theorem Cluster.brings_deliver {n : ℕ} {c₀ c : Cluster n} (hmesh : c₀.Meshed)
    (hsites : ∀ i, (c.sites i).Continues (c₀.sites i)) {i : Fin n} {moment : Moment}
    {p : InFlight} (hkey : (c.sites i).key = p.key)
    (hlisted : c₀.ListedAt ⟨c.sites i, moment, p⟩) {x : Fin n} {secret : String}
    (hsecret : ∀ i, (c₀.sites i).node.settings.secret = secret) {m : Metadata}
    (hbrings : p.Brings secret m (c₀.sites x).key) :
    x = i ∧ ((c.sites i).hears p.bytes).bind Message.news? = some m ∨
      ∃ q ∈ numbered p.lineage ((c.sites i).hand moment p.bytes).2,
        q.Brings secret m (c₀.sites x).key := by
  obtain ⟨⟨h, batch, hcarries, hnews⟩, hpursues⟩ := hbrings
  have hown : (c.sites i).node.settings.secret = secret := by
    rw [(hsites i).settings, hsecret]
  rw [← hown] at hcarries hpursues ⊢
  by_cases hx : p.key = (c₀.sites x).key
  · refine Or.inl ⟨hmesh.key_injective ?_, ?_⟩
    · show (c₀.sites x).key = (c₀.sites i).key
      rw [← hx, ← hkey, (hsites i).key]
    · rw [Site.hears_of_carries hcarries, if_pos rfl]
      exact hnews
  · -- the site that is handed the parcel is not the one that is pursued, and sends the news on
    obtain ⟨h', batch', hcarries', hunmarked⟩ := hpursues.resolve_left hx
    have hself : (c₀.sites x).key ≠ (c.sites i).node.self.key := by
      rw [(hsites i).self, ← hmesh.key_eq, ← (hsites i).key, hkey]
      exact fun heq ↦ hx heq.symm
    have hamount : 0 < (c.sites i).node.settings.amount.toNat := by
      rw [(hsites i).settings]
      exact hmesh.amount_pos i
    obtain ⟨q, hq, hchases⟩ := Hop.exists_pursues ⟨c.sites i, moment, p⟩ hcarries' hamount hlisted x
      hself hunmarked
    have htaken := Hop.wave?_of_carries ⟨c.sites i, moment, p⟩ hcarries
    exact Or.inr ⟨q, hq, (Hop.sent_spreads htaken).brings hnews hq hchases⟩

/-- A site that publishes sends everybody else a parcel that brings what it has published, or one
that somebody will send on. -/
theorem Cluster.brings_publish {n : ℕ} {c₀ c : Cluster n} (hmesh : c₀.Meshed)
    (hsites : ∀ i, (c.sites i).Continues (c₀.sites i)) {i : Fin n} {moment : Moment}
    (hlisted : c₀.ListedBy ((c.sites i).node.membership.touch moment.now) moment) (data : Bytes)
    (root : List ℕ) {x : Fin n} (hx : x ≠ i) :
    ∃ q ∈ numbered root ((c.sites i).publish moment data).2,
      q.Brings (c.sites i).node.settings.secret (.publishedAt data moment.now)
        (c₀.sites x).key := by
  have hspreads := ((c.sites i).stored moment data).launch_spreads moment
    ((c.sites i).announcement moment data)
  have hown : (c.sites i).node.self.key = (c₀.sites i).key := by
    rw [(hsites i).self, ← hmesh.key_eq]
  have hne : (c₀.sites x).key ≠ (c.sites i).node.self.key := by
    rw [hown]
    exact fun heq ↦ hx (hmesh.key_injective heq)
  have hunmarked : ((c.sites i).announcement moment data).infected.containsKey
      (c₀.sites x).key = false := by
    rw [Bool.eq_false_iff]
    exact fun hmarked ↦ hne ((Infected.containsKey_singleton _ _).mp hmarked)
  have hamount : 0 < (c.sites i).node.settings.amount.toNat := by
    rw [(hsites i).settings]
    exact hmesh.amount_pos i
  obtain ⟨m, hm, hkey⟩ := List.mem_map.mp ((hlisted _).mpr ⟨x, rfl⟩)
  rw [← hkey] at hne hunmarked ⊢
  rw [Site.publish_eq]
  obtain ⟨q, hq, hpursues⟩ := hspreads.exists_pursues hamount hm hne hunmarked root
  exact ⟨q, hq, hspreads.brings rfl hq hpursues⟩

/-! ### Campaigns -/

/-- Publications and deliveries in any order, with the record of what has been published. Every
broadcast finds exactly the cluster listed, and every version is greater than zero and than all
versions before it. -/
inductive Campaign {n : ℕ} (c₀ : Cluster n) : List Metadata → Cluster n → Prop
  | start : Campaign c₀ [] c₀
  | publish {record : List Metadata} {c : Cluster n} (hcampaign : Campaign c₀ record c) (i : Fin n)
      (moment : Moment) (data : Bytes) (root : List ℕ)
      (hlisted : c₀.ListedBy ((c.sites i).node.membership.touch moment.now) moment)
      (hpositive : 0 < moment.now.stamp) (hnewer : ∀ m ∈ record, m.version < moment.now.stamp) :
      Campaign c₀ (record ++ [((c.sites i).publish moment data).1.node.metadata])
        (c.publish i moment data root)
  | deliver {record : List Metadata} {c : Cluster n} (hcampaign : Campaign c₀ record c) (i : Fin n)
      (moment : Moment) {p : InFlight} (hp : p ∈ c.flight) (hkey : (c.sites i).key = p.key)
      (hlisted : c₀.ListedAt ⟨c.sites i, moment, p⟩) :
      Campaign c₀ record (c.deliver i moment p)

namespace Campaign

variable {n : ℕ} {c₀ c : Cluster n} {record : List Metadata}

theorem history (hcampaign : Campaign c₀ record c) : History c₀ record c := by
  induction hcampaign with
  | start => exact .start
  | @publish record c _ i moment data root _ _ _ ih =>
    rw [Site.metadata_publish]
    exact ih.publish_site i moment data root
  | deliver _ i moment hp _ _ ih => exact ih.deliver i moment hp

theorem continues (hcampaign : Campaign c₀ record c) (i : Fin n) :
    (c.sites i).Continues (c₀.sites i) := by
  induction hcampaign with
  | start => exact .refl _
  | @publish record c _ j moment data root _ _ _ ih =>
    exact (c.continues_publish j moment data root i).trans ih
  | @deliver record c _ j moment p _ _ _ ih => exact (c.continues_deliver j moment p i).trans ih

/-- What has been published last is newer than anything else that has been. -/
theorem newest (hcampaign : Campaign c₀ record c) {m : Metadata}
    (hlast : record.getLast? = some m) :
    0 < m.version ∧ ∀ m' ∈ record, m' = m ∨ m'.version < m.version := by
  induction hcampaign with
  | start => exact absurd hlast (by simp)
  | @publish record c _ i moment data root _ hpositive hnewer _ =>
    rw [Site.metadata_publish, List.getLast?_concat] at hlast
    obtain rfl := Option.some.inj hlast
    refine ⟨hpositive, fun m' hm' ↦ ?_⟩
    rcases List.mem_append.mp hm' with hm' | hm'
    · exact Or.inr (hnewer m' hm')
    · rw [List.mem_singleton.mp hm', Site.metadata_publish]
      exact Or.inl rfl
  | deliver _ _ _ _ _ _ ih => exact ih hlast

/-- What is stored or told of anywhere is what has been published last, or older. -/
theorem attested (hcampaign : Campaign c₀ record c) (hempty : ∀ i, (c₀.sites i).node.metadata = {})
    (hquiet : c₀.flight = 0) {m : Metadata} (hlast : record.getLast? = some m) :
    c.Attested fun k ↦ k = m ∨ k.version < m.version := by
  have hstart : c₀.Attested fun k ↦ k = {} := by
    refine ⟨hempty, fun p hp ↦ ?_⟩
    rw [hquiet] at hp
    exact absurd hp (Multiset.notMem_zero p)
  obtain ⟨hpositive, hnewest⟩ := hcampaign.newest hlast
  refine (hcampaign.history.attested hstart).mono fun k hk ↦ ?_
  rcases hk with rfl | hk
  · exact Or.inr hpositive
  · exact hnewest k hk

/-- While a site does not store what has been published last, something brings it there. -/
theorem exists_brings (hmesh : c₀.Meshed) (hempty : ∀ i, (c₀.sites i).node.metadata = {})
    (hquiet : c₀.flight = 0) (hcampaign : Campaign c₀ record c) {m : Metadata}
    (hlast : record.getLast? = some m) {secret : String}
    (hsecret : ∀ i, (c₀.sites i).node.settings.secret = secret) (x : Fin n) :
    (c.sites x).node.metadata = m ∨ ∃ p ∈ c.flight, p.Brings secret m (c₀.sites x).key := by
  induction hcampaign with
  | start => exact absurd hlast (by simp)
  | @publish record c hcampaign i moment data root hlisted _ _ _ =>
    rw [Site.metadata_publish, List.getLast?_concat] at hlast
    obtain rfl := Option.some.inj hlast
    rw [Cluster.sites_publish]
    by_cases hx : x = i
    · rw [if_pos hx]
      exact Or.inl (Site.metadata_publish _ moment data)
    · obtain ⟨q, hq, hbrings⟩ :=
        Cluster.brings_publish hmesh hcampaign.continues hlisted data root hx
      rw [(hcampaign.continues i).settings, hsecret] at hbrings
      exact Or.inr ⟨q, Multiset.mem_add.mpr (Or.inr (Multiset.mem_coe.mpr hq)), hbrings⟩
  | @deliver record c hcampaign i moment p hp hkey hlisted ih =>
    have hattested := hcampaign.attested hempty hquiet hlast
    rw [Cluster.metadata_deliver]
    rcases ih hlast with hstored | ⟨q, hq, hbrings⟩
    · -- nothing that can be told makes the site go back
      left
      rw [hstored]
      split
      · refine Metadata.learn_eq_self fun k hk ↦ ?_
        obtain ⟨message, hmessage, hnews⟩ := Option.bind_eq_some_iff.mp hk
        exact hattested.told p hp message (Site.mem_readings_of_hears hmessage) k hnews
      · rfl
    · by_cases hne : q = p
      · subst hne
        rcases Cluster.brings_deliver hmesh hcampaign.continues hkey hlisted hsecret hbrings with
          ⟨rfl, hnews⟩ | ⟨r, hr, hbrings⟩
        · rw [if_pos rfl, hnews]
          exact Or.inl (Metadata.learn_eq_news (hattested.stored x))
        · exact Or.inr ⟨r, Cluster.mem_flight_deliver.mpr (Or.inr hr), hbrings⟩
      · exact Or.inr ⟨q, Cluster.mem_flight_deliver.mpr
          (Or.inl ((Multiset.mem_erase_of_ne hne).mpr hq)), hbrings⟩

theorem append_run {c' : Cluster n} (hcampaign : Campaign c₀ record c) {hops : List Hop}
    (hrun : Run c hops c') (hlisted : ∀ hop ∈ hops, c₀.ListedAt hop) : Campaign c₀ record c' := by
  induction hrun with
  | nil => exact hcampaign
  | @snoc hops c _ i moment p hp hkey ih =>
    exact .deliver (ih fun hop hhop ↦ hlisted hop (List.mem_append_left _ hhop)) i moment hp hkey
      (hlisted _ (List.mem_append_right _ (List.mem_singleton.mpr rfl)))

end Campaign

/-- Assumes: a cluster of any size whose sites have distinct keys, share a secret and send waves on
to at least one target; nothing is stored and nothing is in flight at first; then publications at
any sites and deliveries in any order, any order in which members are listed, any way in which
packets go out; every broadcast lists exactly the cluster, and every version is greater than zero
and than all before it; and in the end nothing is in flight. Then every site stores what has been
published last. -/
theorem newest_publication_prevails {n : ℕ} {c₀ c : Cluster n} {record : List Metadata}
    {m : Metadata} (hmesh : c₀.Meshed) (hempty : ∀ i, (c₀.sites i).node.metadata = {})
    (hquiet : c₀.flight = 0) (hcampaign : Campaign c₀ record c) (hlast : record.getLast? = some m)
    (hdone : c.flight = 0) (i : Fin n) : (c.sites i).node.metadata = m := by
  rcases hcampaign.exists_brings hmesh hempty hquiet hlast (fun j ↦ hmesh.secret_eq j i) i with
    hstored | ⟨p, hp, -⟩
  · exact hstored
  · rw [hdone] at hp
    exact absurd hp (Multiset.notMem_zero p)

theorem newest_publication_prevails_of_three :
    ∃ hops c, Run Cluster.contested hops c ∧ c.flight = 0 ∧
      ∀ i, (c.sites i).node.metadata = .publishedAt [2] daybreak.now := by
  have hmesh : (Cluster.mesh 3 2 dawn.now).Meshed :=
    Cluster.meshed_mesh (by decide) (by decide) dawn.now
  have hstart : Campaign (Cluster.mesh 3 2 dawn.now) [] (Cluster.mesh 3 2 dawn.now) := .start
  have hfirst := hstart.publish 0 dawn [1] [0] Cluster.closed_announced.1 (by decide) (by simp)
  rw [Site.metadata_publish] at hfirst
  have hsecond := hfirst.publish 1 daybreak [2] [1] Cluster.closed_contested.1 (by decide)
    (by decide)
  rw [Site.metadata_publish] at hsecond
  obtain ⟨hops, c, hrun, hdone, htimely⟩ := Cluster.closed_contested.2.exists_run
  have hlisted := (hrun.closed Cluster.closed_contested.2 htimely).2
  have hcampaign := hsecond.append_run hrun fun hop hhop h hwave ↦
    (hlisted hop hhop h hwave).of_continues Cluster.continues_contested
  exact ⟨hops, c, hrun, hdone,
    newest_publication_prevails hmesh (fun i ↦ rfl) rfl hcampaign rfl hdone⟩

end Gossip
