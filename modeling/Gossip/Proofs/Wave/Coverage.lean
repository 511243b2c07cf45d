import Gossip.Proofs.Wave.Acquaintance
import Gossip.Proofs.Wave.Casts
import Mathlib.Data.Fintype.Card

/-!
A wave reaches everybody. While a node that is known to all has not been handed a parcel of the
wave, one is on its way to it, or some parcel of the wave does not have it marked; whoever is
handed that one still finds somebody to send it to. So when nothing of the wave is in flight any
more, nobody is left. A first broadcast that has targets for everybody ends the wave at once.
-/

set_option autoImplicit false
set_option relaxedAutoImplicit false

namespace Gossip

/-- The parcel is on its way to a key, or carries a wave that has not marked it. -/
def InFlight.Pursues (p : InFlight) (secret key : String) : Prop :=
  p.key = key ∨ ∃ h batch, Carries ⟨secret, .forward h batch⟩ p.bytes ∧
    h.infected.containsKey key = false

/-! ### One broadcast -/

/-- A broadcast that could still reach a key leaves a parcel that pursues it. -/
theorem Spreads.exists_pursues {settings : Settings} {membership : Membership} {moment : Moment}
    {h : Heartbeat} {sent : List Parcel} (hs : Spreads settings membership moment h sent)
    (hamount : 0 < settings.amount.toNat) {m : Member} (hm : m ∈ (membership.look moment).2)
    (hself : m.key ≠ membership.self.key) (hunmarked : h.infected.containsKey m.key = false)
    (lineage : List ℕ) : ∃ p ∈ numbered lineage sent, p.Pursues settings.secret m.key := by
  by_cases htarget : m.key ∈ sent.map Parcel.key
  · obtain ⟨p, hp, hkey⟩ := List.mem_map.mp htarget
    obtain ⟨i, hi⟩ := List.mem_iff_getElem?.mp hp
    exact ⟨⟨p, i :: lineage⟩, mem_numbered.mpr ⟨i, hi, rfl⟩, Or.inl hkey⟩
  · have hlacks : (onward settings membership moment h).infected.containsKey m.key = false := by
      rw [Bool.eq_false_iff, ne_eq, hs.containsKey_onward, not_or]
      exact ⟨Bool.eq_false_iff.mp hunmarked, htarget⟩
    obtain ⟨p, rest, rfl⟩ := List.exists_cons_of_ne_nil (hs.ne_nil hamount hm hself hunmarked)
    obtain ⟨batch, hcarries⟩ := hs.carries p List.mem_cons_self
    exact ⟨⟨p, 0 :: lineage⟩, mem_numbered.mpr ⟨0, rfl, rfl⟩,
      Or.inr ⟨_, batch, hcarries, hlacks⟩⟩

/-- A site that takes in a wave that could still reach another one leaves a parcel that pursues
that one. -/
theorem Hop.exists_pursues {n : ℕ} {c : Cluster n} (hop : Hop) {h : Heartbeat}
    {batch : Option BatchKey}
    (hcarries : Carries ⟨hop.site.node.settings.secret, .forward h batch⟩ hop.parcel.bytes)
    (hamount : 0 < hop.site.node.settings.amount.toNat) (hlisted : c.ListedAt hop) (x : Fin n)
    (hself : (c.sites x).key ≠ hop.site.node.self.key)
    (hunmarked : h.infected.containsKey (c.sites x).key = false) :
    ∃ p ∈ hop.children, p.Pursues hop.site.node.settings.secret (c.sites x).key := by
  have htaken := hop.wave?_of_carries hcarries
  obtain ⟨m, hm, hkey⟩ := List.mem_map.mp ((hlisted h htaken _).mpr ⟨x, rfl⟩)
  rw [← hkey] at hself hunmarked ⊢
  exact (Hop.sent_spreads htaken).exists_pursues hamount hm hself hunmarked _

section Coverage

variable {n : ℕ} {c₀ c₁ c : Cluster n} {hops : List Hop}

/-- Assumes: a cluster with the sites' keys, settings and names of a meshed one. Where a parcel
pursues a site, the site is handed a parcel that comes from it, or such a parcel still pursues the
site. -/
theorem Run.pursues (hmesh : c₀.Meshed) (hsites : ∀ i, (c₁.sites i).Continues (c₀.sites i))
    (hrun : Run c₁ hops c) {q : InFlight} (hq : q ∈ c₁.flight) (x : Fin n) {secret : String}
    (hsecret : ∀ i, (c₀.sites i).node.settings.secret = secret)
    (hpursues : q.Pursues secret (c₀.sites x).key)
    (hlisted : ∀ hop ∈ hops, q.lineage <:+ hop.parcel.lineage → c₀.ListedAt hop) :
    (∃ hop ∈ hops, q.lineage <:+ hop.parcel.lineage ∧ hop.parcel.key = (c₀.sites x).key) ∨
      ∃ p ∈ c.flight, q.lineage <:+ p.lineage ∧ p.Pursues secret (c₀.sites x).key := by
  induction hrun with
  | nil => exact Or.inr ⟨q, hq, List.suffix_refl _, hpursues⟩
  | @snoc hops c hrun i moment p hp hkey ih =>
    have hlast := hlisted ⟨c.sites i, moment, p⟩
      (List.mem_append_right _ (List.mem_singleton.mpr rfl))
    rcases ih fun hop hhop ↦ hlisted hop (List.mem_append_left _ hhop) with
      ⟨hop, hhop, hreached⟩ | ⟨r, hr, hsuffix, hpursuing⟩
    · exact Or.inl ⟨hop, List.mem_append_left _ hhop, hreached⟩
    · by_cases hne : r = p
      · subst hne
        by_cases hx : r.key = (c₀.sites x).key
        · exact Or.inl ⟨_, List.mem_append_right _ (List.mem_singleton.mpr rfl), hsuffix, hx⟩
        · -- the site that is handed the parcel is not the one that is pursued, and sends it on
          obtain ⟨h, batch, hcarries, hunmarked⟩ := hpursuing.resolve_left hx
          have hsite := (hrun.continues i).trans (hsites i)
          have hself : (c₀.sites x).key ≠ (c.sites i).node.self.key := by
            rw [hsite.self, ← hmesh.key_eq, ← hsite.key, hkey]
            exact fun heq ↦ hx heq.symm
          have hsame : (c.sites i).node.settings.secret = secret := by
            rw [hsite.settings, hsecret]
          have hamount : 0 < (c.sites i).node.settings.amount.toNat := by
            rw [hsite.settings]
            exact hmesh.amount_pos i
          rw [← hsame] at hcarries
          obtain ⟨k, hk, hchases⟩ := Hop.exists_pursues ⟨c.sites i, moment, r⟩ hcarries hamount
            (hlast hsuffix) x hself hunmarked
          obtain ⟨j, hj⟩ := lineage_of_mem_numbered hk
          refine Or.inr ⟨k, Cluster.mem_flight_deliver.mpr (Or.inr hk), ?_, ?_⟩
          · rw [hj]
            exact hsuffix.trans (List.suffix_cons j r.lineage)
          · rw [← hsame]
            exact hchases
      · exact Or.inr ⟨r, Cluster.mem_flight_deliver.mpr
          (Or.inl ((Multiset.mem_erase_of_ne hne).mpr hr)), hsuffix, hpursuing⟩

/-! ### A whole wave -/

variable {o : Fin n} {start : Moment} {h₀ : Heartbeat} {root : List ℕ}

/-- Assumes: a wave that has nothing in flight any more, whose broadcasts have all listed the whole
cluster, and that had not marked a site when it started. The site has been handed a parcel. -/
theorem Run.exists_hop (hmesh : c₀.Meshed) (hstart : c₀.ListedBy (c₀.sites o).node.membership start)
    (hrun : Run (c₀.launch o start h₀ root) hops c)
    (hlisted : ∀ hop ∈ waveHops root hops, c₀.ListedAt hop)
    (hdone : ∀ p ∈ c.flight, ¬root <:+ p.lineage) {x : Fin n} (hx : x ≠ o)
    (hunmarked : h₀.infected.containsKey (c₀.sites x).key = false) :
    ∃ hop ∈ waveHops root hops, hop.parcel.key = (c₀.sites x).key := by
  obtain ⟨m, hm, hkey⟩ := List.mem_map.mp ((hstart _).mpr ⟨x, rfl⟩)
  have hself : m.key ≠ (c₀.sites o).node.self.key := by
    rw [hkey, ← hmesh.key_eq]
    exact fun heq ↦ hx (hmesh.key_injective heq)
  rw [← hkey] at hunmarked
  obtain ⟨q, hq, hpursues⟩ := (c₀.firstSent_spreads o start h₀).exists_pursues
    (hmesh.amount_pos o) hm hself hunmarked root
  rw [hkey] at hpursues
  obtain ⟨j, hj⟩ := lineage_of_mem_numbered hq
  have hroot : root <:+ q.lineage := hj ▸ List.suffix_cons j root
  have hflight : q ∈ (c₀.launch o start h₀ root).flight :=
    Multiset.mem_add.mpr (Or.inr (Multiset.mem_coe.mpr hq))
  rcases hrun.pursues hmesh (c₀.continues_launch o start h₀ root) hflight x
    (fun i ↦ hmesh.secret_eq i o) hpursues
    (fun hop hhop hsuffix ↦ hlisted hop (mem_waveHops.mpr ⟨hhop, hroot.trans hsuffix⟩)) with
    ⟨hop, hhop, hsuffix, hreached⟩ | ⟨p, hp, hsuffix, -⟩
  · exact ⟨hop, mem_waveHops.mpr ⟨hhop, hroot.trans hsuffix⟩, hreached⟩
  · exact absurd (hroot.trans hsuffix) (hdone p hp)

/-- A key that the first broadcast has marked is never targeted later. -/
theorem Run.count_sentKeys (hfresh : Fresh root c₀.flight)
    (hrun : Run (c₀.launch o start h₀ root) hops c) {key : String}
    (hmarked : (c₀.firstOnward o start h₀).infected.containsKey key = true) :
    (sentKeys root (c₀.firstSent o start h₀) hops).count key =
      ((c₀.firstSent o start h₀).map Parcel.key).count key := by
  have hlater : (((waveHops root hops).map Hop.cast).flatMap Cast.keys).count key = 0 := by
    apply List.count_eq_zero.mpr
    intro hmem
    obtain ⟨a, ha, hkey⟩ := List.mem_flatMap.mp hmem
    obtain ⟨hop, hhop, rfl⟩ := List.mem_map.mp ha
    exact hrun.not_mem_keys_of_marked hfresh hhop (Or.inl hmarked) hkey
  rw [sentKeys, casts, List.flatMap_cons, List.count_append, hlater, Nat.add_zero]
  rfl

end Coverage

section First

variable {n : ℕ} {c : Cluster n} {o : Fin n} {start : Moment} {h₀ : Heartbeat}

/-- A first broadcast with targets to spare marks everybody. -/
theorem Cluster.Meshed.marked_of_length_lt (hmesh : c.Meshed)
    (hstart : c.ListedBy (c.sites o).node.membership start)
    (hself : h₀.infected.containsKey (c.sites o).key = true)
    (hlength : (c.firstSent o start h₀).length < (c.sites o).node.settings.amount.toNat)
    (x : Fin n) : (c.firstOnward o start h₀).infected.containsKey (c.sites x).key = true := by
  by_cases hx : x = o
  · rw [hx]
    exact (c.containsKey_firstOnward _ _ _ _).mpr (Or.inl hself)
  · obtain ⟨m, hm, hkey⟩ := List.mem_map.mp ((hstart _).mpr ⟨x, rfl⟩)
    rw [← hkey]
    refine (c.firstSent_spreads o start h₀).containsKey_of_length_lt hlength hm ?_
    rw [hkey, ← Node.self, ← hmesh.key_eq]
    exact fun heq ↦ hx (hmesh.key_injective heq)

/-- A first broadcast with targets for everybody marks everybody. -/
theorem Cluster.Meshed.marks_everybody (hmesh : c.Meshed)
    (hstart : c.ListedBy (c.sites o).node.membership start)
    (hself : h₀.infected.containsKey (c.sites o).key = true)
    (hamount : n ≤ (c.sites o).node.settings.amount.toNat + 1) (x : Fin n) :
    (c.firstOnward o start h₀).infected.containsKey (c.sites x).key = true := by
  by_cases hlength : (c.firstSent o start h₀).length < (c.sites o).node.settings.amount.toNat
  · exact hmesh.marked_of_length_lt hstart hself hlength x
  · -- all targets have keys of the cluster, and there are as many of them as other sites
    by_contra hunmarked
    rw [Cluster.containsKey_firstOnward, not_or] at hunmarked
    have hspreads := c.firstSent_spreads o start h₀
    have hsubset : ((c.firstSent o start h₀).map Parcel.key).toFinset ⊆
        ((Finset.univ.image fun i ↦ (c.sites i).key).erase (c.sites o).key).erase
          (c.sites x).key := by
      intro key hkey
      rw [List.mem_toFinset] at hkey
      obtain ⟨⟨m, hm, hmkey⟩, hfree⟩ := hspreads.target_of_mem hkey
      obtain ⟨i, hi⟩ := (hstart key).mp (hmkey ▸ List.mem_map_of_mem hm)
      refine Finset.mem_erase.mpr ⟨?_, Finset.mem_erase.mpr ⟨?_, ?_⟩⟩
      · rintro rfl
        exact hunmarked.2 hkey
      · rintro rfl
        exact Bool.eq_false_iff.mp hfree hself
      · exact Finset.mem_image.mpr ⟨i, Finset.mem_univ i, hi⟩
    have hmem (i : Fin n) : (c.sites i).key ∈ Finset.univ.image fun i ↦ (c.sites i).key :=
      Finset.mem_image.mpr ⟨i, Finset.mem_univ i, rfl⟩
    have hne : (c.sites x).key ≠ (c.sites o).key := by
      intro heq
      rw [heq] at hunmarked
      exact hunmarked.1 hself
    have hcard := Finset.card_le_card hsubset
    rw [List.toFinset_card_of_nodup hspreads.nodup, List.length_map,
      Finset.card_erase_of_mem (Finset.mem_erase.mpr ⟨hne, hmem x⟩),
      Finset.card_erase_of_mem (hmem o), Finset.card_image_of_injective _ hmesh.key_injective,
      Finset.card_univ, Fintype.card_fin] at hcard
    have hpos := hmesh.amount_pos o
    omega

end First

/-- Assumes: a cluster of any size whose sites have distinct keys, share a secret and send waves on
to at least one target; a wave about its sender that starts at one of them, among whatever else is
in flight; any order of deliveries, any order in which members are listed, any way in which packets
go out; whatever broadcast of the wave lists exactly the cluster; and in the end nothing of the
wave is in flight. Then its sender has been handed no parcel of the wave, and everybody else at
least one: exactly one if the sender has targets for all of them. -/
theorem wave_reaches_everybody {n : ℕ} {c₀ c : Cluster n} {o : Fin n} {start : Moment}
    {root : List ℕ} {hops : List Hop} (hmesh : c₀.Meshed) (hfresh : Fresh root c₀.flight)
    (hstart : c₀.ListedBy (c₀.sites o).node.membership start)
    (hrun : Run (c₀.launch o start (.alive (c₀.sites o).node.self) root) hops c)
    (hlisted : ∀ hop ∈ waveHops root hops, c₀.ListedAt hop)
    (hdone : ∀ p ∈ c.flight, ¬root <:+ p.lineage) :
    received root hops (c₀.sites o).key = 0 ∧
      ∀ i, i ≠ o → 1 ≤ received root hops (c₀.sites i).key ∧
        (n ≤ (c₀.sites o).node.settings.amount.toNat + 1 →
          received root hops (c₀.sites i).key = 1) := by
  have hsingleton := hmesh.containsKey_alive o
  have hspreads := c₀.firstSent_spreads o start (.alive (c₀.sites o).node.self)
  refine ⟨?_, fun i hi ↦ ⟨?_, fun hamount ↦ ?_⟩⟩
  · have hmarked := (c₀.containsKey_firstOnward o start _ _).mpr (Or.inl ((hsingleton _).mpr rfl))
    rw [hrun.received_eq hfresh hdone, hrun.count_sentKeys hfresh hmarked]
    apply List.count_eq_zero.mpr
    intro hmem
    exact Bool.eq_false_iff.mp (hspreads.target_of_mem hmem).2 ((hsingleton _).mpr rfl)
  · have hunmarked : (Heartbeat.alive (c₀.sites o).node.self).infected.containsKey
        (c₀.sites i).key = false := by
      rw [Bool.eq_false_iff, ne_eq, hsingleton]
      exact fun heq ↦ hi (hmesh.key_injective heq)
    obtain ⟨hop, hhop, hkey⟩ := hrun.exists_hop hmesh hstart hlisted hdone hi hunmarked
    refine List.countP_pos_iff.mpr ⟨hop, hhop, ?_⟩
    rw [decide_eq_true_eq, hrun.key_eq hop (mem_waveHops.mp hhop).1, hkey]
  · have hmarked := hmesh.marks_everybody hstart ((hsingleton _).mpr rfl) hamount i
    have hsent := (c₀.containsKey_firstOnward o start _ _).mp hmarked
    rw [hsingleton] at hsent
    have htarget := hsent.resolve_left fun heq ↦ hi (hmesh.key_injective heq)
    rw [hrun.received_eq hfresh hdone, hrun.count_sentKeys hfresh hmarked]
    exact List.count_eq_one_of_mem hspreads.nodup htarget

theorem wave_reaches_everybody_of_three :
    ∃ hops c, Run ((Cluster.mesh 3 2 dawn.now).launch 0 dawn
        (.alive ((Cluster.mesh 3 2 dawn.now).sites 0).node.self) [0]) hops c ∧
      received [0] hops ((Cluster.mesh 3 2 dawn.now).sites 0).key = 0 ∧
      received [0] hops ((Cluster.mesh 3 2 dawn.now).sites 1).key = 1 ∧
      received [0] hops ((Cluster.mesh 3 2 dawn.now).sites 2).key = 1 := by
  have hmesh : (Cluster.mesh 3 2 dawn.now).Meshed :=
    Cluster.meshed_mesh (by decide) (by decide) dawn.now
  obtain ⟨hops, c, hrun, hempty, hlisted⟩ := Cluster.mesh_exists_wave 2 dawn (0 : Fin 3) [0]
  obtain ⟨hnone, hall⟩ := wave_reaches_everybody hmesh (fresh_numbered [])
    ((Cluster.closed_mesh 3 2 dawn.now).listedBy 0 (Int.le_refl _)) hrun
    (fun hop hhop ↦ hlisted hop (mem_waveHops.mp hhop).1) (by rw [hempty]; simp)
  exact ⟨hops, c, hrun, hnone, (hall 1 (by decide)).2 (by decide),
    (hall 2 (by decide)).2 (by decide)⟩

end Gossip
