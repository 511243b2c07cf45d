import Gossip.Proofs.Wave.Coverage
import Mathlib.Data.List.Pairwise

/-!
When a wave reaches somebody twice. Broadcasts of one wave that go on from one another never
share a target, since the later one has the marks of the earlier one. Broadcasts that do not go on
from one another know nothing of each other, and nothing keeps them from choosing the same peer.
They exist as soon as some broadcast sends two parcels; so a wave that can still reach somebody
after such a fork does so on both ways.
-/

set_option autoImplicit false
set_option relaxedAutoImplicit false

namespace Gossip

/-! ### Counting in a log -/

theorem count_flatMap_le_one {α : Type} {l : List α} {f : α → List String} {key : String}
    (hnodup : ∀ a ∈ l, (f a).Nodup) :
    (l.flatMap f).count key ≤ 1 ↔ l.Pairwise fun a b ↦ key ∈ f a → key ∉ f b := by
  induction l with
  | nil => simp
  | cons a l ih =>
    have hone := List.nodup_iff_count.mp (hnodup a List.mem_cons_self) key
    have hrest := ih fun b hb ↦ hnodup b (List.mem_cons_of_mem a hb)
    rw [List.flatMap_cons, List.count_append, List.pairwise_cons, ← hrest]
    by_cases hmem : key ∈ f a
    · have hcount := List.count_pos_iff.mpr hmem
      constructor
      · intro hle
        refine ⟨fun b hb _ hkey ↦ ?_, by omega⟩
        have hlater := List.count_pos_iff.mpr (List.mem_flatMap.mpr ⟨b, hb, hkey⟩)
        omega
      · rintro ⟨hapart, -⟩
        have hnone : (l.flatMap f).count key = 0 := by
          apply List.count_eq_zero.mpr
          intro hkey
          obtain ⟨b, hb, hkeyb⟩ := List.mem_flatMap.mp hkey
          exact hapart b hb hmem hkeyb
        omega
    · rw [List.count_eq_zero.mpr hmem, Nat.zero_add]
      exact ⟨fun hle ↦ ⟨fun b _ hkey ↦ absurd hkey hmem, hle⟩, And.right⟩

theorem two_le_count_map {α : Type} [DecidableEq α] {l : List α} {f : α → String} {a b : α}
    (ha : a ∈ l) (hb : b ∈ l) (hne : a ≠ b) {key : String} (hfa : f a = key) (hfb : f b = key) :
    2 ≤ (l.map f).count key := by
  have hpair : [a, b].Nodup := by simp [hne]
  have hsubperm : [a, b].Subperm l := by
    apply List.subperm_of_subset hpair
    intro y hy
    rcases List.mem_cons.mp hy with rfl | hy
    · exact ha
    · exact List.mem_singleton.mp hy ▸ hb
  obtain ⟨pair, hperm, hsublist⟩ := hsubperm
  have hcount := (hsublist.map f).count_le key
  rw [(hperm.map f).count_eq key] at hcount
  simpa [hfa, hfb] using hcount

/-- Lineages that do not go on from one another part somewhere. -/
theorem Apart.exists_fork {l l' : List ℕ} (h : Apart l l') :
    ∃ u i v j σ, l = u ++ i :: σ ∧ l' = v ++ j :: σ ∧ i ≠ j := by
  induction l with
  | nil => exact absurd (List.nil_suffix) h.1
  | cons i t ih =>
    by_cases hsuffix : t <:+ l'
    · obtain ⟨v, rfl⟩ := hsuffix
      rcases List.eq_nil_or_concat v with rfl | ⟨v, j, rfl⟩
      · exact absurd (List.suffix_cons i t) h.2
      · refine ⟨[], i, v, j, t, rfl, by simp, ?_⟩
        rintro rfl
        exact h.1 ⟨v, by simp⟩
    · obtain ⟨u, a, v, b, σ, ht, hl', hne⟩ := ih
        ⟨hsuffix, fun hreverse ↦ h.2 (hreverse.trans (List.suffix_cons i t))⟩
      exact ⟨i :: u, a, v, b, σ, by rw [ht, List.cons_append], hl', hne⟩

section Branches

variable {n : ℕ} {c₀ c : Cluster n} {o : Fin n} {start : Moment} {h₀ : Heartbeat} {root : List ℕ}
  {hops : List Hop}

/-- What a broadcast goes on from has been sent by another one. -/
theorem Run.exists_parent (hfresh : Fresh root c₀.flight)
    (hrun : Run (c₀.launch o start h₀ root) hops c) {a : Cast}
    (ha : a ∈ casts root (c₀.firstSent o start h₀) hops) {i : ℕ} {σ : List ℕ}
    (hlineage : a.lineage = i :: σ) (hroot : root <:+ σ) :
    ∃ e ∈ casts root (c₀.firstSent o start h₀) hops, e.lineage = σ ∧ i < e.sent.length := by
  rcases List.mem_cons.mp ha with rfl | ha
  · have hsuffix : i :: σ <:+ σ := hlineage ▸ hroot
    exact absurd hsuffix (not_cons_suffix i σ)
  · obtain ⟨hop, hhop, rfl⟩ := List.mem_map.mp ha
    obtain ⟨e, he, hparcel⟩ := hrun.exists_cast_of_hop hfresh hhop
    obtain ⟨j, hget, hj⟩ := mem_numbered.mp hparcel
    have heq : j :: e.lineage = i :: σ := hj.symm.trans hlineage
    obtain ⟨rfl, rfl⟩ := List.cons.inj heq
    obtain ⟨hlt, -⟩ := List.getElem?_eq_some_iff.mp hget
    exact ⟨e, he, rfl, hlt⟩

theorem Run.exists_ancestor (hfresh : Fresh root c₀.flight)
    (hrun : Run (c₀.launch o start h₀ root) hops c) {a : Cast}
    (ha : a ∈ casts root (c₀.firstSent o start h₀) hops) {u : List ℕ} {i : ℕ} {σ : List ℕ}
    (hlineage : a.lineage = u ++ i :: σ) (hroot : root <:+ σ) :
    ∃ e ∈ casts root (c₀.firstSent o start h₀) hops, e.lineage = σ ∧ i < e.sent.length := by
  induction u generalizing a with
  | nil => exact hrun.exists_parent hfresh ha hlineage hroot
  | cons k u ih =>
    have hbelow : root <:+ u ++ i :: σ :=
      (hroot.trans (List.suffix_cons i σ)).trans (List.suffix_append u _)
    obtain ⟨e, he, hparent, -⟩ := hrun.exists_parent hfresh ha hlineage hbelow
    exact ih he hparent

/-- Broadcasts of a wave that do not go on from one another go on from one that has sent at least
two parcels. -/
theorem Run.exists_fork (hfresh : Fresh root c₀.flight)
    (hrun : Run (c₀.launch o start h₀ root) hops c) {a b : Cast}
    (ha : a ∈ casts root (c₀.firstSent o start h₀) hops)
    (hb : b ∈ casts root (c₀.firstSent o start h₀) hops) (hapart : Apart a.lineage b.lineage) :
    ∃ e ∈ casts root (c₀.firstSent o start h₀) hops, 2 ≤ e.sent.length ∧
      e.lineage <:+ b.lineage ∧ e.lineage ≠ b.lineage := by
  obtain ⟨u, i, v, j, σ, hal, hbl, hne⟩ := hapart.exists_fork
  have hsuffixes : i :: σ <:+ a.lineage ∧ j :: σ <:+ b.lineage :=
    ⟨hal ▸ List.suffix_append u _, hbl ▸ List.suffix_append v _⟩
  have hparted : ¬i :: σ <:+ b.lineage := by
    intro hsuffix
    have hnested := List.suffix_of_suffix_length_le hsuffix hsuffixes.2 (by simp)
    exact hne (List.head_eq_of_cons_eq (hnested.eq_of_length (by simp)))
  have hroot : root <:+ σ := by
    have hrootb := suffix_of_mem_casts hb
    rcases List.suffix_or_suffix_of_suffix (suffix_of_mem_casts ha) hsuffixes.1 with
      hsuffix | hsuffix
    · rcases List.suffix_cons_iff.mp hsuffix with heq | hsuffix
      · exact absurd (heq ▸ hrootb) hparted
      · exact hsuffix
    · exact absurd (hsuffix.trans hrootb) hparted
  obtain ⟨e, he, hel, hi⟩ := hrun.exists_ancestor hfresh ha hal hroot
  obtain ⟨e', he', hel', hj⟩ := hrun.exists_ancestor hfresh hb hbl hroot
  have hsame : e = e' := hrun.cast_eq hfresh he he' (hel.trans hel'.symm)
  subst hsame
  refine ⟨e, he, by omega, ?_, ?_⟩
  · rw [hel]
    exact (List.suffix_cons j σ).trans hsuffixes.2
  · rw [hel, hbl]
    intro heq
    have hlength := congrArg List.length heq
    rw [List.length_append, List.length_cons] at hlength
    omega

/-- A broadcast never targets what one that it goes on from has marked. -/
theorem Run.not_mem_keys_of_ancestor (hfresh : Fresh root c₀.flight)
    (hrun : Run (c₀.launch o start h₀ root) hops c) {a b : Cast}
    (ha : a ∈ casts root (c₀.firstSent o start h₀) hops)
    (hb : b ∈ casts root (c₀.firstSent o start h₀) hops) (hsuffix : a.lineage <:+ b.lineage)
    (hne : a.lineage ≠ b.lineage) {p : Parcel} (hp : p ∈ a.sent) {key : String}
    (hmarks : p.Marks key) : key ∉ b.keys := by
  rcases List.mem_cons.mp hb with rfl | hb
  · -- nothing comes before the root
    have hroot := suffix_of_mem_casts ha
    exact absurd (hsuffix.eq_of_length_le hroot.length_le) hne
  · obtain ⟨hop, hhop, rfl⟩ := List.mem_map.mp hb
    exact hrun.not_mem_keys_of_marked hfresh hhop (Or.inr ⟨a, ha, hsuffix, hne, p, hp, hmarks⟩)

/-- A key is sent at most one parcel of a wave exactly if no two of its broadcasts that do not go
on from one another both target it. -/
theorem Run.count_sentKeys_le_one_iff (hfresh : Fresh root c₀.flight)
    (hrun : Run (c₀.launch o start h₀ root) hops c) (key : String) :
    (sentKeys root (c₀.firstSent o start h₀) hops).count key ≤ 1 ↔
      ∀ a ∈ casts root (c₀.firstSent o start h₀) hops,
        ∀ b ∈ casts root (c₀.firstSent o start h₀) hops,
          Apart a.lineage b.lineage → key ∈ a.keys → key ∉ b.keys := by
  rw [sentKeys, count_flatMap_le_one fun a ha ↦ hrun.keys_nodup hfresh ha]
  constructor
  · intro hpairwise a ha b hb hapart
    have hsymm : Std.Symm fun a b : Cast ↦ key ∈ a.keys → key ∉ b.keys :=
      ⟨fun a b hab hkb hka ↦ hab hka hkb⟩
    have hne : a ≠ b := by
      rintro rfl
      exact hapart.1 (List.suffix_refl _)
    exact hpairwise.forall ha hb hne
  · intro hforall
    refine (hrun.casts_pairwise hfresh _).imp_of_mem fun {a b} ha hb hlater hkey ↦ ?_
    by_cases hsuffix : a.lineage <:+ b.lineage
    · have hne : a.lineage ≠ b.lineage := fun heq ↦ hlater (heq ▸ List.suffix_refl _)
      obtain ⟨p, hp, rfl⟩ := List.mem_map.mp hkey
      rcases hrun.cast_spreads hfresh ha with hsilent | ⟨i, membership, moment, h, hspreads⟩
      · rw [hsilent] at hp
        exact absurd hp List.not_mem_nil
      · exact hrun.not_mem_keys_of_ancestor hfresh ha hb hsuffix hne hp
          (hspreads.marks_own hp hkey)
    · exact hforall a ha b hb ⟨hsuffix, hlater⟩ hkey

/-- In a wave each of whose broadcasts sends one parcel at most, nobody is sent two. -/
theorem Run.count_sentKeys_le_one_of_single (hfresh : Fresh root c₀.flight)
    (hrun : Run (c₀.launch o start h₀ root) hops c)
    (hsingle : ∀ a ∈ casts root (c₀.firstSent o start h₀) hops, a.sent.length ≤ 1)
    (key : String) : (sentKeys root (c₀.firstSent o start h₀) hops).count key ≤ 1 := by
  apply (hrun.count_sentKeys_le_one_iff hfresh key).mpr
  intro a ha b hb hapart
  obtain ⟨e, he, htwo, -⟩ := hrun.exists_fork hfresh ha hb hapart
  have hone := hsingle e he
  omega

/-- The run goes on from where a broadcast has just put its parcels on the network. -/
theorem Run.exists_rest (hrun : Run (c₀.launch o start h₀ root) hops c) {a : Cast}
    (ha : a ∈ casts root (c₀.firstSent o start h₀) hops) :
    ∃ c₁ rest, Run c₁ rest c ∧ (∀ i, (c₁.sites i).Continues (c₀.sites i)) ∧
      (∀ q ∈ a.children, q ∈ c₁.flight) ∧ ∀ hop ∈ rest, hop ∈ hops := by
  rcases List.mem_cons.mp ha with rfl | ha
  · refine ⟨_, hops, hrun, c₀.continues_launch o start h₀ root, fun q hq ↦ ?_, fun _ ↦ id⟩
    exact Multiset.mem_add.mpr (Or.inr (Multiset.mem_coe.mpr hq))
  · obtain ⟨hop, hhop, rfl⟩ := List.mem_map.mp ha
    obtain ⟨before, after, c₁, i, rfl, hbefore, hsite, hparcel, hafter⟩ :=
      hrun.split (mem_waveHops.mp hhop).1
    refine ⟨_, after, hafter, fun j ↦ ?_, fun q hq ↦ ?_, fun later hlater ↦ ?_⟩
    · exact (c₁.continues_deliver i hop.moment hop.parcel j).trans (hbefore.continues_launch j)
    · refine Cluster.mem_flight_deliver.mpr (Or.inr ?_)
      rw [hsite]
      exact hq
    · exact List.mem_append_right _ (List.mem_cons_of_mem _ hlater)

/-- Assumes: a wave that has nothing in flight any more, whose broadcasts have all listed the whole
cluster. Where one of its parcels pursued a site, the site has been handed a parcel that comes from
it. -/
theorem Run.exists_hop_below (hmesh : c₀.Meshed)
    (hrun : Run (c₀.launch o start h₀ root) hops c)
    (hlisted : ∀ hop ∈ waveHops root hops, c₀.ListedAt hop)
    (hdone : ∀ p ∈ c.flight, ¬root <:+ p.lineage) {a : Cast}
    (ha : a ∈ casts root (c₀.firstSent o start h₀) hops) {q : InFlight} (hq : q ∈ a.children)
    {x : Fin n} (hpursues : q.Pursues (c₀.sites o).node.settings.secret (c₀.sites x).key) :
    ∃ hop ∈ waveHops root hops, q.lineage <:+ hop.parcel.lineage ∧
      hop.parcel.key = (c₀.sites x).key := by
  have hroot : root <:+ q.lineage := by
    obtain ⟨j, hj⟩ := lineage_of_mem_numbered hq
    rw [hj]
    exact (suffix_of_mem_casts ha).trans (List.suffix_cons j _)
  obtain ⟨c₁, rest, hrest, hsites, hchildren, hsubset⟩ := hrun.exists_rest ha
  rcases hrest.pursues hmesh hsites (hchildren q hq) x (fun i ↦ hmesh.secret_eq i o) hpursues
    (fun hop hhop hsuffix ↦
      hlisted hop (mem_waveHops.mpr ⟨hsubset hop hhop, hroot.trans hsuffix⟩)) with
    ⟨hop, hhop, hsuffix, hkey⟩ | ⟨p, hp, hsuffix, -⟩
  · exact ⟨hop, mem_waveHops.mpr ⟨hsubset hop hhop, hroot.trans hsuffix⟩, hsuffix, hkey⟩
  · exact absurd (hroot.trans hsuffix) (hdone p hp)

/-- Where a broadcast has sent two parcels and left a site unmarked, both ways lead there. -/
theorem Run.two_le_count_sentKeys (hmesh : c₀.Meshed) (hfresh : Fresh root c₀.flight)
    (hrun : Run (c₀.launch o start h₀ root) hops c)
    (hlisted : ∀ hop ∈ waveHops root hops, c₀.ListedAt hop)
    (hdone : ∀ p ∈ c.flight, ¬root <:+ p.lineage) {a : Cast}
    (ha : a ∈ casts root (c₀.firstSent o start h₀) hops) (htwo : 2 ≤ a.sent.length)
    {p : Parcel} (hp : p ∈ a.sent) {x : Fin n} (hunmarked : ¬p.Marks (c₀.sites x).key) :
    2 ≤ (sentKeys root (c₀.firstSent o start h₀) hops).count (c₀.sites x).key := by
  obtain ⟨i, membership, moment, h, hspreads⟩ : ∃ i membership moment h,
      Spreads (c₀.sites i).node.settings membership moment h a.sent := by
    apply (hrun.cast_spreads hfresh ha).resolve_left
    intro hsilent
    rw [hsilent] at hp
    exact absurd hp List.not_mem_nil
  have hlacks : (onward (c₀.sites i).node.settings membership moment h).infected.containsKey
      (c₀.sites x).key = false := by
    rw [Parcel.marks_iff (hspreads.wave?_eq hp)] at hunmarked
    exact Bool.eq_false_iff.mpr hunmarked
  -- every one of the parcels pursues the site
  have hway (j : ℕ) (hj : j < a.sent.length) : ∃ hop ∈ waveHops root hops,
      j :: a.lineage <:+ hop.parcel.lineage ∧ hop.parcel.key = (c₀.sites x).key := by
    obtain ⟨batch, hcarries⟩ := hspreads.carries _ (List.getElem_mem hj)
    rw [hmesh.secret_eq i o] at hcarries
    exact hrun.exists_hop_below hmesh hlisted hdone ha
      (mem_numbered.mpr ⟨j, List.getElem?_eq_getElem hj, rfl⟩ :
        (⟨a.sent[j], j :: a.lineage⟩ : InFlight) ∈ a.children)
      (Or.inr ⟨_, batch, hcarries, hlacks⟩)
  obtain ⟨hop, hhop, hsuffix, hkey⟩ := hway 0 (by omega)
  obtain ⟨hop', hhop', hsuffix', hkey'⟩ := hway 1 (by omega)
  have hne : hop.parcel ≠ hop'.parcel := by
    intro heq
    rw [← heq] at hsuffix'
    have hnested := List.suffix_of_suffix_length_le hsuffix hsuffix' (by simp)
    exact Nat.zero_ne_one (List.head_eq_of_cons_eq (hnested.eq_of_length (by simp)))
  have hsent {hop : Hop} (hhop : hop ∈ waveHops root hops) :
      hop.parcel ∈ (casts root (c₀.firstSent o start h₀) hops).flatMap Cast.children :=
    List.mem_flatMap.mpr (hrun.exists_cast_of_hop hfresh hhop)
  rw [← map_key_flatMap_children]
  exact two_le_count_map (hsent hhop) (hsent hhop') hne hkey hkey'

/-- A first broadcast with targets for less than everybody leaves a site unmarked. -/
theorem Cluster.Meshed.exists_unmarked (hmesh : c₀.Meshed) (start : Moment)
    (hself : ∀ key, h₀.infected.containsKey key = true → key = (c₀.sites o).key)
    (hfew : (c₀.sites o).node.settings.amount.toNat + 1 < n) :
    ∃ x, (c₀.firstOnward o start h₀).infected.containsKey (c₀.sites x).key = false := by
  by_contra hall
  have hsubset : Finset.univ.image (fun i ↦ (c₀.sites i).key) ⊆
      insert (c₀.sites o).key ((c₀.firstSent o start h₀).map Parcel.key).toFinset := by
    intro key hkey
    obtain ⟨x, -, rfl⟩ := Finset.mem_image.mp hkey
    have hmarked : (c₀.firstOnward o start h₀).infected.containsKey (c₀.sites x).key = true :=
      Bool.not_eq_false _ ▸ fun hfalse ↦ hall ⟨x, hfalse⟩
    rw [Finset.mem_insert, List.mem_toFinset]
    exact ((c₀.containsKey_firstOnward o start h₀ _).mp hmarked).imp (hself _) id
  have hcard := (Finset.card_le_card hsubset).trans (Finset.card_insert_le _ _)
  rw [Finset.card_image_of_injective _ hmesh.key_injective, Finset.card_univ,
    Fintype.card_fin] at hcard
  have hkeys := List.toFinset_card_le ((c₀.firstSent o start h₀).map Parcel.key)
  have hlength := (c₀.firstSent_spreads o start h₀).length_le
  rw [List.length_map] at hkeys
  omega

/-- In a meshed cluster, where the first broadcast has two targets or more but not enough for
everybody, somebody is sent two parcels. -/
theorem Run.exists_two_le_count_sentKeys (hmesh : c₀.Meshed) (hfresh : Fresh root c₀.flight)
    (hstart : c₀.ListedBy (c₀.sites o).node.membership start)
    (hrun : Run (c₀.launch o start (.alive (c₀.sites o).node.self) root) hops c)
    (hlisted : ∀ hop ∈ waveHops root hops, c₀.ListedAt hop)
    (hdone : ∀ p ∈ c.flight, ¬root <:+ p.lineage)
    (htwo : 2 ≤ (c₀.sites o).node.settings.amount.toNat)
    (hfew : (c₀.sites o).node.settings.amount.toNat + 1 < n) :
    ∃ i, 2 ≤ (sentKeys root (c₀.firstSent o start (.alive (c₀.sites o).node.self)) hops).count
      (c₀.sites i).key := by
  have hspreads := c₀.firstSent_spreads o start (.alive (c₀.sites o).node.self)
  have hself (key : String) := (hmesh.containsKey_alive o key).mp
  obtain ⟨x, hx⟩ := hmesh.exists_unmarked start hself hfew
  -- so the first broadcast has used all its targets
  have hlength : 2 ≤ (c₀.firstSent o start (.alive (c₀.sites o).node.self)).length := by
    by_contra hless
    have hspare : (c₀.firstSent o start (.alive (c₀.sites o).node.self)).length <
        (c₀.sites o).node.settings.amount.toNat := by
      omega
    have hmarked := hmesh.marked_of_length_lt hstart
      ((hmesh.containsKey_alive o _).mpr rfl) hspare x
    exact Bool.eq_false_iff.mp hx hmarked
  obtain ⟨p, rest, hsent⟩ := List.exists_cons_of_ne_nil (List.ne_nil_of_length_pos
    (Nat.lt_of_lt_of_le Nat.zero_lt_two hlength))
  have hp : p ∈ c₀.firstSent o start (.alive (c₀.sites o).node.self) :=
    hsent ▸ List.mem_cons_self
  refine ⟨x, hrun.two_le_count_sentKeys hmesh hfresh hlisted hdone
    (a := ⟨root, c₀.firstSent o start _⟩) List.mem_cons_self hlength hp fun hmarks ↦ ?_⟩
  rw [Parcel.marks_iff (hspreads.wave?_eq hp)] at hmarks
  exact absurd hmarks (Bool.eq_false_iff.mp hx)

end Branches

/-- Assumes: a wave that starts at any site with any heartbeat, among whatever else is in flight,
in a cluster of any size with any memberships and settings; and any order of deliveries. A key is
sent at most one parcel of the wave exactly if no two broadcasts of it that do not go on from one
another both target the key. Where everybody lists the whole cluster and nothing of the wave is in
flight any more, all sites are sent at most one exactly if whatever broadcast has sent two parcels
has marked everybody. -/
theorem sent_at_most_once_iff {n : ℕ} {c₀ c : Cluster n} {o : Fin n} {start : Moment}
    {h₀ : Heartbeat} {root : List ℕ} {hops : List Hop} (hfresh : Fresh root c₀.flight)
    (hrun : Run (c₀.launch o start h₀ root) hops c) :
    (∀ key, (sentKeys root (c₀.firstSent o start h₀) hops).count key ≤ 1 ↔
      ∀ a ∈ casts root (c₀.firstSent o start h₀) hops,
        ∀ b ∈ casts root (c₀.firstSent o start h₀) hops,
          Apart a.lineage b.lineage → key ∈ a.keys → key ∉ b.keys) ∧
    (c₀.Meshed → (∀ hop ∈ waveHops root hops, c₀.ListedAt hop) →
      (∀ p ∈ c.flight, ¬root <:+ p.lineage) →
      ((∀ i, (sentKeys root (c₀.firstSent o start h₀) hops).count (c₀.sites i).key ≤ 1) ↔
        ∀ a ∈ casts root (c₀.firstSent o start h₀) hops, 2 ≤ a.sent.length →
          ∀ p ∈ a.sent, ∀ i, p.Marks (c₀.sites i).key)) := by
  refine ⟨fun key ↦ hrun.count_sentKeys_le_one_iff hfresh key, fun hmesh hlisted hdone ↦ ?_⟩
  constructor
  · intro honce a ha htwo p hp i
    by_contra hunmarked
    have hcount := hrun.two_le_count_sentKeys hmesh hfresh hlisted hdone ha htwo hp hunmarked
    exact absurd (honce i) (Nat.not_le_of_lt hcount)
  · intro hforks i
    apply (hrun.count_sentKeys_le_one_iff hfresh _).mpr
    intro a ha b hb hapart _ hkey
    -- whoever both broadcasts go on from has marked everybody
    obtain ⟨e, he, htwo, hsuffix, hne⟩ := hrun.exists_fork hfresh ha hb hapart
    obtain ⟨p, rest, hsent⟩ := List.exists_cons_of_ne_nil (List.ne_nil_of_length_pos (by omega) :
      e.sent ≠ [])
    have hp : p ∈ e.sent := hsent ▸ List.mem_cons_self
    exact hrun.not_mem_keys_of_ancestor hfresh he hb hsuffix hne hp (hforks e he htwo p hp i) hkey

theorem sent_at_most_once_iff_of_four :
    ∃ hops c, Run ((Cluster.mesh 4 2 dawn.now).launch 0 dawn
        (.alive ((Cluster.mesh 4 2 dawn.now).sites 0).node.self) [0]) hops c ∧
      ((∀ i, (sentKeys [0] ((Cluster.mesh 4 2 dawn.now).firstSent 0 dawn
            (.alive ((Cluster.mesh 4 2 dawn.now).sites 0).node.self)) hops).count
          ((Cluster.mesh 4 2 dawn.now).sites i).key ≤ 1) ↔
        ∀ a ∈ casts [0] ((Cluster.mesh 4 2 dawn.now).firstSent 0 dawn
            (.alive ((Cluster.mesh 4 2 dawn.now).sites 0).node.self)) hops,
          2 ≤ a.sent.length →
            ∀ p ∈ a.sent, ∀ i, p.Marks ((Cluster.mesh 4 2 dawn.now).sites i).key) := by
  obtain ⟨hops, c, hrun, hempty, hlisted⟩ := Cluster.mesh_exists_wave 2 dawn (0 : Fin 4) [0]
  refine ⟨hops, c, hrun, (sent_at_most_once_iff (fresh_numbered []) hrun).2 ?_ ?_ ?_⟩
  · exact Cluster.meshed_mesh (by decide) (by decide) dawn.now
  · exact fun hop hhop ↦ hlisted hop (mem_waveHops.mp hhop).1
  · rw [hempty]
    exact fun p hp ↦ absurd hp (Multiset.notMem_zero p)

/-- Four nodes, of which the first knows two, and these both know the fourth. -/
def Cluster.diamond : Cluster 4 where
  sites
    | 0 => .knowing 2 dawn.now 0 [1, 2]
    | 1 => .knowing 2 dawn.now 1 [3]
    | 2 => .knowing 2 dawn.now 2 [3]
    | 3 => .knowing 2 dawn.now 3 []
  flight := 0

/-- The publication of the first node. -/
def Heartbeat.ofDiamond : Heartbeat :=
  .announcing (Cluster.diamond.sites 0).node.self (.publishedAt [119] dawn.now)

/-- The two targets of the publication send it on to the fourth node, each without knowing of the
other. -/
theorem sent_twice_in_diamond :
    ∃ hops c, Run (Cluster.diamond.launch 0 dawn .ofDiamond []) hops c ∧
      2 ≤ (sentKeys [] (Cluster.diamond.firstSent 0 dawn .ofDiamond) hops).count
        (Cluster.diamond.sites 3).key := by
  have hspreads := Cluster.diamond.firstSent_spreads 0 dawn .ofDiamond
  have hkeys : (Cluster.diamond.firstSent 0 dawn .ofDiamond).map Parcel.key =
      [(Cluster.diamond.sites 1).key, (Cluster.diamond.sites 2).key] :=
    hspreads.keys.trans (by decide +kernel)
  obtain ⟨p, q, hsent⟩ := List.length_eq_two.mp (by simpa using congrArg List.length hkeys)
  rw [hsent] at hkeys
  obtain ⟨hp, hq⟩ : p.key = (Cluster.diamond.sites 1).key ∧
      q.key = (Cluster.diamond.sites 2).key := by
    simpa using hkeys
  obtain ⟨batch, hcarriesp⟩ := hspreads.carries p (by simp [hsent])
  obtain ⟨batch', hcarriesq⟩ := hspreads.carries q (by simp [hsent])
  have hflight {j : ℕ} {r : Parcel} (hr : [p, q][j]? = some r) :
      ⟨r, [j]⟩ ∈ (Cluster.diamond.launch 0 dawn .ofDiamond []).flight := by
    refine Multiset.mem_add.mpr (Or.inr (Multiset.mem_coe.mpr (mem_numbered.mpr ⟨j, ?_, rfl⟩)))
    exact (congrArg (·[j]?) hsent).trans hr
  -- each of the two targets is handed its parcel
  have hstart : Run (Cluster.diamond.launch 0 dawn .ofDiamond []) [] _ := .nil
  have hfirst := hstart.snoc 1 dawn (hflight (j := 0) rfl) hp.symm
  have hsecond := hfirst.snoc 2 dawn (Cluster.mem_flight_deliver.mpr (Or.inl
    ((Multiset.mem_erase_of_ne (by simp)).mpr (hflight (j := 1) rfl)))) hq.symm
  have honward : ∀ i ∈ [(1 : Fin 4), 2], (choice (Cluster.diamond.sites i).node.settings
      ((Cluster.diamond.sites i).node.membership.set
        (Cluster.diamond.firstOnward 0 dawn .ofDiamond).node dawn.now).1 dawn
      (Cluster.diamond.firstOnward 0 dawn .ofDiamond)).1.map Member.key =
        [(Cluster.diamond.sites 3).key] := by
    decide +kernel
  refine ⟨_, _, hsecond, ?_⟩
  rw [sentKeys_snoc_of_wave List.nil_suffix, sentKeys_snoc_of_wave List.nil_suffix,
    List.count_append, List.count_append]
  have hthird := (Hop.keys_sent ⟨Cluster.diamond.sites 1, dawn, ⟨p, [0]⟩⟩ hcarriesp).trans
    (honward 1 (by simp))
  have hfourth := (Hop.keys_sent ⟨Cluster.diamond.sites 2, dawn, ⟨q, [1]⟩⟩ hcarriesq).trans
    (honward 2 (by simp))
  have hsingle {l : List String} (h : l = [(Cluster.diamond.sites 3).key]) :
      1 ≤ l.count (Cluster.diamond.sites 3).key := by
    rw [h, List.count_singleton_self]
  exact Nat.add_le_add (Nat.le_add_left_of_le (hsingle hthird)) (hsingle hfourth)

end Gossip
