import Gossip.Proofs.Cluster
import Mathlib.Data.List.Nodup
import Mathlib.Data.Multiset.Filter
import Mathlib.Data.Multiset.UnionInter

/-!
The log of a wave. Its parcels are the ones whose lineages come from its root; each of its
broadcasts is written down with the lineage it goes on from. Lineages keep the parcels apart: no
two hops have the same one, and no hop comes before one that it goes on from. What the broadcasts
of the log have put on the network is what has been handed up and what is still in flight.
-/

set_option autoImplicit false
set_option relaxedAutoImplicit false

namespace Gossip

/-! ### Lineages -/

/-- Neither lineage goes on from the other. -/
def Apart (l l' : List ℕ) : Prop := ¬l <:+ l' ∧ ¬l' <:+ l

theorem Apart.symm {l l' : List ℕ} (h : Apart l l') : Apart l' l := ⟨h.2, h.1⟩

theorem not_cons_suffix (i : ℕ) (l : List ℕ) : ¬i :: l <:+ l := by
  intro h
  exact absurd h.length_le (by simp)

theorem suffix_of_cons_suffix {i : ℕ} {l l' : List ℕ} (h : i :: l <:+ l') : l <:+ l' :=
  (List.suffix_cons i l).trans h

theorem Apart.cons_left {l l' : List ℕ} (h : Apart l l') (i : ℕ) : Apart (i :: l) l' := by
  refine ⟨fun hsuffix ↦ h.1 (suffix_of_cons_suffix hsuffix), fun hsuffix ↦ ?_⟩
  rcases List.suffix_cons_iff.mp hsuffix with heq | hsuffix
  · exact h.1 (heq ▸ List.suffix_cons i l)
  · exact h.2 hsuffix

theorem apart_siblings {i j : ℕ} (h : i ≠ j) (l : List ℕ) : Apart (i :: l) (j :: l) := by
  have hne {a b : ℕ} (hab : a ≠ b) : ¬a :: l <:+ b :: l := by
    intro hsuffix
    have heq := hsuffix.eq_of_length (by simp)
    exact hab (List.head_eq_of_cons_eq heq)
  exact ⟨hne h, hne h.symm⟩

theorem nodup_numbered (l : List ℕ) (sent : List Parcel) : (numbered l sent).Nodup := by
  have hlineages : (numbered l sent).map InFlight.lineage =
      (List.range sent.length).map (· :: l) := by
    apply List.ext_getElem?
    intro i
    by_cases hi : i < sent.length
    · simp [numbered, hi]
    · simp [numbered, hi]
  refine List.Nodup.of_map InFlight.lineage ?_
  rw [hlineages]
  exact List.nodup_range.map fun a b h ↦ List.head_eq_of_cons_eq h

theorem lineage_of_mem_numbered {l : List ℕ} {sent : List Parcel} {p : InFlight}
    (hp : p ∈ numbered l sent) : ∃ i, p.lineage = i :: l := by
  obtain ⟨i, -, hlineage⟩ := mem_numbered.mp hp
  exact ⟨i, hlineage⟩

theorem apart_of_mem_numbered {l : List ℕ} {sent : List Parcel} {p q : InFlight}
    (hp : p ∈ numbered l sent) (hq : q ∈ numbered l sent) (hne : p ≠ q) :
    Apart p.lineage q.lineage := by
  obtain ⟨i, hpi, hpl⟩ := mem_numbered.mp hp
  obtain ⟨j, hqj, hql⟩ := mem_numbered.mp hq
  rw [hpl, hql]
  refine apart_siblings (fun hij ↦ hne ?_) l
  obtain ⟨pp, plineage⟩ := p
  obtain ⟨qp, qlineage⟩ := q
  subst hij
  rw [hpi] at hqj
  rw [InFlight.mk.injEq]
  exact ⟨Option.some.inj hqj, hpl.trans hql.symm⟩

/-! ### Parcels that are kept apart -/

/-- No two of the parcels have lineages that go on from one another. -/
structure Spaced (flight : Multiset InFlight) : Prop where
  nodup : flight.Nodup
  apart : ∀ p ∈ flight, ∀ q ∈ flight, p ≠ q → Apart p.lineage q.lineage

theorem Spaced.of_cons {p : InFlight} {rest : Multiset InFlight} (h : Spaced (p ::ₘ rest)) :
    Spaced rest ∧ ∀ q ∈ rest, Apart p.lineage q.lineage := by
  obtain ⟨hnotMem, hnodup⟩ := Multiset.nodup_cons.mp h.nodup
  refine ⟨⟨hnodup, fun q hq k hk ↦ ?_⟩, fun q hq ↦ ?_⟩
  · exact h.apart q (Multiset.mem_cons_of_mem hq) k (Multiset.mem_cons_of_mem hk)
  · refine h.apart p (Multiset.mem_cons_self p rest) q (Multiset.mem_cons_of_mem hq) ?_
    rintro rfl
    exact hnotMem hq

/-- Parcels that leave together go on from a lineage that all others are apart from. -/
theorem Spaced.add_numbered {rest : Multiset InFlight} (h : Spaced rest) {l : List ℕ}
    (hapart : ∀ q ∈ rest, Apart l q.lineage) (sent : List Parcel) :
    Spaced (rest + (numbered l sent : Multiset InFlight)) := by
  have hchild {q k : InFlight} (hq : q ∈ rest) (hk : k ∈ numbered l sent) :
      Apart k.lineage q.lineage := by
    obtain ⟨j, hj⟩ := lineage_of_mem_numbered hk
    rw [hj]
    exact (hapart q hq).cons_left j
  constructor
  · rw [Multiset.nodup_add]
    refine ⟨h.nodup, Multiset.coe_nodup.mpr (nodup_numbered l sent), ?_⟩
    rw [Multiset.disjoint_left]
    intro q hq hk
    exact (hchild hq (Multiset.mem_coe.mp hk)).1 (List.suffix_refl _)
  · intro q hq k hk hne
    rw [Multiset.mem_add, Multiset.mem_coe] at hq hk
    rcases hq with hq | hq <;> rcases hk with hk | hk
    · exact h.apart q hq k hk hne
    · exact (hchild hq hk).symm
    · exact hchild hk hq
    · exact apart_of_mem_numbered hq hk hne

/-- A root for a new wave: its lineages will be told from those of all that is in flight. -/
structure Fresh (root : List ℕ) (flight : Multiset InFlight) : Prop where
  spaced : Spaced flight
  apart : ∀ p ∈ flight, Apart root p.lineage

/-- Whatever is in flight can be numbered so that there is a fresh root. -/
theorem fresh_numbered (parcels : List Parcel) :
    Fresh [0] (numbered [1] parcels : Multiset InFlight) := by
  constructor
  · refine ⟨Multiset.coe_nodup.mpr (nodup_numbered [1] parcels), fun p hp q hq hne ↦ ?_⟩
    exact apart_of_mem_numbered (Multiset.mem_coe.mp hp) (Multiset.mem_coe.mp hq) hne
  · intro p hp
    obtain ⟨i, hi⟩ := lineage_of_mem_numbered (Multiset.mem_coe.mp hp)
    rw [hi]
    exact ((apart_siblings Nat.zero_ne_one []).symm.cons_left i).symm

/-- The lineages of the hops so far, and of what is in flight: nothing in flight goes on from
itself, from the root, or to a hop that has been. -/
structure Untangled (root : List ℕ) (hops : List Hop) (flight : Multiset InFlight) : Prop where
  spaced : Spaced flight
  beyond : ∀ p ∈ flight, ¬p.lineage <:+ root
  ahead : ∀ p ∈ flight, ∀ hop ∈ hops, ¬p.lineage <:+ hop.parcel.lineage

section Untangle

variable {n : ℕ} {c₀ c : Cluster n} {o : Fin n} {start : Moment} {h₀ : Heartbeat} {root : List ℕ}
  {hops : List Hop}

theorem untangled_launch (hfresh : Fresh root c₀.flight) :
    Untangled root [] (c₀.launch o start h₀ root).flight := by
  refine ⟨hfresh.spaced.add_numbered hfresh.apart _, fun p hp ↦ ?_, by simp⟩
  rw [Cluster.launch, Multiset.mem_add, Multiset.mem_coe] at hp
  rcases hp with hp | hp
  · exact (hfresh.apart p hp).2
  · obtain ⟨i, hi⟩ := lineage_of_mem_numbered hp
    rw [hi]
    exact not_cons_suffix i root

theorem Untangled.deliver (h : Untangled root hops c.flight) {p : InFlight} (hp : p ∈ c.flight)
    (i : Fin n) (moment : Moment) :
    Untangled root (hops ++ [⟨c.sites i, moment, p⟩]) (c.deliver i moment p).flight := by
  obtain ⟨rest, hrest⟩ := Multiset.exists_cons_of_mem hp
  have hspaced := h.spaced
  rw [hrest] at hspaced
  obtain ⟨hrestSpaced, hapart⟩ := hspaced.of_cons
  have hmem {q : InFlight} (hq : q ∈ rest) : q ∈ c.flight := by
    rw [hrest]
    exact Multiset.mem_cons_of_mem hq
  rw [Cluster.flight_deliver hrest]
  refine ⟨hrestSpaced.add_numbered hapart _, fun q hq ↦ ?_, fun q hq hop hhop ↦ ?_⟩
  · rcases Multiset.mem_add.mp hq with hq | hq
    · exact h.beyond q (hmem hq)
    · obtain ⟨j, hj⟩ := lineage_of_mem_numbered (Multiset.mem_coe.mp hq)
      rw [hj]
      exact fun hsuffix ↦ h.beyond p hp (suffix_of_cons_suffix hsuffix)
  · rcases Multiset.mem_add.mp hq with hq | hq <;> rcases List.mem_append.mp hhop with hhop | hhop
    · exact h.ahead q (hmem hq) hop hhop
    · rw [List.mem_singleton.mp hhop]
      exact (hapart q hq).2
    · obtain ⟨j, hj⟩ := lineage_of_mem_numbered (Multiset.mem_coe.mp hq)
      rw [hj]
      exact fun hsuffix ↦ h.ahead p hp hop hhop (suffix_of_cons_suffix hsuffix)
    · obtain ⟨j, hj⟩ := lineage_of_mem_numbered (Multiset.mem_coe.mp hq)
      rw [List.mem_singleton.mp hhop, hj]
      exact not_cons_suffix j p.lineage

/-- What stays in flight is apart from what is taken out. -/
theorem Untangled.apart_of_mem_erase (h : Untangled root hops c.flight) {p q : InFlight}
    (hp : p ∈ c.flight) (hq : q ∈ c.flight.erase p) : Apart p.lineage q.lineage := by
  obtain ⟨rest, hrest⟩ := Multiset.exists_cons_of_mem hp
  have hspaced := h.spaced
  rw [hrest] at hspaced
  rw [hrest, Multiset.erase_cons_head] at hq
  exact hspaced.of_cons.2 q hq

theorem Run.untangled (hfresh : Fresh root c₀.flight)
    (hrun : Run (c₀.launch o start h₀ root) hops c) : Untangled root hops c.flight := by
  induction hrun with
  | nil => exact untangled_launch hfresh
  | @snoc hops c hrun i moment p hp hkey ih => exact ih.deliver hp i moment

end Untangle

/-! ### The log -/

/-- A broadcast of a wave: the lineage it goes on from, and what it has put on the network. -/
structure Cast where
  lineage : List ℕ
  sent : List Parcel

namespace Cast

def children (cast : Cast) : List InFlight := numbered cast.lineage cast.sent

def keys (cast : Cast) : List String := cast.sent.map Parcel.key

end Cast

def Hop.cast (hop : Hop) : Cast := ⟨hop.parcel.lineage, hop.sent⟩

/-- The hops of the wave that comes from a root. -/
def waveHops (root : List ℕ) (hops : List Hop) : List Hop :=
  hops.filter fun hop ↦ root <:+ hop.parcel.lineage

/-- The broadcasts of a wave: the one at its root, and one for each of its hops. -/
def casts (root : List ℕ) (first : List Parcel) (hops : List Hop) : List Cast :=
  ⟨root, first⟩ :: (waveHops root hops).map Hop.cast

/-- The keys to which the parcels of a wave have been sent, each as often as it was. -/
def sentKeys (root : List ℕ) (first : List Parcel) (hops : List Hop) : List String :=
  (casts root first hops).flatMap Cast.keys

section Log

variable {root : List ℕ} {first : List Parcel} {hops : List Hop}

theorem waveHops_snoc_of_wave {hop : Hop} (h : root <:+ hop.parcel.lineage) :
    waveHops root (hops ++ [hop]) = waveHops root hops ++ [hop] := by
  simp [waveHops, h]

theorem waveHops_snoc_of_not_wave {hop : Hop} (h : ¬root <:+ hop.parcel.lineage) :
    waveHops root (hops ++ [hop]) = waveHops root hops := by
  simp [waveHops, h]

theorem casts_snoc_of_wave {hop : Hop} (h : root <:+ hop.parcel.lineage) :
    casts root first (hops ++ [hop]) = casts root first hops ++ [hop.cast] := by
  rw [casts, waveHops_snoc_of_wave h, List.map_append, casts]
  rfl

theorem casts_snoc_of_not_wave {hop : Hop} (h : ¬root <:+ hop.parcel.lineage) :
    casts root first (hops ++ [hop]) = casts root first hops := by
  rw [casts, waveHops_snoc_of_not_wave h, casts]

theorem sentKeys_snoc_of_wave {hop : Hop} (h : root <:+ hop.parcel.lineage) :
    sentKeys root first (hops ++ [hop]) = sentKeys root first hops ++ hop.cast.keys := by
  rw [sentKeys, casts_snoc_of_wave h, List.flatMap_append, List.flatMap_singleton, sentKeys]

theorem mem_waveHops {hop : Hop} :
    hop ∈ waveHops root hops ↔ hop ∈ hops ∧ root <:+ hop.parcel.lineage := by
  simp [waveHops]

theorem suffix_of_mem_casts {cast : Cast} (h : cast ∈ casts root first hops) :
    root <:+ cast.lineage := by
  rcases List.mem_cons.mp h with rfl | h
  · exact List.suffix_refl root
  · obtain ⟨hop, hhop, rfl⟩ := List.mem_map.mp h
    exact (mem_waveHops.mp hhop).2

theorem map_key_children (cast : Cast) :
    cast.children.map (fun p ↦ p.key) = cast.keys := by
  have h := congrArg (List.map Parcel.key) (map_toParcel_numbered cast.lineage cast.sent)
  rwa [List.map_map] at h

theorem map_key_flatMap_children :
    ((casts root first hops).flatMap Cast.children).map (fun p ↦ p.key) =
      sentKeys root first hops := by
  rw [List.map_flatMap, sentKeys]
  exact congrArg (fun f ↦ (casts root first hops).flatMap f) (funext map_key_children)

end Log

/-! ### What a run keeps -/

/-- The heartbeat of the wave that a parcel belongs to. -/
def Parcel.wave? (p : Parcel) : Option Heartbeat :=
  match Packet.decode p.bytes with
  | .error _ => none
  | .ok packet => packet.message.wave?

/-- The parcel belongs to a wave that has marked the key. -/
def Parcel.Marks (p : Parcel) (key : String) : Prop :=
  ∃ h, p.wave? = some h ∧ h.infected.containsKey key = true

theorem Parcel.marks_iff {p : Parcel} {h : Heartbeat} (hwave : p.wave? = some h) (key : String) :
    p.Marks key ↔ h.infected.containsKey key = true := by
  unfold Parcel.Marks
  rw [hwave]
  constructor
  · rintro ⟨h', heq, hmarked⟩
    rwa [Option.some.inj heq]
  · exact fun hmarked ↦ ⟨h, rfl, hmarked⟩

theorem Spreads.wave?_eq {settings : Settings} {membership : Membership} {moment : Moment}
    {h : Heartbeat} {sent : List Parcel} (hs : Spreads settings membership moment h sent)
    {p : Parcel} (hp : p ∈ sent) : p.wave? = some (onward settings membership moment h) := by
  obtain ⟨batch, hraw, -⟩ := hs.carries p hp
  unfold Parcel.wave?
  rw [hraw]
  rfl

theorem Spreads.marks_own {settings : Settings} {membership : Membership} {moment : Moment}
    {h : Heartbeat} {sent : List Parcel} (hs : Spreads settings membership moment h sent)
    {p : Parcel} (hp : p ∈ sent) {key : String} (hkey : key ∈ sent.map Parcel.key) :
    p.Marks key :=
  ⟨_, hs.wave?_eq hp, (hs.containsKey_onward key).mpr (Or.inr hkey)⟩

namespace Cluster

variable {n : ℕ} (c₀ : Cluster n) (o : Fin n) (start : Moment) (h₀ : Heartbeat)

/-- What the first broadcast of a wave sends. -/
def firstSent : List Parcel := ((c₀.sites o).launch start h₀).2

/-- The heartbeat as the first broadcast of a wave sends it on. -/
def firstOnward : Heartbeat :=
  onward (c₀.sites o).node.settings (c₀.sites o).node.membership start h₀

theorem firstSent_spreads :
    Spreads (c₀.sites o).node.settings (c₀.sites o).node.membership start h₀
      (c₀.firstSent o start h₀) :=
  (c₀.sites o).launch_spreads start h₀

theorem containsKey_firstOnward (key : String) :
    (c₀.firstOnward o start h₀).infected.containsKey key = true ↔
      h₀.infected.containsKey key = true ∨ key ∈ (c₀.firstSent o start h₀).map Parcel.key :=
  (c₀.firstSent_spreads o start h₀).containsKey_onward key

end Cluster

/-- The parcel carries a heartbeat that has all the marks of the broadcasts it comes from: those of
the first one, and those of every one in the log. -/
structure Inherits {n : ℕ} (c₀ : Cluster n) (first : Heartbeat) (log : List Cast) (p : InFlight)
    (h : Heartbeat) : Prop where
  carries : ∃ i batch, Carries ⟨(c₀.sites i).node.settings.secret, .forward h batch⟩ p.bytes
  first : ∀ key, first.infected.containsKey key = true → h.infected.containsKey key = true
  marks : ∀ a ∈ log, a.lineage <:+ p.lineage → ∀ q ∈ a.sent, ∀ key, q.Marks key →
    h.infected.containsKey key = true

namespace Inherits

variable {n : ℕ} {c₀ : Cluster n} {first : Heartbeat} {log : List Cast} {h : Heartbeat}

/-- A broadcast that the parcel does not come from changes nothing. -/
theorem snoc {p : InFlight} (hinherits : Inherits c₀ first log p h) {b : Cast}
    (hb : ¬b.lineage <:+ p.lineage) : Inherits c₀ first (log ++ [b]) p h := by
  refine ⟨hinherits.carries, hinherits.first, fun a ha hsuffix ↦ ?_⟩
  rw [List.mem_append, List.mem_singleton] at ha
  rcases ha with ha | rfl
  · exact hinherits.marks a ha hsuffix
  · exact absurd hsuffix hb

/-- What a site sends on has the marks that it has taken in, and those of its own broadcast. -/
theorem sent_on {hop : Hop} (hinherits : Inherits c₀ first log hop.parcel h) (i : Fin n)
    (hsettings : hop.site.node.settings = (c₀.sites i).node.settings)
    (hwave : hop.wave? = some h) (hlog : ∀ a ∈ log, ¬hop.parcel.lineage <:+ a.lineage)
    {q : InFlight} (hq : q ∈ hop.children) :
    Inherits c₀ first (log ++ [hop.cast]) q (onward hop.site.node.settings
      (hop.site.node.membership.set h.node hop.moment.now).1 hop.moment h) := by
  have hspreads := Hop.sent_spreads hwave
  have honward {key : String} (hkey : h.infected.containsKey key = true) :=
    (hspreads.containsKey_onward key).mpr (Or.inl hkey)
  obtain ⟨batch, hcarries⟩ := hspreads.carries q.toParcel (toParcel_mem_of_mem_numbered hq)
  obtain ⟨j, hj⟩ := lineage_of_mem_numbered hq
  refine ⟨⟨i, batch, hsettings ▸ hcarries⟩, fun key hkey ↦ honward (hinherits.first key hkey),
    fun a ha hsuffix b hb key hmarks ↦ ?_⟩
  rw [List.mem_append, List.mem_singleton] at ha
  rw [hj, List.suffix_cons_iff] at hsuffix
  rcases ha with ha | rfl
  · rcases hsuffix with heq | hsuffix
    · exact absurd (heq ▸ List.suffix_cons j hop.parcel.lineage) (hlog a ha)
    · exact honward (hinherits.marks a ha hsuffix b hb key hmarks)
  · exact (Parcel.marks_iff (hspreads.wave?_eq hb) key).mp hmarks

end Inherits

section Keeping

variable {n : ℕ} {c₀ c : Cluster n} {o : Fin n} {start : Moment} {h₀ : Heartbeat} {root : List ℕ}
  {hops : List Hop}

/-- A parcel that leaves with a hop of other traffic does not belong to the wave. -/
theorem Untangled.not_wave_child (huntangled : Untangled root hops c.flight) {p : InFlight}
    (hp : p ∈ c.flight) (hwave : ¬root <:+ p.lineage) (i : ℕ) : ¬root <:+ i :: p.lineage := by
  intro hsuffix
  rcases List.suffix_cons_iff.mp hsuffix with heq | hsuffix
  · exact huntangled.beyond p hp (heq ▸ List.suffix_cons i p.lineage)
  · exact hwave hsuffix

/-- No broadcast of the log goes on from a parcel that is in flight. -/
theorem Untangled.not_suffix_cast (huntangled : Untangled root hops c.flight) {p : InFlight}
    (hp : p ∈ c.flight) {first : List Parcel} {a : Cast} (ha : a ∈ casts root first hops) :
    ¬p.lineage <:+ a.lineage := by
  rcases List.mem_cons.mp ha with rfl | ha
  · exact huntangled.beyond p hp
  · obtain ⟨hop, hhop, rfl⟩ := List.mem_map.mp ha
    exact huntangled.ahead p hp hop (mem_waveHops.mp hhop).1

/-- The log stands in causal order: no broadcast goes on from a later one. -/
theorem Run.casts_pairwise (hfresh : Fresh root c₀.flight)
    (hrun : Run (c₀.launch o start h₀ root) hops c) (first : List Parcel) :
    (casts root first hops).Pairwise fun a b ↦ ¬b.lineage <:+ a.lineage := by
  induction hrun with
  | nil => exact List.pairwise_singleton _ _
  | @snoc hops c hrun i moment p hp hkey ih =>
    have huntangled := hrun.untangled hfresh
    by_cases hwave : root <:+ p.lineage
    · rw [casts_snoc_of_wave hwave]
      refine List.pairwise_append.mpr ⟨ih, List.pairwise_singleton _ _, fun a ha b hb ↦ ?_⟩
      rw [List.mem_singleton.mp hb]
      exact huntangled.not_suffix_cast hp ha
    · rwa [casts_snoc_of_not_wave hwave]

theorem Run.cast_eq (hfresh : Fresh root c₀.flight)
    (hrun : Run (c₀.launch o start h₀ root) hops c) {first : List Parcel} {a b : Cast}
    (ha : a ∈ casts root first hops) (hb : b ∈ casts root first hops)
    (heq : a.lineage = b.lineage) : a = b := by
  have hnodup : ((casts root first hops).map Cast.lineage).Nodup := by
    refine List.pairwise_map.mpr ((hrun.casts_pairwise hfresh first).imp fun hab hl ↦ hab ?_)
    exact hl ▸ List.suffix_refl _
  exact List.inj_on_of_nodup_map hnodup ha hb heq

theorem filter_numbered_of_suffix {l : List ℕ} (h : root <:+ l) (sent : List Parcel) :
    (numbered l sent : Multiset InFlight).filter (fun p ↦ root <:+ p.lineage) =
      (numbered l sent : Multiset InFlight) := by
  apply Multiset.filter_eq_self.mpr
  intro p hp
  obtain ⟨i, hi⟩ := lineage_of_mem_numbered (Multiset.mem_coe.mp hp)
  rw [hi]
  exact h.trans (List.suffix_cons i l)

/-- What the broadcasts of a wave have sent has been handed up or is still in flight. -/
theorem Run.conserves (hfresh : Fresh root c₀.flight)
    (hrun : Run (c₀.launch o start h₀ root) hops c) :
    ((waveHops root hops).map Hop.parcel : Multiset InFlight) +
        c.flight.filter (fun p ↦ root <:+ p.lineage) =
      ((casts root (c₀.firstSent o start h₀) hops).flatMap Cast.children : List InFlight) := by
  induction hrun with
  | nil =>
    have hothers : c₀.flight.filter (fun p ↦ root <:+ p.lineage) = 0 :=
      Multiset.filter_eq_nil.mpr fun p hp ↦ (hfresh.apart p hp).1
    have hflight : (c₀.launch o start h₀ root).flight =
        c₀.flight + numbered root (c₀.firstSent o start h₀) := rfl
    rw [hflight, Multiset.filter_add, hothers, Multiset.zero_add,
      filter_numbered_of_suffix (List.suffix_refl root)]
    simp [waveHops, casts, Cast.children]
  | @snoc hops c hrun i moment p hp hkey ih =>
    obtain ⟨rest, hrest⟩ := Multiset.exists_cons_of_mem hp
    rw [Cluster.flight_deliver hrest, Multiset.filter_add]
    rw [hrest] at ih
    by_cases hwave : root <:+ p.lineage
    · rw [Multiset.filter_cons_of_pos (p := fun q : InFlight ↦ root <:+ q.lineage) rest hwave] at ih
      rw [waveHops_snoc_of_wave hwave, casts_snoc_of_wave hwave, List.map_append,
        List.flatMap_append, ← Multiset.coe_add, ← Multiset.coe_add, ← ih,
        filter_numbered_of_suffix hwave, List.flatMap_singleton, List.map_singleton,
        Multiset.coe_singleton, ← Multiset.singleton_add]
      simp only [Multiset.add_assoc]
      rfl
    · have hchildren : (numbered p.lineage ((c.sites i).hand moment p.bytes).2 :
          Multiset InFlight).filter (fun p ↦ root <:+ p.lineage) = 0 := by
        apply Multiset.filter_eq_nil.mpr
        intro q hq
        obtain ⟨j, hj⟩ := lineage_of_mem_numbered (Multiset.mem_coe.mp hq)
        rw [hj]
        exact (hrun.untangled hfresh).not_wave_child hp hwave j
      rw [Multiset.filter_cons_of_neg (p := fun q : InFlight ↦ root <:+ q.lineage) rest hwave] at ih
      rw [waveHops_snoc_of_not_wave hwave, casts_snoc_of_not_wave hwave, hchildren,
        Multiset.add_zero, ih]

/-- Every parcel in flight has the marks of all broadcasts that it comes from. -/
theorem Run.inherits (hfresh : Fresh root c₀.flight)
    (hrun : Run (c₀.launch o start h₀ root) hops c) :
    ∀ p ∈ c.flight, root <:+ p.lineage →
      ∃ h, Inherits c₀ (c₀.firstOnward o start h₀) (casts root (c₀.firstSent o start h₀) hops)
        p h := by
  induction hrun with
  | nil =>
    intro p hp hwave
    rcases Multiset.mem_add.mp hp with hp | hp
    · exact absurd hwave (hfresh.apart p hp).1
    · have hspreads := c₀.firstSent_spreads o start h₀
      have hmem : p.toParcel ∈ c₀.firstSent o start h₀ :=
        toParcel_mem_of_mem_numbered (Multiset.mem_coe.mp hp)
      obtain ⟨batch, hcarries⟩ := hspreads.carries _ hmem
      refine ⟨c₀.firstOnward o start h₀, ⟨o, batch, hcarries⟩, fun key ↦ id,
        fun a ha _ q hq key hmarks ↦ ?_⟩
      rw [show casts root (c₀.firstSent o start h₀) [] =
        [⟨root, c₀.firstSent o start h₀⟩] from rfl, List.mem_singleton] at ha
      subst ha
      exact (Parcel.marks_iff (hspreads.wave?_eq hq) key).mp hmarks
  | @snoc hops c hrun i moment p hp hkey ih =>
    intro q hq hwave
    have huntangled := hrun.untangled hfresh
    rcases Cluster.mem_flight_deliver.mp hq with hq | hq
    · obtain ⟨h, hinherits⟩ := ih q (Multiset.mem_of_mem_erase hq) hwave
      by_cases hnew : root <:+ p.lineage
      · rw [casts_snoc_of_wave hnew]
        exact ⟨h, hinherits.snoc (huntangled.apart_of_mem_erase hp hq).1⟩
      · rw [casts_snoc_of_not_wave hnew]
        exact ⟨h, hinherits⟩
    · have hparent : root <:+ p.lineage := by
        obtain ⟨j, hj⟩ := lineage_of_mem_numbered hq
        by_contra hnot
        exact huntangled.not_wave_child hp hnot j (hj ▸ hwave)
      obtain ⟨h, hinherits⟩ := ih p hp hparent
      obtain ⟨k, batch, hcarries⟩ := hinherits.carries
      rcases Hop.wave?_or_silent ⟨c.sites i, moment, p⟩ hcarries with htaken | hsilent
      · rw [casts_snoc_of_wave hparent]
        exact ⟨_, hinherits.sent_on i (hrun.continues_launch i).settings htaken
          (fun a ha ↦ huntangled.not_suffix_cast hp ha) hq⟩
      · rw [Hop.sent] at hsilent
        rw [hsilent] at hq
        exact absurd hq List.not_mem_nil

/-- A site takes in the wave with the marks of all broadcasts that it comes from, or it sends
nothing. -/
theorem Run.hop_inherits (hfresh : Fresh root c₀.flight)
    (hrun : Run (c₀.launch o start h₀ root) hops c) :
    ∀ hop ∈ waveHops root hops, hop.sent = [] ∨ ∃ h, hop.wave? = some h ∧
      (∀ key, (c₀.firstOnward o start h₀).infected.containsKey key = true →
        h.infected.containsKey key = true) ∧
      ∀ a ∈ casts root (c₀.firstSent o start h₀) hops, a.lineage <:+ hop.parcel.lineage →
        a.lineage ≠ hop.parcel.lineage → ∀ p ∈ a.sent, ∀ key, p.Marks key →
          h.infected.containsKey key = true := by
  induction hrun with
  | nil => simp [waveHops]
  | @snoc hops c hrun i moment p hp hkey ih =>
    intro hop hhop
    have huntangled := hrun.untangled hfresh
    by_cases hwave : root <:+ p.lineage
    · rw [waveHops_snoc_of_wave hwave, List.mem_append, List.mem_singleton] at hhop
      rw [casts_snoc_of_wave hwave]
      rcases hhop with hhop | rfl
      · refine (ih hop hhop).imp id fun ⟨h, htaken, hfirst, hmarks⟩ ↦
          ⟨h, htaken, hfirst, fun a ha hsuffix ↦ ?_⟩
        rcases List.mem_append.mp ha with ha | ha
        · exact hmarks a ha hsuffix
        · rw [List.mem_singleton.mp ha] at hsuffix
          exact absurd hsuffix (huntangled.ahead p hp hop (mem_waveHops.mp hhop).1)
      · obtain ⟨h, hinherits⟩ := hrun.inherits hfresh p hp hwave
        obtain ⟨k, batch, hcarries⟩ := hinherits.carries
        refine (Hop.wave?_or_silent ⟨c.sites i, moment, p⟩ hcarries).symm.imp id
          fun htaken ↦ ⟨h, htaken, hinherits.first, fun a ha hsuffix hne ↦ ?_⟩
        rcases List.mem_append.mp ha with ha | ha
        · exact hinherits.marks a ha hsuffix
        · rw [List.mem_singleton.mp ha] at hne
          exact absurd rfl hne
    · rw [waveHops_snoc_of_not_wave hwave] at hhop
      rw [casts_snoc_of_not_wave hwave]
      exact ih hop hhop

/-- No broadcast targets a key that its wave had marked before: at its first broadcast, or at one
that it comes from. -/
theorem Run.not_mem_keys_of_marked (hfresh : Fresh root c₀.flight)
    (hrun : Run (c₀.launch o start h₀ root) hops c) {hop : Hop} (hhop : hop ∈ waveHops root hops)
    {key : String} (hmarked : (c₀.firstOnward o start h₀).infected.containsKey key = true ∨
      ∃ a ∈ casts root (c₀.firstSent o start h₀) hops, a.lineage <:+ hop.parcel.lineage ∧
        a.lineage ≠ hop.parcel.lineage ∧ ∃ p ∈ a.sent, p.Marks key) :
    key ∉ hop.cast.keys := by
  rcases hrun.hop_inherits hfresh hop hhop with hsilent | ⟨h, htaken, hfirst, hlog⟩
  · rw [Cast.keys, Hop.cast, hsilent]
    simp
  · intro hkey
    have hunmarked := ((Hop.sent_spreads htaken).target_of_mem hkey).2
    apply Bool.eq_false_iff.mp hunmarked
    rcases hmarked with hmarked | ⟨a, ha, hsuffix, hne, p, hp, hmarks⟩
    · exact hfirst key hmarked
    · exact hlog a ha hsuffix hne p hp key hmarks

/-- Every broadcast of the log that sends anything is a broadcast of some site. -/
theorem Run.cast_spreads (hfresh : Fresh root c₀.flight)
    (hrun : Run (c₀.launch o start h₀ root) hops c) {a : Cast}
    (ha : a ∈ casts root (c₀.firstSent o start h₀) hops) :
    a.sent = [] ∨ ∃ i membership moment h,
      Spreads (c₀.sites i).node.settings membership moment h a.sent := by
  rcases List.mem_cons.mp ha with rfl | ha
  · exact Or.inr ⟨o, _, start, h₀, c₀.firstSent_spreads o start h₀⟩
  · obtain ⟨hop, hhop, rfl⟩ := List.mem_map.mp ha
    apply (hrun.hop_inherits hfresh hop hhop).imp id
    rintro ⟨h, htaken, _⟩
    obtain ⟨before, after, c₁, i, -, hbefore, hsite, -⟩ := hrun.split (mem_waveHops.mp hhop).1
    have hspreads := Hop.sent_spreads htaken
    rw [← hsite, (hbefore.continues_launch i).settings] at hspreads
    exact ⟨i, _, hop.moment, h, hspreads⟩

theorem Run.keys_nodup (hfresh : Fresh root c₀.flight)
    (hrun : Run (c₀.launch o start h₀ root) hops c) {a : Cast}
    (ha : a ∈ casts root (c₀.firstSent o start h₀) hops) : a.keys.Nodup := by
  rcases hrun.cast_spreads hfresh ha with hsilent | ⟨i, membership, moment, h, hspreads⟩
  · rw [Cast.keys, hsilent]
    exact List.nodup_nil
  · exact hspreads.nodup

/-! ### What has been received -/

/-- How many parcels of a wave the site of a key has been handed. -/
def received (root : List ℕ) (hops : List Hop) (key : String) : ℕ :=
  (waveHops root hops).countP fun hop ↦ hop.site.key = key

/-- Assumes: nothing of the wave is in flight any more. What has been sent has been received. -/
theorem Run.received_eq (hfresh : Fresh root c₀.flight)
    (hrun : Run (c₀.launch o start h₀ root) hops c) (hdone : ∀ p ∈ c.flight, ¬root <:+ p.lineage)
    (key : String) :
    received root hops key = (sentKeys root (c₀.firstSent o start h₀) hops).count key := by
  have hconserves := hrun.conserves hfresh
  rw [Multiset.filter_eq_nil.mpr hdone, Multiset.add_zero, Multiset.coe_eq_coe] at hconserves
  have hkeys := (hconserves.map fun p ↦ p.key).count_eq key
  rw [map_key_flatMap_children, List.map_map] at hkeys
  rw [← hkeys, received, List.count, List.countP_map]
  apply List.countP_congr
  intro hop hhop
  rw [hrun.key_eq hop (mem_waveHops.mp hhop).1]
  simp

/-- Everything that is handed up in a wave has been sent in it. -/
theorem Run.exists_cast_of_hop (hfresh : Fresh root c₀.flight)
    (hrun : Run (c₀.launch o start h₀ root) hops c) {hop : Hop}
    (hhop : hop ∈ waveHops root hops) :
    ∃ a ∈ casts root (c₀.firstSent o start h₀) hops, hop.parcel ∈ a.children := by
  have hmem : hop.parcel ∈
      (((waveHops root hops).map Hop.parcel : List InFlight) : Multiset InFlight) +
        c.flight.filter (fun p ↦ root <:+ p.lineage) :=
    Multiset.mem_add.mpr (Or.inl (Multiset.mem_coe.mpr (List.mem_map_of_mem hhop)))
  rw [hrun.conserves hfresh, Multiset.mem_coe] at hmem
  exact List.mem_flatMap.mp hmem

end Keeping

end Gossip
