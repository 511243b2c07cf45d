import Gossip.Proofs.Metadata.Provenance

/-!
What versions stand for in a cluster. Sites publish, beat and handle parcels under whatever rules;
parcels are lost, doubled, and handed to anybody. A record is kept of what the sites have stored by
publishing. Whatever is stored, or told of in flight, is the empty metadata that sites start with or
stands on the record; so where the record has no version twice, and no version zero, a version
stands for one value everywhere.
-/

set_option autoImplicit false
set_option relaxedAutoImplicit false

namespace Gossip

namespace Cluster

variable {n : ℕ}

/-- A site does something under rules; the lineages of what leaves it come from a root. -/
def perform (c : Cluster n) (i : Fin n) (rules : Rules) (deed : Deed) (root : List ℕ) :
    Cluster n where
  sites := Function.update c.sites i ((c.sites i).perform rules deed).1
  flight := c.flight + numbered root ((c.sites i).perform rules deed).2

/-- A parcel arrives once more than it has been sent. -/
def double (c : Cluster n) (p : InFlight) : Cluster n := { c with flight := p ::ₘ c.flight }

/-- A site stores the metadata, or a swap or an update in flight tells of it. -/
def Holds (c : Cluster n) (m : Metadata) : Prop :=
  (∃ i, (c.sites i).node.metadata = m) ∨
    ∃ p ∈ c.flight, ∃ message ∈ readings p.bytes, message.news? = some m

/-- Known metadata is all that is stored and all that is told of. -/
structure Attested (K : Metadata → Prop) (c : Cluster n) : Prop where
  stored : ∀ i, K (c.sites i).node.metadata
  told : ∀ p ∈ c.flight, BytesTell K p.bytes

namespace Attested

variable {K K' : Metadata → Prop} {c : Cluster n}

theorem of_holds (hattested : Attested K c) {m : Metadata} (hholds : c.Holds m) : K m := by
  rcases hholds with ⟨i, rfl⟩ | ⟨p, hp, message, hmessage, hnews⟩
  · exact hattested.stored i
  · exact hattested.told p hp message hmessage m hnews

theorem mono (hattested : Attested K c) (h : ∀ m, K m → K' m) : Attested K' c :=
  ⟨fun i ↦ h _ (hattested.stored i),
    fun p hp message hmessage m hm ↦ h m (hattested.told p hp message hmessage m hm)⟩

theorem lose (hattested : Attested K c) (p : InFlight) : Attested K (c.lose p) :=
  ⟨hattested.stored, fun q hq ↦ hattested.told q (Multiset.mem_of_mem_erase hq)⟩

theorem double (hattested : Attested K c) {p : InFlight} (hp : p ∈ c.flight) :
    Attested K (c.double p) := by
  refine ⟨hattested.stored, fun q hq ↦ ?_⟩
  rcases Multiset.mem_cons.mp hq with rfl | hq
  · exact hattested.told q hp
  · exact hattested.told q hq

theorem perform (hattested : Attested K c) (i : Fin n) (rules : Rules) (deed : Deed)
    (htells : deed.Tells K) (root : List ℕ) : Attested K (c.perform i rules deed root) := by
  obtain ⟨hstored, hsent⟩ := Site.known_perform rules (hattested.stored i) htells
  refine ⟨fun j ↦ ?_, fun p hp ↦ ?_⟩
  · unfold Cluster.perform
    dsimp only
    rw [Function.update_apply]
    by_cases hj : j = i
    · rw [if_pos hj]
      exact hstored
    · rw [if_neg hj]
      exact hattested.stored j
  · rcases Multiset.mem_add.mp hp with hp | hp
    · exact hattested.told p hp
    · exact hsent p.toParcel (toParcel_mem_of_mem_numbered (Multiset.mem_coe.mp hp))

end Attested

end Cluster

/-! ### Histories -/

/-- What may have happened to a cluster, with the record of what has been published: the metadata
that each site that has published has stored then. Whatever is done is done under rules of its own,
and a parcel may be handed to any site. -/
inductive History {n : ℕ} (c₀ : Cluster n) : List Metadata → Cluster n → Prop
  | start : History c₀ [] c₀
  | publish {record : List Metadata} {c : Cluster n} (hhistory : History c₀ record c) (i : Fin n)
      (rules : Rules) (moment : Moment) (data : Bytes) (root : List ℕ) :
      History c₀ (record ++ [((c.sites i).perform rules (.publish moment data)).1.node.metadata])
        (c.perform i rules (.publish moment data) root)
  | beat {record : List Metadata} {c : Cluster n} (hhistory : History c₀ record c) (i : Fin n)
      (rules : Rules) (moment : Moment) (root : List ℕ) :
      History c₀ record (c.perform i rules (.beat moment) root)
  | handle {record : List Metadata} {c : Cluster n} (hhistory : History c₀ record c) (i : Fin n)
      (rules : Rules) (clock : Option Moment) {p : InFlight} (hp : p ∈ c.flight) :
      History c₀ record ((c.lose p).perform i rules (.handle clock p.bytes) p.lineage)
  | lose {record : List Metadata} {c : Cluster n} (hhistory : History c₀ record c)
      (p : InFlight) : History c₀ record (c.lose p)
  | double {record : List Metadata} {c : Cluster n} (hhistory : History c₀ record c)
      {p : InFlight} (hp : p ∈ c.flight) : History c₀ record (c.double p)

theorem Site.metadata_perform_publish (s : Site) (rules : Rules) (moment : Moment) (data : Bytes) :
    (s.perform rules (.publish moment data)).1.node.metadata = .publishedAt data moment.now :=
  s.node.metadata_publish _ moment data _

namespace History

variable {n : ℕ} {c₀ c : Cluster n} {record : List Metadata}

/-- Nothing is ever known but what the sites started with and what has been published. -/
theorem attested (hhistory : History c₀ record c) {K : Metadata → Prop} (hstart : c₀.Attested K) :
    c.Attested fun m ↦ K m ∨ m ∈ record := by
  induction hhistory with
  | start => exact hstart.mono fun m ↦ Or.inl
  | @publish record c _ i rules moment data root ih =>
    have hstored := (c.sites i).metadata_perform_publish rules moment data
    refine (ih.mono fun m ↦ ?_).perform i rules (.publish moment data) ?_ root
    · exact Or.imp id (List.mem_append_left _)
    · exact Or.inr (List.mem_append_right _ (List.mem_singleton.mpr hstored.symm))
  | beat _ i rules moment root ih => exact ih.perform i rules (.beat moment) trivial root
  | @handle record c _ i rules clock p hp ih =>
    exact (ih.lose p).perform i rules (.handle clock p.bytes) (ih.told p hp) p.lineage
  | lose _ p ih => exact ih.lose p
  | double _ hp ih => exact ih.double hp

/-- What is published is as long as it says. -/
theorem size_eq (hhistory : History c₀ record c) :
    ∀ m ∈ record, m.size = .ofNat m.data.length := by
  induction hhistory with
  | start => simp
  | @publish record c _ i rules moment data root ih =>
    intro m hm
    rcases List.mem_append.mp hm with hm | hm
    · exact ih m hm
    · rw [List.mem_singleton.mp hm, Site.metadata_perform_publish]
      rfl
  | beat _ _ _ _ _ ih | handle _ _ _ _ _ ih | lose _ _ ih | double _ _ ih => exact ih

end History

/-! ### Histories without rules -/

/-- Rules that refuse nothing change nothing. -/
theorem Journal.mapsAll_link {ω : Type} (link : Link ω) :
    Link.MapsAll Prod.snd (Journal.link {} link) link :=
  ⟨fun _ _ ↦ rfl, fun _ _ _ ↦ rfl, fun _ _ ↦ rfl⟩

theorem Node.seesAlike_journal {ω : Type} (node : Node) (link : Link ω) :
    node.SeesAlike Prod.snd (Journal.link {} link) link :=
  ⟨fun _ _ _ _ _ ↦ rfl, fun _ ↦ Journal.mapsAll_link link⟩

theorem Site.perform_publish (s : Site) (moment : Moment) (data : Bytes) :
    s.perform {} (.publish moment data) = s.publish moment data := by
  have hmap := Node.publish_map (s.node.seesAlike_journal Egress.link) moment data
    (({}, ⟨s.offload, []⟩) : Journal × Egress)
  unfold perform act publish
  dsimp only
  rw [hmap]
  rfl

theorem Site.perform_handle (s : Site) (moment : Moment) (bytes : Bytes) :
    s.perform {} (.handle (some moment) bytes) = s.hand moment bytes := by
  have hmap := Node.handle_map (s.node.seesAlike_journal Egress.link) moment (s.unitOf bytes)
    (({}, ⟨s.offload, []⟩) : Journal × Egress)
  unfold perform act hand Node.tryHandle
  dsimp only
  rw [hmap]
  rfl

namespace History

variable {n : ℕ} {c₀ c c' : Cluster n} {record : List Metadata}

theorem publish_site (hhistory : History c₀ record c) (i : Fin n) (moment : Moment) (data : Bytes)
    (root : List ℕ) :
    History c₀ (record ++ [.publishedAt data moment.now]) (c.publish i moment data root) := by
  have h := hhistory.publish i {} moment data root
  rw [Site.metadata_perform_publish] at h
  unfold Cluster.perform at h
  rw [Site.perform_publish] at h
  exact h

theorem deliver (hhistory : History c₀ record c) (i : Fin n) (moment : Moment) {p : InFlight}
    (hp : p ∈ c.flight) : History c₀ record (c.deliver i moment p) := by
  have h := hhistory.handle i {} (some moment) hp
  unfold Cluster.perform at h
  rw [Site.perform_handle] at h
  exact h

theorem append_run (hhistory : History c₀ record c) {hops : List Hop} (hrun : Run c hops c') :
    History c₀ record c' := by
  induction hrun with
  | nil => exact hhistory
  | snoc _ i moment hp _ ih => exact ih.deliver i moment hp

end History

/-! ### Versions -/

/-- Assumes: sites that store nothing yet, with nothing in flight between them; whatever may happen
then, short of two publications under one version or of one under version zero. Then what is stored
and what is told of in flight is one value for each version; what is stored is empty or has been
published; and all of it is as long as it says. -/
theorem version_determines_metadata {n : ℕ} {c₀ c : Cluster n} {record : List Metadata}
    (hempty : ∀ i, (c₀.sites i).node.metadata = {}) (hquiet : c₀.flight = 0)
    (hhistory : History c₀ record c) (hdistinct : (record.map Metadata.version).Nodup)
    (hnonzero : ∀ m ∈ record, m.version ≠ 0) :
    (∀ m m', c.Holds m → c.Holds m' → m.version = m'.version → m = m') ∧
      (∀ i, (c.sites i).node.metadata = {} ∨ (c.sites i).node.metadata ∈ record) ∧
      ∀ m, c.Holds m → m.size = .ofNat m.data.length := by
  have hattested : c.Attested fun m ↦ m = {} ∨ m ∈ record := by
    refine hhistory.attested ⟨hempty, fun p hp ↦ ?_⟩
    rw [hquiet] at hp
    exact absurd hp (Multiset.notMem_zero p)
  refine ⟨fun m m' hm hm' hversion ↦ ?_, hattested.stored, fun m hm ↦ ?_⟩
  · rcases hattested.of_holds hm with rfl | hrecord <;>
      rcases hattested.of_holds hm' with rfl | hrecord'
    · rfl
    · exact absurd hversion.symm (hnonzero m' hrecord')
    · exact absurd hversion (hnonzero m hrecord)
    · exact List.inj_on_of_nodup_map hdistinct hrecord hrecord' hversion
  · rcases hattested.of_holds hm with rfl | hrecord
    · rfl
    · exact hhistory.size_eq m hrecord

theorem version_determines_metadata_of_three :
    ∃ hops c, Run Cluster.contested hops c ∧ c.flight = 0 ∧
      (∀ m m', c.Holds m → c.Holds m' → m.version = m'.version → m = m') ∧
      (∀ i, (c.sites i).node.metadata = {} ∨ (c.sites i).node.metadata ∈
        [Metadata.publishedAt [1] dawn.now, Metadata.publishedAt [2] daybreak.now]) ∧
      ∀ m, c.Holds m → m.size = .ofNat m.data.length := by
  obtain ⟨hops, c, hrun, hdone, -⟩ := Cluster.closed_contested.2.exists_run
  have hpublished : History (Cluster.mesh 3 2 dawn.now)
      [.publishedAt [1] dawn.now, .publishedAt [2] daybreak.now] Cluster.contested :=
    (History.start.publish_site 0 dawn [1] [0]).publish_site 1 daybreak [2] [1]
  exact ⟨hops, c, hrun, hdone, version_determines_metadata (fun i ↦ rfl) rfl
    (hpublished.append_run hrun) (by decide) (by decide)⟩

end Gossip
