import Gossip.Proofs.Delivery
import Gossip.Proofs.Metadata.Learning
import Gossip.Proofs.Wave.Acquaintance

/-!
Publishing at a site. A site that publishes stores the payload, pins its version, and then
broadcasts a wave that announces it. So what leaves it is what leaves any site that starts a wave,
and a closed cluster stays closed when one of its sites publishes.
-/

set_option autoImplicit false
set_option relaxedAutoImplicit false

namespace Gossip

/-! ### One site -/

namespace Site

/-- The site after it has published a payload, and what has left it. -/
def publish (s : Site) (moment : Moment) (data : Bytes) : Site × List Parcel :=
  let (_, node, e) := s.node.publish Egress.link moment data ⟨s.offload, []⟩
  ({ s with node, offload := e.offload }, e.parcels)

/-- The site that has stored a payload and pinned its version, and is about to spread it. -/
def stored (s : Site) (moment : Moment) (data : Bytes) : Site where
  key := s.key
  node := { s.node.touch moment.now with metadata := .publishedAt data moment.now }
  offload := (s.node.pin Egress.link moment.now.stamp ⟨s.offload, []⟩).offload

/-- The heartbeat that announces a payload. -/
def announcement (s : Site) (moment : Moment) (data : Bytes) : Heartbeat :=
  .announcing s.node.self (.publishedAt data moment.now)

variable (s : Site) (moment : Moment) (data : Bytes)

theorem publish_eq :
    s.publish moment data = (s.stored moment data).launch moment (s.announcement moment data) := by
  unfold publish stored launch Node.publish Node.pin
  cases hbatching : s.node.batching <;> simp only [Node.touch, hbatching] <;> rfl

/-- On the network in memory, where its program is attached if it broadcasts in batches, a node
publishes as a site does, and the network tries to deliver what leaves it. -/
theorem publish_fabric {attached : Bool} (hattached : s.node.batching ≠ none → attached = true)
    (f : Fabric) :
    (s.node.publish (Fabric.link attached) moment data (f, s.offload)).2 =
      ((s.publish moment data).1.node, f.deliverAll (s.publish moment data).2,
        (s.publish moment data).1.offload) :=
  congrArg Prod.snd (Node.publish_map (Node.seesAlike_onto hattached f) moment data
    (⟨s.offload, []⟩ : Egress))

theorem metadata_publish :
    (s.publish moment data).1.node.metadata = .publishedAt data moment.now :=
  s.node.metadata_publish Egress.link moment data ⟨s.offload, []⟩

theorem continues_stored : Continues (s.stored moment data) s := ⟨rfl, rfl, rfl⟩

theorem continues_publish : Continues (s.publish moment data).1 s := by
  rw [publish_eq]
  exact (continues_launch _ _ _).trans (s.continues_stored moment data)

end Site

/-! ### A cluster -/

namespace Cluster

variable {n : ℕ}

/-- A site publishes a payload; the lineages of its wave come from a root. -/
def publish (c : Cluster n) (i : Fin n) (moment : Moment) (data : Bytes) (root : List ℕ) :
    Cluster n where
  sites := Function.update c.sites i ((c.sites i).publish moment data).1
  flight := c.flight + numbered root ((c.sites i).publish moment data).2

/-- A site has stored a payload, and is about to spread it. -/
def stored (c : Cluster n) (i : Fin n) (moment : Moment) (data : Bytes) : Cluster n :=
  { c with sites := Function.update c.sites i ((c.sites i).stored moment data) }

variable (c : Cluster n) (i : Fin n) (moment : Moment) (data : Bytes)

theorem publish_eq_launch (root : List ℕ) :
    c.publish i moment data root = (c.stored i moment data).launch i moment
      ((c.sites i).announcement moment data) root := by
  unfold publish stored launch
  simp only [Function.update_self, Function.update_idem, Site.publish_eq]

theorem sites_stored (j : Fin n) :
    (c.stored i moment data).sites j =
      if j = i then (c.sites i).stored moment data else c.sites j :=
  Function.update_apply c.sites i _ j

theorem sites_publish (root : List ℕ) (j : Fin n) :
    (c.publish i moment data root).sites j =
      if j = i then ((c.sites i).publish moment data).1 else c.sites j :=
  Function.update_apply c.sites i _ j

theorem continues_publish (root : List ℕ) (j : Fin n) :
    ((c.publish i moment data root).sites j).Continues (c.sites j) := by
  rw [sites_publish]
  by_cases hj : j = i
  · rw [if_pos hj, hj]
    exact (c.sites i).continues_publish moment data
  · rw [if_neg hj]
    exact .refl _

end Cluster

/-! ### Closed clusters -/

theorem Membership.mem_members_touch {membership : Membership} {m : Member} (now : Instant) :
    m ∈ (membership.touch now).members ↔ m = membership.self ∨ m ∈ membership.members :=
  Table.mem_keys_insert membership.seen _ _ m

theorem Membership.Lasts.touch {membership : Membership} {horizon : ℤ}
    (hlasts : membership.Lasts horizon) {now : Instant}
    (hnow : horizon - now.seconds ≤ membership.ttl) : (membership.touch now).Lasts horizon := by
  refine ⟨hlasts.ttl_nonneg, fun e he ↦ ?_⟩
  rcases Table.mem_putEntry he with rfl | he
  · exact hnow
  · exact hlasts.entries e he

namespace Cluster

variable {n : ℕ} {U : Finset String} {horizon : ℤ} {c : Cluster n}

/-- Storing a payload refreshes the site's own entry, and nothing else that others see of it. -/
theorem Closed.stored (hclosed : Closed U horizon c) (i : Fin n) {moment : Moment}
    (hnow : horizon - moment.now.seconds ≤ (c.sites i).node.membership.ttl)
    (hself : (c.sites i).node.self.key ∈ U) (data : Bytes) :
    Closed U horizon (c.stored i moment data) := by
  have hsame (j : Fin n) : ((c.stored i moment data).sites j).node.membership =
      if j = i then (c.sites i).node.membership.touch moment.now
        else (c.sites j).node.membership := by
    rw [sites_stored]
    by_cases hj : j = i
    · rw [if_pos hj, if_pos hj]
      rfl
    · rw [if_neg hj, if_neg hj]
  refine ⟨⟨fun j m hm ↦ ?_, hclosed.introduces⟩, fun key ↦ ?_, fun j key hkey ↦ ?_, fun j ↦ ?_,
    hclosed.key_mem, hclosed.forwards⟩
  · rw [hsame] at hm
    by_cases hj : j = i
    · rw [if_pos hj] at hm
      rcases (Membership.mem_members_touch _).mp hm with rfl | hm
      · exact hself
      · exact hclosed.knows i m hm
    · rw [if_neg hj] at hm
      exact hclosed.knows j m hm
  · rw [hclosed.mem_iff]
    refine exists_congr fun j ↦ ?_
    rw [sites_stored]
    by_cases hj : j = i
    · rw [if_pos hj, hj]
      rfl
    · rw [if_neg hj]
  · rw [hsame]
    by_cases hj : j = i
    · rw [if_pos hj]
      obtain ⟨m, hm, rfl⟩ := List.mem_map.mp (hclosed.known i key hkey)
      exact List.mem_map_of_mem ((Membership.mem_members_touch _).mpr (Or.inr hm))
    · rw [if_neg hj]
      exact hclosed.known j key hkey
  · rw [hsame]
    by_cases hj : j = i
    · rw [if_pos hj]
      exact (hclosed.lasts i).touch hnow
    · rw [if_neg hj]
      exact hclosed.lasts j

/-- A site of a closed cluster that publishes lists exactly the cluster, and leaves it closed. -/
theorem Closed.publish (hclosed : Closed U horizon c) (i : Fin n) {moment : Moment}
    (hnow : moment.now.seconds ≤ horizon)
    (hlives : horizon - moment.now.seconds ≤ (c.sites i).node.membership.ttl)
    (hself : (c.sites i).node.self.key ∈ U) (hsender : (c.sites i).node.self.withAddr.key ∈ U)
    (data : Bytes) (root : List ℕ) :
    c.ListedBy ((c.sites i).node.membership.touch moment.now) moment ∧
      Closed U horizon (c.publish i moment data root) := by
  have hstored := hclosed.stored i hlives hself data
  refine ⟨fun key ↦ ?_, ?_⟩
  · have hlisted := hstored.listedBy i hnow key
    rw [← hstored.mem_iff, hclosed.mem_iff, sites_stored, if_pos rfl] at hlisted
    exact hlisted
  · have hannounced : ((c.sites i).announcement moment data).node.withAddr.key ∈ U := hsender
    rw [publish_eq_launch]
    exact hstored.launch i hnow hannounced root

/-- Whom a cluster consists of is a matter of its keys. -/
theorem ListedBy.of_continues {c₀ : Cluster n} {membership : Membership} {moment : Moment}
    (hlisted : c.ListedBy membership moment)
    (hsites : ∀ j, (c.sites j).Continues (c₀.sites j)) : c₀.ListedBy membership moment :=
  fun key ↦ (hlisted key).trans (exists_congr fun j ↦ by rw [(hsites j).key])

/-- A site of a mesh that publishes while the mesh is young lists exactly the cluster, and leaves it
closed. -/
theorem Closed.publish_mesh {amount : UInt64} {now : Instant} (hclosed : Closed U now.seconds c)
    (hcontinues : ∀ j, (c.sites j).Continues ((mesh n amount now).sites j)) (i : Fin n)
    {moment : Moment} (hnow : moment.now.seconds = now.seconds) (data : Bytes) (root : List ℕ) :
    c.ListedBy ((c.sites i).node.membership.touch moment.now) moment ∧
      Closed U now.seconds (c.publish i moment data root) := by
  have hself : (c.sites i).node.self = Member.ofNumber i :=
    (hcontinues i).self.trans (Site.self_knowing amount now i _)
  have hkey : (Member.ofNumber i).key ∈ U :=
    (hclosed.mem_iff _).mpr ⟨i, (hcontinues i).key⟩
  refine hclosed.publish i (Int.le_of_eq hnow) ?_ ?_ ?_ data root
  · rw [hnow, Int.sub_self]
    exact (hclosed.lasts i).ttl_nonneg
  · rw [hself]
    exact hkey
  · rw [hself, Member.withAddr_ofNumber]
    exact hkey

end Cluster

/-! ### Two publications -/

/-- A moment right after dawn. -/
def daybreak : Moment where
  now := .ofParts 1700000000 1
  arrange_perm := id_perm

namespace Cluster

/-- A mesh of three in which one site has published at dawn. -/
def announced : Cluster 3 := (mesh 3 2 dawn.now).publish 0 dawn [1] [0]

/-- The same after another site has published right after it, before anything has arrived. -/
def contested : Cluster 3 := announced.publish 1 daybreak [2] [1]

theorem continues_announced (i : Fin 3) :
    (announced.sites i).Continues ((mesh 3 2 dawn.now).sites i) :=
  continues_publish _ 0 dawn [1] [0] i

theorem continues_contested (i : Fin 3) :
    (contested.sites i).Continues ((mesh 3 2 dawn.now).sites i) :=
  (continues_publish _ 1 daybreak [2] [1] i).trans (continues_announced i)

/-- The keys of the mesh. -/
def meshKeys : Finset String := Finset.univ.image fun i ↦ ((mesh 3 2 dawn.now).sites i).key

theorem closed_announced :
    (mesh 3 2 dawn.now).ListedBy
        (((mesh 3 2 dawn.now).sites 0).node.membership.touch dawn.now) dawn ∧
      announced.Closed meshKeys dawn.now.seconds :=
  (closed_mesh 3 2 dawn.now).publish_mesh (fun _ ↦ .refl _) 0 rfl [1] [0]

theorem closed_contested :
    (mesh 3 2 dawn.now).ListedBy
        ((announced.sites 1).node.membership.touch daybreak.now) daybreak ∧
      contested.Closed meshKeys dawn.now.seconds := by
  have hsoon : daybreak.now.seconds = dawn.now.seconds := by decide
  obtain ⟨hlisted, hclosed⟩ :=
    closed_announced.2.publish_mesh continues_announced 1 hsoon [2] [1]
  exact ⟨hlisted.of_continues continues_announced, hclosed⟩

end Cluster

end Gossip
