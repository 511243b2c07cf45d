import Gossip.Proofs.Metadata.Comparison
import Mathlib.Combinatorics.SimpleGraph.Connectivity.Connected

/-!
Whom the nodes of a cluster ask. A node asks the first peer on the list of its live members, and
keeps asking that one as long as the list stays. So the lists link every node to one other, in one
direction or in both, and metadata travels along these links and nowhere else. Up to three nodes
are always linked to one another; four need not be.
-/

set_option autoImplicit false
set_option relaxedAutoImplicit false

namespace Gossip

/-! ### The first peer -/

/-- The first peer on a list of members. -/
def Membership.firstPeer? (membership : Membership) (listing : List Member) : Option Member :=
  listing.find? fun m ↦ ¬m.SamePeer membership.self

theorem Membership.of_firstPeer? {membership : Membership} {listing : List Member} {peer : Member}
    (h : membership.firstPeer? listing = some peer) :
    peer ∈ listing ∧ ¬peer.SamePeer membership.self := by
  unfold firstPeer? at h
  exact ⟨List.mem_of_find?_eq_some h, by simpa using List.find?_some h⟩

/-- All stored members are alive at a moment, and are listed in some order. -/
def Membership.Lists (membership : Membership) (listing : List Member) (moment : Moment) : Prop :=
  membership.look moment = (membership, listing)

/-- A site that finds all its members alive asks the first peer on its list, if there is one, to
compare, and is as it was. -/
theorem Site.probe_of_lists {s : Site} {moment : Moment} {listing : List Member}
    (hlists : s.node.membership.Lists listing moment) :
    s.probe moment = (s,
      match s.node.membership.firstPeer? listing with
      | none => []
      | some peer => [⟨peer.key, s.node.requestPacket.encode⟩]) := by
  unfold Membership.Lists at hlists
  unfold probe Node.initiate Membership.firstPeer?
  simp only [hlists]
  cases listing.find? fun m ↦ ¬m.SamePeer s.node.membership.self with
  | none => rfl
  | some peer =>
    exact congrArg (s, ·)
      (s.offload.parcels_of_no_batch (p := s.node.requestPacket) rfl peer.addr peer.port)

/-- A node on the network in memory asks as a site does, and the network tries to deliver what
leaves it. -/
theorem Site.probe_fabric (s : Site) {attached : Bool}
    (hattached : s.node.batching ≠ none → attached = true) (moment : Moment) (f : Fabric) :
    s.node.initiate (Fabric.link attached) moment (f, s.offload) =
      (s.probed moment, (s.probe moment).1.node, f.deliverAll (s.probe moment).2,
        (s.probe moment).1.offload) :=
  Node.initiate_map (Node.seesAlike_onto hattached f) moment (⟨s.offload, []⟩ : Egress)

namespace Cluster

variable {n : ℕ}

/-- A site turns to another one if that is the first peer on its list. -/
def TurnsTo (c : Cluster n) (listing : Fin n → List Member) (i j : Fin n) : Prop :=
  ∃ peer, (c.sites i).node.membership.firstPeer? (listing i) = some peer ∧
    peer.key = (c.sites j).key

/-- The sites, each of them linked to the one that it turns to. -/
def links (c : Cluster n) (listing : Fin n → List Member) : SimpleGraph (Fin n) :=
  .fromRel (c.TurnsTo listing)

/-- A cluster at rest whose sites are told apart by their keys and share a secret, and in which
everybody, at some moment, finds all the members it stores alive and lists them in some order: the
members of the cluster, neither more nor fewer. -/
structure Acquainted (c : Cluster n) (listing : Fin n → List Member) : Prop where
  key_injective : Function.Injective fun i ↦ (c.sites i).key
  key_eq : ∀ i, (c.sites i).key = (c.sites i).node.self.key
  secret_eq : ∀ i j, (c.sites i).node.settings.secret = (c.sites j).node.settings.secret
  lists : ∀ i, ∃ moment, (c.sites i).node.membership.Lists (listing i) moment
  mem_keys_iff : ∀ i key, key ∈ (listing i).map Member.key ↔ ∃ j, (c.sites j).key = key
  flight_eq : c.flight = 0

variable {c : Cluster n} {listing : Fin n → List Member}

theorem Acquainted.exists_key (hacquainted : c.Acquainted listing) {i : Fin n} {peer : Member}
    (hpeer : (c.sites i).node.membership.firstPeer? (listing i) = some peer) :
    ∃ j, (c.sites j).key = peer.key :=
  (hacquainted.mem_keys_iff i peer.key).mp
    (List.mem_map_of_mem (Membership.of_firstPeer? hpeer).1)

/-- Whoever is not alone turns to somebody else. -/
theorem Acquainted.exists_turnsTo (hacquainted : c.Acquainted listing) {i k : Fin n} (hne : k ≠ i) :
    ∃ j, j ≠ i ∧ c.TurnsTo listing i j := by
  have hforeign {m : Member} : ¬m.SamePeer (c.sites i).node.membership.self ↔
      m.key ≠ (c.sites i).key := by
    rw [hacquainted.key_eq i, ne_eq, Member.key_eq_iff]
    rfl
  obtain ⟨m, hm, hkey⟩ := List.mem_map.mp ((hacquainted.mem_keys_iff i _).mpr ⟨k, rfl⟩)
  have hother : ¬m.SamePeer (c.sites i).node.membership.self :=
    hforeign.mpr fun hsame ↦ hne (hacquainted.key_injective (hkey.symm.trans hsame))
  obtain ⟨peer, hpeer⟩ := Option.isSome_iff_exists.mp
    (List.find?_isSome.mpr ⟨m, hm, decide_eq_true hother⟩ :
      ((c.sites i).node.membership.firstPeer? (listing i)).isSome)
  obtain ⟨j, hj⟩ := hacquainted.exists_key hpeer
  refine ⟨j, fun hself ↦ ?_, peer, hpeer, hj.symm⟩
  have hpeerOther := (Membership.of_firstPeer? hpeer).2
  exact hforeign.mp hpeerOther (hj.symm.trans (congrArg (fun i ↦ (c.sites i).key) hself))

theorem TurnsTo.reachable {i j : Fin n} (h : c.TurnsTo listing i j) :
    (c.links listing).Reachable i j := by
  by_cases hij : i = j
  · rw [hij]
  · exact SimpleGraph.Adj.reachable ((SimpleGraph.fromRel_adj _ i j).mpr ⟨hij, Or.inl h⟩)

/-- Up to three sites are linked to one another: two that are not would turn to two others. -/
theorem Acquainted.preconnected (hacquainted : c.Acquainted listing) (hn : n ≤ 3) :
    (c.links listing).Preconnected := by
  intro i j
  by_contra hapart
  have hij : i ≠ j := fun h ↦ hapart (h ▸ SimpleGraph.Reachable.refl i)
  obtain ⟨i', hi', hturns⟩ := hacquainted.exists_turnsTo hij.symm
  obtain ⟨j', hj', hturns'⟩ := hacquainted.exists_turnsTo hij
  have hi'j : i' ≠ j := fun h ↦ hapart (h ▸ hturns.reachable)
  have hj'i : j' ≠ i := fun h ↦ hapart (h ▸ hturns'.reachable).symm
  have hi'j' : i' ≠ j' := fun h ↦ hapart (hturns.reachable.trans (h ▸ hturns'.reachable.symm))
  have hfour : [i, j, i', j'].Nodup := by
    simp [hij, hi'.symm, hj'i.symm, hi'j.symm, hj'.symm, hi'j']
  have hmany : 4 ≤ n := by simpa using hfour.length_le_card
  omega

end Cluster

end Gossip
