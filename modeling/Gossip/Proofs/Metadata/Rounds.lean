import Gossip.Proofs.Metadata.Round
import Mathlib.Combinatorics.SimpleGraph.Paths

/-!
Rounds of comparisons one after the other. With every round a version gets on by one link, so after
as many rounds as there are links between two nodes, the one is not behind what the other stored at
the start. Nothing passes between nodes that are not linked to one another at all, and so a cluster
whose lists leave it in two halves stays divided.
-/

set_option autoImplicit false
set_option relaxedAutoImplicit false

namespace Gossip

namespace Cluster

variable {n : ℕ}

/-- A number of rounds one after the other, in each of which everybody has asked once and everything
that was sent has been delivered. -/
inductive Rounds (listing : Fin n → List Member) (c₀ : Cluster n) : ℕ → Cluster n → Prop
  | start : Rounds listing c₀ 0 c₀
  | next {count : ℕ} {c c' : Cluster n} (hrounds : Rounds listing c₀ count c)
      {asked : List (Fin n)} (hround : Round listing c asked c') (hasked : ∀ i, i ∈ asked)
      (hdone : c'.flight = 0) : Rounds listing c₀ (count + 1) c'

section Rounds

variable {c₀ c : Cluster n} {listing : Fin n → List Member} {K : Fin n → Metadata → Prop}

theorem shares_true : c₀.Shares listing fun _ _ ↦ True := fun _ _ _ _ ↦ Iff.rfl

theorem shares_reachable : c₀.Shares listing fun i m ↦
    ∃ j, (c₀.links listing).Reachable i j ∧ m = (c₀.sites j).node.metadata := by
  intro i j m hturns
  have hreach := hturns.reachable
  exact exists_congr fun k ↦ and_congr_left fun _ ↦ ⟨hreach.symm.trans, hreach.trans⟩

theorem Rounds.busy (hacquainted : c₀.Acquainted listing) (hshares : c₀.Shares listing K)
    (hknows : ∀ i, K i (c₀.sites i).node.metadata) {count : ℕ}
    (hrounds : Rounds listing c₀ count c) : c₀.Busy listing K c := by
  induction hrounds with
  | start =>
    refine ⟨fun i ↦ .refl _, hknows, fun p hp ↦ ?_⟩
    rw [hacquainted.flight_eq] at hp
    exact absurd hp (Multiset.notMem_zero p)
  | next hrounds hround hasked hdone ih => exact hround.busy hacquainted hshares ih

/-- A version gets on by one link in every round. -/
theorem Rounds.version_le (hacquainted : c₀.Acquainted listing) {count : ℕ}
    (hrounds : Rounds listing c₀ count c) {i j : Fin n} (walk : (c₀.links listing).Walk i j)
    (hlength : walk.length ≤ count) : c₀.version j ≤ c.version i := by
  induction hrounds generalizing i with
  | start =>
    cases walk with
    | nil => exact Int64.le_refl _
    | cons hlinked rest => exact absurd hlength (by simp)
  | next hrounds hround hasked hdone ih =>
    have hbusy := hrounds.busy hacquainted shares_true fun _ ↦ trivial
    cases walk with
    | nil =>
      have hgrows := (hround.settling hacquainted shares_true hbusy).1
      exact Int64.le_trans (ih .nil (Nat.zero_le _)) (hgrows j)
    | cons hlinked rest =>
      have hnear := hround.version_le hacquainted shares_true hbusy hasked hdone hlinked
      exact Int64.le_trans (ih rest (Nat.le_of_succ_le_succ hlength)) hnear

/-- Nothing passes between sites that are not linked to one another. -/
theorem Rounds.exists_reachable (hacquainted : c₀.Acquainted listing) {count : ℕ}
    (hrounds : Rounds listing c₀ count c) (i : Fin n) :
    ∃ j, (c₀.links listing).Reachable i j ∧
      (c.sites i).node.metadata = (c₀.sites j).node.metadata :=
  (hrounds.busy hacquainted shares_reachable fun i ↦ ⟨i, .refl i, rfl⟩).knows i

theorem exists_rounds (hacquainted : c₀.Acquainted listing) (count : ℕ) :
    ∃ c, Rounds listing c₀ count c := by
  induction count with
  | zero => exact ⟨c₀, .start⟩
  | succ count ih =>
    obtain ⟨c, hrounds⟩ := ih
    have hbusy := hrounds.busy hacquainted shares_true fun _ ↦ trivial
    obtain ⟨c', hround⟩ :=
      Round.exists_asked hacquainted shares_true hbusy (List.nodup_finRange n)
    obtain ⟨c'', hround, hdone⟩ := hround.exists_done hacquainted shares_true hbusy
    exact ⟨c'', hrounds.next hround (fun i ↦ List.mem_finRange i) hdone⟩

end Rounds

/-- Assumes: a cluster of any size at rest, of one secret, in which everybody stores exactly the
members of the cluster, all of them alive, and lists them in any order, which stays. Rounds can be
run, any number of them, in each of which everybody asks once and everything is delivered. However
they are run, after as many rounds as there are sites, or one fewer, every site stores the greatest
version among those that are linked to it, with metadata that one of them stored at the start. So
the greatest version of all is stored everywhere exactly if it was stored, at the start, by one of
those that are linked to each site, and always in a cluster of up to three. -/
theorem comparisons_repair_the_linked {c₀ : Cluster n} {listing : Fin n → List Member}
    (hacquainted : c₀.Acquainted listing) :
    (∀ count, ∃ c, Rounds listing c₀ count c) ∧
      ∀ count c, n ≤ count + 1 → Rounds listing c₀ count c →
        (∀ i, (∀ j, (c₀.links listing).Reachable i j → c₀.version j ≤ c.version i) ∧
          ∃ j, (c₀.links listing).Reachable i j ∧
            (c.sites i).node.metadata = (c₀.sites j).node.metadata) ∧
        ((∀ i j, c₀.version j ≤ c.version i) ↔
          ∀ i, ∃ j, (c₀.links listing).Reachable i j ∧ ∀ k, c₀.version k ≤ c₀.version j) ∧
        (n ≤ 3 → ∀ i j, c₀.version j ≤ c.version i) := by
  refine ⟨exists_rounds hacquainted, fun count c hcount hrounds ↦ ?_⟩
  have hleast {i j : Fin n} (hreach : (c₀.links listing).Reachable i j) :
      c₀.version j ≤ c.version i := by
    obtain ⟨path, hpath⟩ := hreach.exists_isPath
    have hlength := hpath.length_lt
    rw [Fintype.card_fin] at hlength
    exact hrounds.version_le hacquainted path (by omega)
  have hsource := hrounds.exists_reachable hacquainted
  refine ⟨fun i ↦ ⟨fun j ↦ hleast, hsource i⟩, ⟨fun hall i ↦ ?_, fun hheld i j ↦ ?_⟩,
    fun hn i j ↦ hleast (hacquainted.preconnected hn i j)⟩
  · obtain ⟨j, hreach, hsame⟩ := hsource i
    have hversion : c.version i = c₀.version j := congrArg Metadata.version hsame
    exact ⟨j, hreach, fun k ↦ hversion ▸ hall i k⟩
  · obtain ⟨k, hreach, hgreatest⟩ := hheld i
    exact Int64.le_trans (hgreatest j) (hleast hreach)

/-! ### Meshes that hold metadata -/

/-- A mesh whose sites store some metadata. -/
def holding (metadata : Fin n → Metadata) : Cluster n where
  sites i :=
    let s := (mesh n 2 dawn.now).sites i
    { s with node := { s.node with metadata := metadata i } }
  flight := 0

/-- What the sites of such a mesh list at some moments. -/
def seenAt (metadata : Fin n → Metadata) (view : Fin n → Moment) (i : Fin n) : List Member :=
  (view i).arrange ((holding metadata).sites i).node.membership.members

theorem acquainted_holding (hn : n < UInt16.size) (metadata : Fin n → Metadata)
    {view : Fin n → Moment} (hview : ∀ i, (view i).now = dawn.now) :
    (holding metadata).Acquainted (seenAt metadata view) := by
  have hmesh : (mesh n 2 dawn.now).Meshed := meshed_mesh hn (by decide) dawn.now
  refine ⟨hmesh.key_injective, hmesh.key_eq, hmesh.secret_eq, fun i ↦ ⟨view i, ?_⟩,
    fun i key ↦ ?_, rfl⟩
  · have hlasts : ((holding metadata).sites i).node.membership.Lasts dawn.now.seconds :=
      Site.lasts_knowing 2 dawn.now i _
    unfold Membership.Lists Membership.look seenAt
    rw [hlasts.expire_eq (Int.le_of_eq (congrArg Instant.seconds (hview i)))]
  · have hperm := (view i).arrange_perm ((holding metadata).sites i).node.membership.members
    exact (hperm.map Member.key).mem_iff.trans (mem_keys_mesh 2 dawn.now i key)

/-- Two publications, one right after the other, both of which have been missed by one site. -/
def missed : Fin 3 → Metadata
  | 0 => .publishedAt [1] dawn.now
  | 1 => .publishedAt [2] daybreak.now
  | 2 => {}

theorem comparisons_repair_three :
    ∃ c, Rounds (seenAt missed fun _ ↦ dawn) (holding missed) 3 c ∧
      ∀ i, (c.sites i).node.metadata = .publishedAt [2] daybreak.now := by
  obtain ⟨hexists, hends⟩ := comparisons_repair_the_linked
    (acquainted_holding (by decide) missed fun _ ↦ rfl : (holding missed).Acquainted _)
  obtain ⟨c, hrounds⟩ := hexists 3
  obtain ⟨hlinked, -, hfew⟩ := hends 3 c (by decide) hrounds
  refine ⟨c, hrounds, fun i ↦ ?_⟩
  obtain ⟨j, -, hsame⟩ := (hlinked i).2
  have hgreatest : (missed 1).version ≤ (missed j).version :=
    Int64.le_trans (hfew (by decide) i 1) (Int64.le_of_eq (congrArg Metadata.version hsame))
  have honly : ∀ j : Fin 3, (missed 1).version ≤ (missed j).version →
      missed j = .publishedAt [2] daybreak.now := by decide
  exact hsame.trans (honly j hgreatest)

end Cluster

/-- A moment at which the members of a key are listed in front of all others. -/
def Moment.favouring (key : String) : Moment where
  now := dawn.now
  arrange members := members.filter (·.key = key) ++ members.filter fun m ↦ !decide (m.key = key)
  arrange_perm members := List.filter_append_perm _ members

theorem Membership.firstPeer?_favouring (membership : Membership) {key : String}
    (hkey : key ∈ membership.members.map Member.key) (hself : key ≠ membership.self.key) :
    ∃ peer, membership.firstPeer? ((Moment.favouring key).arrange membership.members) =
      some peer ∧ peer.key = key := by
  obtain ⟨m, hm, rfl⟩ := List.mem_map.mp hkey
  have hother : ¬m.SamePeer membership.self := fun h ↦ hself (Member.key_eq_iff.mpr h)
  have hmem : m ∈ membership.members.filter (·.key = m.key) :=
    List.mem_filter.mpr ⟨hm, decide_eq_true rfl⟩
  have hsome : ((membership.members.filter (·.key = m.key)).find? fun m ↦
      ¬m.SamePeer membership.self).isSome :=
    List.find?_isSome.mpr ⟨m, hmem, decide_eq_true hother⟩
  obtain ⟨peer, hpeer⟩ := Option.isSome_iff_exists.mp hsome
  refine ⟨peer, ?_, of_decide_eq_true (List.mem_filter.mp (List.mem_of_find?_eq_some hpeer)).2⟩
  unfold firstPeer? Moment.favouring
  rw [List.find?_append, hpeer, Option.some_or]

namespace Cluster

/-- One publication, which three sites have missed. -/
def withheld : Fin 4 → Metadata
  | 0 => .publishedAt [1] dawn.now
  | _ => {}

/-- The first and the last of four list each other first, and so do the two between them. -/
def facing (i : Fin 4) : Moment := .favouring (Member.ofNumber i.rev).key

theorem eq_rev_of_turnsTo {i j : Fin 4}
    (h : (holding withheld).TurnsTo (seenAt withheld facing) i j) : j = i.rev := by
  have hmesh : (mesh 4 2 dawn.now).Meshed := meshed_mesh (by decide) (by decide) dawn.now
  obtain ⟨peer, hpeer, hkey⟩ := h
  have hself : (Member.ofNumber i.rev).key ≠ ((holding withheld).sites i).node.self.key := by
    intro h
    have hsame : i.rev = i := hmesh.key_injective (h.trans (hmesh.key_eq i).symm)
    have hnever : ∀ i : Fin 4, i.rev ≠ i := by decide
    exact hnever i hsame
  obtain ⟨first, hfirst, hfirstKey⟩ := Membership.firstPeer?_favouring
    ((holding withheld).sites i).node.membership
    ((mem_keys_mesh 2 dawn.now i _).mpr ⟨i.rev, rfl⟩) hself
  obtain rfl : first = peer := Option.some.inj (hfirst.symm.trans hpeer)
  exact hmesh.key_injective (hkey.symm.trans hfirstKey)

/-- In a cluster of four each half compares with itself alone, and what is published in the one
never gets to the other. -/
theorem comparisons_miss_two :
    (holding withheld).Acquainted (seenAt withheld facing) ∧
      (∃ c, Rounds (seenAt withheld facing) (holding withheld) 4 c) ∧
      ∀ count c, Rounds (seenAt withheld facing) (holding withheld) count c →
        c.version 1 < (holding withheld).version 0 := by
  have hacquainted : (holding withheld).Acquainted (seenAt withheld facing) :=
    acquainted_holding (by decide) withheld fun _ ↦ rfl
  refine ⟨hacquainted, exists_rounds hacquainted 4, fun count c hrounds ↦ ?_⟩
  have hshares : (holding withheld).Shares (seenAt withheld facing)
      fun i m ↦ i = 0 ∨ i = 3 ∨ m = {} := by
    intro i j m hturns
    have hhalf : ∀ i : Fin 4, i = 0 ∨ i = 3 ↔ i.rev = 0 ∨ i.rev = 3 := by decide
    rw [eq_rev_of_turnsTo hturns]
    dsimp only
    rw [← or_assoc, ← or_assoc, hhalf]
  have hknows : ∀ i : Fin 4, i = 0 ∨ i = 3 ∨ withheld i = {} := by decide
  have hempty : (c.sites 1).node.metadata = {} := by
    simpa using (hrounds.busy hacquainted hshares hknows).knows 1
  unfold version
  rw [hempty]
  decide

end Cluster

end Gossip
