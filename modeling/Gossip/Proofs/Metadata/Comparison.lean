import Gossip.Proofs.Metadata.Publication

/-!
Two nodes compare what they store. One tells another what it stores; the other adopts it, answers
with what it stores itself, or does nothing, by which of the two is newer; an answer is adopted or
ignored. If nothing else happens, at most two packets are sent, and both nodes store the newer
metadata then.
-/

set_option autoImplicit false
set_option relaxedAutoImplicit false

namespace Gossip

/-! ### Comparing and acting -/

/-- What a node is going to do about a swap. -/
inductive Verdict where
  | adopt
  | answer
  | ignore
  deriving DecidableEq

/-- What a node that has read its version is going to do. -/
def Swap.verdict (swap : Swap) (isRequest : Bool) (version : Int64) : Verdict :=
  if version < swap.metadata.version then .adopt
  else if swap.metadata.version < version ∧ isRequest then .answer
  else .ignore

section Verdicts

variable {swap : Swap} {isRequest : Bool} {version : Int64}

theorem verdict_of_newer (h : version < swap.metadata.version) :
    swap.verdict isRequest version = .adopt :=
  if_pos h

theorem verdict_of_not_newer (h : ¬version < swap.metadata.version) :
    swap.verdict isRequest version =
      if swap.metadata.version < version ∧ isRequest then .answer else .ignore :=
  if_neg h

theorem version_lt_of_verdict_adopt (h : swap.verdict isRequest version = .adopt) :
    version < swap.metadata.version := by
  by_contra hnot
  rw [verdict_of_not_newer hnot] at h
  split at h <;> exact absurd h (by decide)

theorem verdict_eq_answer_iff :
    swap.verdict isRequest version = .answer ↔ swap.metadata.version < version ∧ isRequest := by
  by_cases hnewer : version < swap.metadata.version
  · rw [verdict_of_newer hnewer]
    refine ⟨fun h ↦ absurd h (by decide), fun h ↦ ?_⟩
    exact absurd hnewer (Int64.not_lt.mpr (Int64.le_of_lt h.1))
  · rw [verdict_of_not_newer hnewer]
    by_cases h : swap.metadata.version < version ∧ isRequest
    · rw [if_pos h]
      exact iff_of_true rfl h
    · rw [if_neg h]
      exact iff_of_false (by decide) h

theorem of_verdict_ignore (h : swap.verdict isRequest version = .ignore) :
    swap.metadata.version ≤ version ∧ (isRequest → version ≤ swap.metadata.version) := by
  by_cases hnewer : version < swap.metadata.version
  · rw [verdict_of_newer hnewer] at h
    exact absurd h (by decide)
  · rw [verdict_of_not_newer hnewer] at h
    refine ⟨Int64.not_lt.mp hnewer, fun hrequest ↦ Int64.not_lt.mp fun holder ↦ ?_⟩
    rw [if_pos ⟨holder, hrequest⟩] at h
    exact absurd h (by decide)

end Verdicts

namespace Node

section Acting

variable {ω : Type} (link : Link ω) (node : Node) (swap : Swap)

/-- Does about a swap what has been found to be done, with what is stored by now. -/
def carryOut (verdict : Verdict) (w : ω) : Except Error SwapOutcome × Node × ω :=
  match verdict with
  | .adopt =>
    let (adopted, node, w) := node.adopt link swap.metadata w
    (.ok (if adopted then .adopted else .ignored), node, w)
  | .answer =>
    let (result, w) :=
      link.send ⟨swap.node.addr, swap.node.port, node.responsePacket.encode⟩ w
    (result.map fun _ ↦ .responded, node, w)
  | .ignore => (.ok .ignored, node, w)

/-- A comparison reads the version and acts on it at once. -/
theorem compareSwap_eq (isRequest : Bool) (w : ω) :
    node.compareSwap link swap isRequest w =
      node.carryOut link swap (swap.verdict isRequest node.metadata.version) w := by
  unfold compareSwap
  by_cases hnewer : swap.metadata.Newer node.metadata
  · rw [if_pos hnewer, verdict_of_newer hnewer]
    rfl
  · rw [if_neg hnewer, verdict_of_not_newer hnewer]
    by_cases hanswer : swap.metadata.version < node.metadata.version ∧ isRequest
    · rw [if_pos hanswer, if_pos (show node.metadata.Newer swap.metadata ∧ isRequest from hanswer)]
      rfl
    · rw [if_neg hanswer,
        if_neg (show ¬(node.metadata.Newer swap.metadata ∧ isRequest) from hanswer)]
      rfl

theorem metadata_carryOut (verdict : Verdict) (w : ω) :
    (node.carryOut link swap verdict w).2.1.metadata =
      if verdict = .adopt then node.metadata.learn (some swap.metadata) else node.metadata := by
  cases verdict with
  | adopt => exact node.metadata_adopt link swap.metadata w
  | answer => rfl
  | ignore => rfl

theorem sameStores_carryOut (verdict : Verdict) (w : ω) :
    SameStores (node.carryOut link swap verdict w).2.1 node := by
  cases verdict with
  | adopt => exact node.sameStores_adopt link swap.metadata w
  | answer => exact .refl node
  | ignore => exact .refl node

end Acting

theorem parcels_carryOut (node : Node) (swap : Swap) (verdict : Verdict) (e : Egress) :
    (node.carryOut Egress.link swap verdict e).2.2.parcels =
      e.parcels ++ if verdict = .answer then [node.answer swap] else [] := by
  cases verdict with
  | adopt => simpa [carryOut] using node.parcels_adopt swap.metadata e
  | answer =>
    exact congrArg (e.parcels ++ ·)
      (e.offload.parcels_of_no_batch (p := node.responsePacket) rfl _ _)
  | ignore => simp [carryOut]

/-- An answer is never answered: whatever a link does with packets, none is handed to it. -/
theorem onSwap_response {ω : Type} (link : Link ω) (send : Send → Action ω) (node : Node)
    (swap : Swap) (w : ω) :
    node.onSwap { link with send } (.swapResponse swap) w =
      node.onSwap link (.swapResponse swap) w := by
  unfold onSwap
  dsimp only
  rw [compareSwap_eq, compareSwap_eq]
  cases hverdict : swap.verdict false node.metadata.version with
  | adopt => rfl
  | answer => exact absurd (verdict_eq_answer_iff.mp hverdict).2 (by decide)
  | ignore => rfl

end Node

/-! ### Sites that compare -/

namespace Site

/-- The site after it has asked a peer to compare, and what has left it. -/
def probe (s : Site) (moment : Moment) : Site × List Parcel :=
  let (_, node, e) := s.node.initiate Egress.link moment ⟨s.offload, []⟩
  ({ s with node, offload := e.offload }, e.parcels)

/-- The peer that the site asks, if there is one. -/
def probed (s : Site) (moment : Moment) : Except Error (Option Member) :=
  (s.node.initiate Egress.link moment ⟨s.offload, []⟩).1

/-- A site that asks a peer sends it what it stores. -/
theorem parcels_probe {s : Site} {moment : Moment} {peer : Member}
    (h : s.probed moment = .ok (some peer)) :
    (s.probe moment).2 = [⟨peer.key, s.node.requestPacket.encode⟩] := by
  unfold probed Node.initiate at h
  unfold probe Node.initiate
  dsimp only at h ⊢
  cases hfind : (s.node.membership.look moment).2.find?
      fun member ↦ ¬member.SamePeer (s.node.membership.look moment).1.self with
  | none =>
    rw [hfind] at h
    exact absurd h (by simp)
  | some first =>
    rw [hfind] at h
    obtain rfl : first = peer := Option.some.inj (Except.ok.inj h)
    exact s.offload.parcels_of_no_batch (p := s.node.requestPacket) rfl first.addr first.port

theorem metadata_probe (s : Site) (moment : Moment) :
    (s.probe moment).1.node.metadata = s.node.metadata :=
  s.node.metadata_initiate Egress.link moment ⟨s.offload, []⟩

theorem continues_probe (s : Site) (moment : Moment) : Continues (s.probe moment).1 s := by
  unfold probe Node.initiate
  dsimp only
  split <;> exact ⟨rfl, rfl, rfl⟩

/-- The site after its node has done about a swap what has been found to be done, and what has left
it. -/
def carryOut (s : Site) (swap : Swap) (verdict : Verdict) : Site × List Parcel :=
  let (_, node, e) := s.node.carryOut Egress.link swap verdict ⟨s.offload, []⟩
  ({ s with node, offload := e.offload }, e.parcels)

theorem parcels_carryOut (s : Site) (swap : Swap) (verdict : Verdict) :
    (s.carryOut swap verdict).2 = if verdict = .answer then [s.node.answer swap] else [] :=
  s.node.parcels_carryOut swap verdict ⟨s.offload, []⟩

theorem metadata_carryOut (s : Site) (swap : Swap) (verdict : Verdict) :
    (s.carryOut swap verdict).1.node.metadata =
      if verdict = .adopt then s.node.metadata.learn (some swap.metadata) else s.node.metadata :=
  s.node.metadata_carryOut Egress.link swap verdict ⟨s.offload, []⟩

theorem continues_carryOut (s : Site) (swap : Swap) (verdict : Verdict) :
    Continues (s.carryOut swap verdict).1 s := by
  have hsame := s.node.sameStores_carryOut Egress.link swap verdict ⟨s.offload, []⟩
  exact ⟨rfl, hsame.settings, congrArg Membership.self hsame.membership⟩

/-- A site that handles a request reads its version and acts on it at once. -/
theorem hand_of_request {s : Site} {bytes : Bytes} {swap : Swap}
    (hhears : s.hears bytes = some (.swapRequest swap)) (moment : Moment) :
    s.hand moment bytes = s.carryOut swap (swap.verdict true s.node.metadata.version) := by
  rw [hand_of_hears moment hhears]
  unfold carryOut
  rw [← Node.compareSwap_eq]
  rfl

theorem hand_of_response {s : Site} {bytes : Bytes} {swap : Swap}
    (hhears : s.hears bytes = some (.swapResponse swap)) (moment : Moment) :
    s.hand moment bytes = s.carryOut swap (swap.verdict false s.node.metadata.version) := by
  rw [hand_of_hears moment hhears]
  unfold carryOut
  rw [← Node.compareSwap_eq]
  rfl

/-- A request is answered by a site that stores something newer, and by no other. -/
theorem sent_of_request {s : Site} {bytes : Bytes} {swap : Swap}
    (hhears : s.hears bytes = some (.swapRequest swap)) (moment : Moment) :
    (s.hand moment bytes).2 =
      if swap.metadata.version < s.node.metadata.version then [s.node.answer swap] else [] := by
  rw [hand_of_request hhears, parcels_carryOut]
  refine if_congr ?_ rfl rfl
  rw [verdict_eq_answer_iff, and_iff_left rfl]

/-- An answer is never answered. -/
theorem sent_of_response {s : Site} {bytes : Bytes} {swap : Swap}
    (hhears : s.hears bytes = some (.swapResponse swap)) (moment : Moment) :
    (s.hand moment bytes).2 = [] := by
  rw [hand_of_hears moment hhears]
  exact s.node.parcels_receive_response moment swap ⟨s.offload, []⟩

end Site

/-! ### A comparison in a cluster -/

/-- What two nodes store after they have compared what they have stored: both the newer of the two,
or, under one version, each its own. -/
structure Repaired (m m' after after' : Metadata) : Prop where
  version_eq : after.version = max m.version m'.version ∧ after'.version = max m.version m'.version
  of_lt : m.version < m'.version → after = m' ∧ after' = m'
  of_gt : m'.version < m.version → after = m ∧ after' = m
  of_eq : m.version = m'.version → after = m ∧ after' = m'

theorem max_version_of_le {a b : Int64} (h : a ≤ b) : max a b = b := if_pos h

theorem max_version_of_lt {a b : Int64} (h : b < a) : max a b = a := if_neg (Int64.not_le.mpr h)

theorem repaired_learn (m m' : Metadata) :
    Repaired m m' (m.learn (some m')) (m'.learn (some m)) := by
  have hasymm {a b : Int64} (h : a < b) : ¬b < a := Int64.not_lt.mpr (Int64.le_of_lt h)
  by_cases hlt : m.version < m'.version
  · rw [Metadata.learn_of_newer hlt, Metadata.learn_of_not_newer (hasymm hlt)]
    have hmax := max_version_of_le (Int64.le_of_lt hlt)
    exact ⟨⟨hmax.symm, hmax.symm⟩, fun _ ↦ ⟨rfl, rfl⟩, fun h ↦ absurd hlt (hasymm h),
      fun h ↦ absurd h (Int64.ne_of_lt hlt)⟩
  · rw [Metadata.learn_of_not_newer hlt]
    by_cases hgt : m'.version < m.version
    · rw [Metadata.learn_of_newer hgt]
      have hmax := max_version_of_lt hgt
      exact ⟨⟨hmax.symm, hmax.symm⟩, fun h ↦ absurd h hlt, fun _ ↦ ⟨rfl, rfl⟩,
        fun h ↦ absurd h.symm (Int64.ne_of_lt hgt)⟩
    · rw [Metadata.learn_of_not_newer hgt]
      have heq := Int64.le_antisymm (Int64.not_lt.mp hgt) (Int64.not_lt.mp hlt)
      have hmax := max_version_of_le (Int64.not_lt.mp hgt)
      exact ⟨⟨heq.trans hmax.symm, hmax.symm⟩, fun h ↦ absurd h hlt, fun h ↦ absurd h hgt,
        fun _ ↦ ⟨rfl, rfl⟩⟩

namespace Cluster

variable {n : ℕ}

/-- A site asks a peer to compare; the lineages of what leaves it come from a root. -/
def probe (c : Cluster n) (i : Fin n) (moment : Moment) (root : List ℕ) : Cluster n where
  sites := Function.update c.sites i ((c.sites i).probe moment).1
  flight := c.flight + numbered root ((c.sites i).probe moment).2

theorem sites_probe (c : Cluster n) (i : Fin n) (moment : Moment) (root : List ℕ) (j : Fin n) :
    (c.probe i moment root).sites j =
      if j = i then ((c.sites i).probe moment).1 else c.sites j :=
  Function.update_apply c.sites i _ j

theorem continues_probe (c : Cluster n) (i : Fin n) (moment : Moment) (root : List ℕ) (j : Fin n) :
    ((c.probe i moment root).sites j).Continues (c.sites j) := by
  rw [sites_probe]
  by_cases hj : j = i
  · rw [if_pos hj, hj]
    exact (c.sites i).continues_probe moment
  · rw [if_neg hj]
    exact .refl _

theorem metadata_probe (c : Cluster n) (i : Fin n) (moment : Moment) (root : List ℕ) (j : Fin n) :
    ((c.probe i moment root).sites j).node.metadata = (c.sites j).node.metadata := by
  rw [sites_probe]
  by_cases hj : j = i
  · rw [if_pos hj, hj]
    exact (c.sites i).metadata_probe moment
  · rw [if_neg hj]

/-- Two sites of a cluster, one of which asks the other to compare, with nothing in flight that
could interfere. -/
structure Asks (c : Cluster n) (a b : Fin n) (moment : Moment) : Prop where
  key_injective : Function.Injective fun i ↦ (c.sites i).key
  ne : a ≠ b
  key_eq : (c.sites a).key = (c.sites a).node.self.key
  secret_eq : (c.sites b).node.settings.secret = (c.sites a).node.settings.secret
  flight_eq : c.flight = 0
  probed : ∃ peer, (c.sites a).probed moment = .ok (some peer) ∧ peer.key = (c.sites b).key

/-- How far a comparison between two sites has come that is not interfered with, after a number of
deliveries: the request is on its way, or an answer is, or both sites are done. -/
inductive Comparing (c₀ : Cluster n) (a b : Fin n) : ℕ → Cluster n → Prop
  | asked {c : Cluster n} {p : InFlight} (hflight : c.flight = {p})
      (hkey : p.key = (c₀.sites b).key) (hcarries : Carries (c₀.sites a).node.requestPacket p.bytes)
      (hsame : ∀ j, (c.sites j).node.metadata = (c₀.sites j).node.metadata) :
      Comparing c₀ a b 0 c
  | answered {c : Cluster n} {p : InFlight} (hflight : c.flight = {p})
      (hkey : p.key = (c₀.sites a).key)
      (hcarries : Carries (c₀.sites b).node.responsePacket p.bytes)
      (hnewer : (c₀.sites b).node.metadata.Newer (c₀.sites a).node.metadata)
      (hsame : ∀ j, (c.sites j).node.metadata = (c₀.sites j).node.metadata) :
      Comparing c₀ a b 1 c
  | done {count : ℕ} {c : Cluster n} (hcount : count ≤ 2) (hflight : c.flight = 0)
      (hasker : (c.sites a).node.metadata =
        (c₀.sites a).node.metadata.learn (some (c₀.sites b).node.metadata))
      (hasked : (c.sites b).node.metadata =
        (c₀.sites b).node.metadata.learn (some (c₀.sites a).node.metadata)) :
      Comparing c₀ a b count c

variable {c₀ c : Cluster n} {a b : Fin n} {moment : Moment}

theorem Asks.comparing_probe (hasks : c₀.Asks a b moment) (root : List ℕ) :
    Comparing c₀ a b 0 (c₀.probe a moment root) := by
  obtain ⟨peer, hprobed, hpeer⟩ := hasks.probed
  have hflight : (c₀.probe a moment root).flight =
      {⟨⟨peer.key, (c₀.sites a).node.requestPacket.encode⟩, 0 :: root⟩} := by
    unfold probe
    dsimp only
    rw [hasks.flight_eq, Site.parcels_probe hprobed, Multiset.zero_add]
    rfl
  exact .asked hflight hpeer (carries_encode _) (c₀.metadata_probe a moment root)

/-- One delivery takes a comparison further. -/
theorem Asks.comparing_deliver (hasks : c₀.Asks a b moment)
    (hsites : ∀ i, (c.sites i).Continues (c₀.sites i)) {count : ℕ}
    (hcomparing : Comparing c₀ a b count c) {i : Fin n} {now : Moment} {p : InFlight}
    (hp : p ∈ c.flight) (hkey : (c.sites i).key = p.key) :
    Comparing c₀ a b (count + 1) (c.deliver i now p) := by
  have howner {j : Fin n} (h : p.key = (c₀.sites j).key) : i = j :=
    hasks.key_injective (((hsites i).key.symm.trans hkey).trans h)
  have hleft (h : c.flight = {p}) : (c.deliver i now p).flight =
      (numbered p.lineage ((c.sites i).hand now p.bytes).2 : Multiset InFlight) := by
    rw [flight_deliver (h.trans (Multiset.cons_zero p).symm) i now, Multiset.zero_add]
  have hold (j : Fin n) (hj : j ≠ i) (hsame : (c.sites j).node.metadata =
      (c₀.sites j).node.metadata) : ((c.deliver i now p).sites j).node.metadata =
        (c₀.sites j).node.metadata := by
    rw [metadata_deliver, if_neg hj, hsame]
  cases hcomparing with
  | @asked _ q hflight hto hcarries hsame =>
    rw [hflight] at hp
    obtain rfl := Multiset.mem_singleton.mp hp
    obtain rfl := howner hto
    have hhears : (c.sites i).hears p.bytes = some (.swapRequest (c₀.sites a).node.swap) := by
      rw [Site.hears_of_carries hcarries, (hsites i).settings]
      exact if_pos hasks.secret_eq.symm
    have hlearnt : ((c.deliver i now p).sites i).node.metadata =
        (c₀.sites i).node.metadata.learn (some (c₀.sites a).node.metadata) := by
      rw [metadata_deliver, if_pos rfl, hhears, hsame]
      rfl
    have hsent := Site.sent_of_request hhears now
    rw [hsame] at hsent
    by_cases hnewer : (c₀.sites i).node.metadata.Newer (c₀.sites a).node.metadata
    · have hresponse : (c.sites i).node.responsePacket = (c₀.sites i).node.responsePacket := by
        unfold Node.responsePacket Node.swap
        rw [(hsites i).settings, (hsites i).self, hsame]
      have hflight' : (c.deliver i now p).flight =
          {⟨(c.sites i).node.answer (c₀.sites a).node.swap, 0 :: p.lineage⟩} := by
        rw [hleft hflight, hsent.trans (if_pos hnewer)]
        rfl
      refine .answered hflight' hasks.key_eq.symm ?_ hnewer fun j ↦ ?_
      · rw [← hresponse]
        exact carries_encode _
      · by_cases hj : j = i
        · rw [hj, hlearnt, Metadata.learn_of_not_newer]
          exact Int64.not_lt.mpr (Int64.le_of_lt hnewer)
        · exact hold j hj (hsame j)
    · refine .done (Nat.le_succ 1) ?_ ?_ hlearnt
      · rw [hleft hflight, hsent.trans (if_neg hnewer)]
        rfl
      · rw [hold a hasks.ne (hsame a), Metadata.learn_of_not_newer hnewer]
  | @answered _ q hflight hto hcarries hnewer hsame =>
    rw [hflight] at hp
    obtain rfl := Multiset.mem_singleton.mp hp
    obtain rfl := howner hto
    have hhears : (c.sites i).hears p.bytes = some (.swapResponse (c₀.sites b).node.swap) := by
      rw [Site.hears_of_carries hcarries, (hsites i).settings]
      exact if_pos hasks.secret_eq
    refine .done (Nat.le_refl 2) ?_ ?_ ?_
    · rw [hleft hflight, Site.sent_of_response hhears]
      rfl
    · rw [metadata_deliver, if_pos rfl, hhears, hsame]
      rfl
    · rw [hold b hasks.ne.symm (hsame b), Metadata.learn_of_not_newer]
      exact Int64.not_lt.mpr (Int64.le_of_lt hnewer)
  | done hcount hflight hasker hasked =>
    rw [hflight] at hp
    exact absurd hp (Multiset.notMem_zero p)

theorem Asks.comparing_run (hasks : c₀.Asks a b moment) {root : List ℕ} {hops : List Hop}
    (hrun : Run (c₀.probe a moment root) hops c) : Comparing c₀ a b hops.length c := by
  induction hrun with
  | nil => exact hasks.comparing_probe root
  | @snoc hops c hrun i now p hp hkey ih =>
    rw [List.length_append, List.length_singleton]
    refine hasks.comparing_deliver (fun j ↦ ?_) ih hp hkey
    exact (hrun.continues j).trans (c₀.continues_probe a moment root j)

/-- However far a comparison has come, as many packets have been delivered or are in flight as have
been sent, and there are at most two of them. -/
theorem Comparing.length_add_card_le {count : ℕ} (hcomparing : Comparing c₀ a b count c) :
    count + c.flight.card ≤ 2 := by
  cases hcomparing with
  | asked hflight | answered hflight =>
    have hone := Multiset.card_eq_one.mpr ⟨_, hflight⟩
    omega
  | done hcount hflight =>
    have hnone := Multiset.card_eq_zero.mpr hflight
    omega

theorem Comparing.repaired {count : ℕ} (hcomparing : Comparing c₀ a b count c)
    (hdone : c.flight = 0) :
    Repaired (c₀.sites a).node.metadata (c₀.sites b).node.metadata (c.sites a).node.metadata
      (c.sites b).node.metadata := by
  cases hcomparing with
  | asked hflight | answered hflight =>
    rw [hdone] at hflight
    exact absurd hflight (Multiset.singleton_ne_zero _).symm
  | done hcount hflight hasker hasked =>
    rw [hasker, hasked]
    exact repaired_learn _ _

/-- What is in flight of a comparison can be delivered. -/
theorem Comparing.exists_step {count : ℕ} (hcomparing : Comparing c₀ a b count c)
    (hsites : ∀ i, (c.sites i).Continues (c₀.sites i)) (hbusy : c.flight ≠ 0) :
    ∃ i, ∃ p ∈ c.flight, (c.sites i).key = p.key := by
  cases hcomparing with
  | @asked _ p hflight hkey =>
    rw [hflight]
    exact ⟨b, p, Multiset.mem_singleton_self p, (hsites b).key.trans hkey.symm⟩
  | @answered _ p hflight hkey =>
    rw [hflight]
    exact ⟨a, p, Multiset.mem_singleton_self p, (hsites a).key.trans hkey.symm⟩
  | done hcount hflight => exact absurd hflight hbusy

/-- A comparison can be run to its end. -/
theorem Asks.exists_run (hasks : c₀.Asks a b moment) (root : List ℕ) :
    ∃ hops c, Run (c₀.probe a moment root) hops c ∧ c.flight = 0 := by
  suffices hrest : ∀ left c hops, Run (c₀.probe a moment root) hops c → 2 ≤ hops.length + left →
      ∃ hops c, Run (c₀.probe a moment root) hops c ∧ c.flight = 0 from
    hrest 2 _ [] .nil (Nat.le_refl 2)
  intro left
  -- by induction on the number of deliveries that can still follow
  induction left with
  | zero =>
    intro c hops hrun hleft
    have hfew := (hasks.comparing_run hrun).length_add_card_le
    exact ⟨hops, c, hrun, Multiset.card_eq_zero.mp (by omega)⟩
  | succ left ih =>
    intro c hops hrun hleft
    by_cases hdone : c.flight = 0
    · exact ⟨hops, c, hrun, hdone⟩
    · obtain ⟨i, p, hp, hkey⟩ := (hasks.comparing_run hrun).exists_step
        (fun j ↦ (hrun.continues j).trans (c₀.continues_probe a moment root j)) hdone
      refine ih _ _ (.snoc hrun i moment hp hkey) ?_
      rw [List.length_append, List.length_singleton]
      omega

end Cluster

end Gossip
