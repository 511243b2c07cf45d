import Gossip.Proofs.Metadata.Links

/-!
A round of comparisons. Every node asks the first peer on its list to compare, in any order, and
whatever is sent is delivered, in any order too. Requests travel along the links of the cluster and
answers back along them, so nobody hears of anything that is not known at the other end of one of
its links. When nothing is in flight any more, neither end of a link is behind what either of them
stored when the round started.
-/

set_option autoImplicit false
set_option relaxedAutoImplicit false

namespace Gossip

/-- Key, settings and members of a site are those that it had before. -/
structure Site.Remains (s before : Site) : Prop where
  key : s.key = before.key
  settings : s.node.settings = before.node.settings
  membership : s.node.membership = before.node.membership

namespace Site.Remains

variable {s before : Site}

theorem refl (s : Site) : Remains s s := ⟨rfl, rfl, rfl⟩

theorem self (h : Remains s before) : s.node.self = before.node.self :=
  congrArg Membership.self h.membership

theorem requestPacket (h : Remains s before) : s.node.requestPacket =
    ⟨before.node.settings.secret, .swapRequest ⟨before.node.self, s.node.metadata⟩⟩ := by
  rw [← h.settings, ← h.self]
  rfl

theorem responsePacket (h : Remains s before) : s.node.responsePacket =
    ⟨before.node.settings.secret, .swapResponse ⟨before.node.self, s.node.metadata⟩⟩ := by
  rw [← h.settings, ← h.self]
  rfl

/-- A site that handles a swap keeps its members. -/
theorem hand (h : Remains s before) (moment : Moment) {bytes : Bytes} {message : Message}
    (hhears : s.hears bytes = some message) (hwave : message.wave? = none) :
    Remains (s.hand moment bytes).1 before := by
  have hcontinues := s.continues_hand moment bytes
  refine ⟨hcontinues.key.trans h.key, hcontinues.settings.trans h.settings, ?_⟩
  have hsame := s.node.sameStores_receive_of_swap Egress.link moment hwave ⟨s.offload, []⟩
  rw [hand_of_hears moment hhears]
  exact hsame.membership.trans h.membership

end Site.Remains

namespace Cluster

variable {n : ℕ}

/-- The version of the metadata that a site stores. -/
def version (c : Cluster n) (i : Fin n) : Int64 := (c.sites i).node.metadata.version

/-- Part of a round: some sites have asked, each of them once and with its members on its list, and
some of what has been sent has been delivered. -/
inductive Round (listing : Fin n → List Member) (c₀ : Cluster n) : List (Fin n) → Cluster n → Prop
  | start : Round listing c₀ [] c₀
  | ask {asked : List (Fin n)} {c : Cluster n} (hround : Round listing c₀ asked c) {i : Fin n}
      (hi : i ∉ asked) {moment : Moment}
      (hlists : (c.sites i).node.membership.Lists (listing i) moment) (root : List ℕ) :
      Round listing c₀ (i :: asked) (c.probe i moment root)
  | deliver {asked : List (Fin n)} {c : Cluster n} (hround : Round listing c₀ asked c) (i : Fin n)
      (moment : Moment) {p : InFlight} (hp : p ∈ c.flight) (hkey : (c.sites i).key = p.key) :
      Round listing c₀ asked (c.deliver i moment p)

/-! ### What is in flight -/

/-- A request of a site to another one, which tells of some metadata. -/
structure Requests (c : Cluster n) (i j : Fin n) (m : Metadata) (p : InFlight) : Prop where
  key_eq : p.key = (c.sites j).key
  carries : Carries
    ⟨(c.sites i).node.settings.secret, .swapRequest ⟨(c.sites i).node.self, m⟩⟩ p.bytes

/-- An answer to a site from another one, which tells of some metadata. -/
structure Answers (c : Cluster n) (i j : Fin n) (m : Metadata) (p : InFlight) : Prop where
  key_eq : p.key = (c.sites i).key
  carries : Carries
    ⟨(c.sites j).node.settings.secret, .swapResponse ⟨(c.sites j).node.self, m⟩⟩ p.bytes

/-- Every site stores, and is told, only metadata that it may know; and what is in flight are
requests of sites to those that they turn to, and answers to such requests. -/
structure Busy (c₀ : Cluster n) (listing : Fin n → List Member) (K : Fin n → Metadata → Prop)
    (c : Cluster n) : Prop where
  remains : ∀ i, (c.sites i).Remains (c₀.sites i)
  knows : ∀ i, K i (c.sites i).node.metadata
  exchanges : ∀ p ∈ c.flight, ∃ i j m, c₀.TurnsTo listing i j ∧ K i m ∧
    (c₀.Requests i j m p ∨ c₀.Answers i j m p)

/-- Whatever a site may know, so may the one that it turns to, and the other way round. -/
def Shares (c : Cluster n) (listing : Fin n → List Member) (K : Fin n → Metadata → Prop) : Prop :=
  ∀ i j m, c.TurnsTo listing i j → (K i m ↔ K j m)

section Busy

variable {c₀ c : Cluster n} {listing : Fin n → List Member} {K : Fin n → Metadata → Prop}

/-- A request is handled by the site it is for. -/
theorem Requests.hears (hacquainted : c₀.Acquainted listing)
    (hremains : ∀ i, (c.sites i).Remains (c₀.sites i)) {i j k : Fin n} {m : Metadata}
    {p : InFlight} (hrequests : c₀.Requests i j m p) (hkey : (c.sites k).key = p.key) :
    k = j ∧ (c.sites k).hears p.bytes = some (.swapRequest ⟨(c₀.sites i).node.self, m⟩) := by
  refine ⟨hacquainted.key_injective
    (((hremains k).key.symm.trans hkey).trans hrequests.key_eq), ?_⟩
  rw [Site.hears_of_carries hrequests.carries, (hremains k).settings]
  exact if_pos (hacquainted.secret_eq i k)

/-- An answer is handled by the site it is for. -/
theorem Answers.hears (hacquainted : c₀.Acquainted listing)
    (hremains : ∀ i, (c.sites i).Remains (c₀.sites i)) {i j k : Fin n} {m : Metadata}
    {p : InFlight} (hanswers : c₀.Answers i j m p) (hkey : (c.sites k).key = p.key) :
    k = i ∧ (c.sites k).hears p.bytes = some (.swapResponse ⟨(c₀.sites j).node.self, m⟩) := by
  refine ⟨hacquainted.key_injective
    (((hremains k).key.symm.trans hkey).trans hanswers.key_eq), ?_⟩
  rw [Site.hears_of_carries hanswers.carries, (hremains k).settings]
  exact if_pos (hacquainted.secret_eq j k)

/-- Whoever asks changes nothing else. -/
theorem sites_probe_of_lists {i : Fin n} {moment : Moment}
    (hlists : (c.sites i).node.membership.Lists (listing i) moment) (root : List ℕ) :
    (c.probe i moment root).sites = c.sites := by
  unfold probe
  rw [Site.probe_of_lists hlists]
  exact Function.update_eq_self i c.sites

theorem mem_flight_probe {i : Fin n} {moment : Moment} {root : List ℕ} {p : InFlight} :
    p ∈ (c.probe i moment root).flight ↔
      p ∈ c.flight ∨ p ∈ numbered root ((c.sites i).probe moment).2 := by
  rw [probe, Multiset.mem_add, Multiset.mem_coe]

section Asking

variable (hacquainted : c₀.Acquainted listing) (hremains : ∀ i, (c.sites i).Remains (c₀.sites i))
  {i : Fin n} {moment : Moment} (hlists : (c.sites i).node.membership.Lists (listing i) moment)

include hacquainted hremains hlists

/-- Whatever a site sends when it asks is a request to the one that it turns to. -/
theorem exists_requests {root : List ℕ} {p : InFlight}
    (hp : p ∈ numbered root ((c.sites i).probe moment).2) :
    ∃ j, c₀.TurnsTo listing i j ∧ c₀.Requests i j (c.sites i).node.metadata p := by
  have hsent := toParcel_mem_of_mem_numbered hp
  rw [Site.probe_of_lists hlists, (hremains i).membership] at hsent
  cases hpeer : (c₀.sites i).node.membership.firstPeer? (listing i) with
  | none =>
    rw [hpeer] at hsent
    exact absurd hsent (List.not_mem_nil)
  | some peer =>
    rw [hpeer] at hsent
    have hparcel := List.mem_singleton.mp hsent
    obtain ⟨j, hj⟩ := hacquainted.exists_key hpeer
    refine ⟨j, ⟨peer, hpeer, hj.symm⟩, (congrArg Parcel.key hparcel).trans hj.symm, ?_⟩
    rw [← (hremains i).requestPacket, show p.bytes = _ from congrArg Parcel.bytes hparcel]
    exact carries_encode _

omit hacquainted in
/-- A site that asks sends a request to the one that it turns to. -/
theorem TurnsTo.exists_request {j : Fin n} (hturns : c₀.TurnsTo listing i j) (root : List ℕ) :
    ∃ p ∈ (c.probe i moment root).flight, c₀.Requests i j (c.sites i).node.metadata p := by
  obtain ⟨peer, hpeer, hkey⟩ := hturns
  rw [← (hremains i).membership] at hpeer
  refine ⟨⟨⟨peer.key, (c.sites i).node.requestPacket.encode⟩, 0 :: root⟩,
    mem_flight_probe.mpr (Or.inr ?_), hkey, ?_⟩
  · rw [Site.probe_of_lists hlists, hpeer]
    exact List.mem_singleton_self _
  · rw [(hremains i).requestPacket]
    exact carries_encode _

end Asking

section Answering

variable (hacquainted : c₀.Acquainted listing) (hremains : ∀ i, (c.sites i).Remains (c₀.sites i))
  {i j : Fin n} {m : Metadata} {p : InFlight} (hhears : (c.sites j).hears p.bytes =
    some (.swapRequest ⟨(c₀.sites i).node.self, m⟩)) (moment : Moment)

include hacquainted hremains hhears

/-- Whatever a site sends that handles a request is an answer, and tells of what it stores. -/
theorem answers_of_mem {q : InFlight}
    (hq : q ∈ numbered p.lineage ((c.sites j).hand moment p.bytes).2) :
    c₀.Answers i j (c.sites j).node.metadata q := by
  have hsent := toParcel_mem_of_mem_numbered hq
  rw [Site.sent_of_request hhears] at hsent
  split at hsent
  · have hparcel := List.mem_singleton.mp hsent
    refine ⟨(congrArg Parcel.key hparcel).trans (hacquainted.key_eq i).symm, ?_⟩
    rw [← (hremains j).responsePacket, show q.bytes = _ from congrArg Parcel.bytes hparcel]
    exact carries_encode _
  · exact absurd hsent List.not_mem_nil

/-- A site that handles a request and stores something newer answers. -/
theorem exists_answer (hnewer : m.version < c.version j) :
    ∃ q ∈ (c.deliver j moment p).flight, c₀.Answers i j (c.sites j).node.metadata q := by
  have hsent := (Site.sent_of_request hhears moment).trans (if_pos hnewer)
  have hmem : (⟨(c.sites j).node.answer ⟨(c₀.sites i).node.self, m⟩, 0 :: p.lineage⟩ : InFlight) ∈
      numbered p.lineage ((c.sites j).hand moment p.bytes).2 := by
    rw [hsent]
    exact List.mem_singleton_self _
  exact ⟨_, mem_flight_deliver.mpr (Or.inr hmem),
    answers_of_mem hacquainted hremains hhears moment hmem⟩

end Answering

/-! ### What a site may know -/

theorem Busy.ask (hacquainted : c₀.Acquainted listing) (hbusy : c₀.Busy listing K c) {i : Fin n}
    {moment : Moment} (hlists : (c.sites i).node.membership.Lists (listing i) moment)
    (root : List ℕ) :
    c₀.Busy listing K (c.probe i moment root) := by
  have hsites := sites_probe_of_lists hlists root
  refine ⟨hsites ▸ hbusy.remains, hsites ▸ hbusy.knows, fun p hp ↦ ?_⟩
  rcases mem_flight_probe.mp hp with hp | hp
  · exact hbusy.exchanges p hp
  · obtain ⟨j, hturns, hrequests⟩ := exists_requests hacquainted hbusy.remains hlists hp
    exact ⟨i, j, _, hturns, hbusy.knows i, Or.inl hrequests⟩

/-- A parcel in flight tells the site that handles it of metadata that it may know, and has it send
an answer at most. -/
theorem Busy.exists_message (hacquainted : c₀.Acquainted listing) (hshares : c₀.Shares listing K)
    (hbusy : c₀.Busy listing K c) {k : Fin n} {p : InFlight} (hp : p ∈ c.flight)
    (hkey : (c.sites k).key = p.key) (moment : Moment) :
    ∃ message m, (c.sites k).hears p.bytes = some message ∧ message.wave? = none ∧
      message.news? = some m ∧ K k m ∧
      ∀ q ∈ numbered p.lineage ((c.sites k).hand moment p.bytes).2,
        ∃ i j m', c₀.TurnsTo listing i j ∧ K i m' ∧ c₀.Answers i j m' q := by
  obtain ⟨i, j, m, hturns, hknown, hrequests | hanswers⟩ := hbusy.exchanges p hp
  · obtain ⟨rfl, hhears⟩ := hrequests.hears hacquainted hbusy.remains hkey
    refine ⟨_, m, hhears, rfl, rfl, (hshares i k m hturns).mp hknown, fun q hq ↦ ?_⟩
    exact ⟨i, k, _, hturns, (hshares i k _ hturns).mpr (hbusy.knows k),
      answers_of_mem hacquainted hbusy.remains hhears moment hq⟩
  · obtain ⟨rfl, hhears⟩ := hanswers.hears hacquainted hbusy.remains hkey
    refine ⟨_, m, hhears, rfl, rfl, hknown, fun q hq ↦ ?_⟩
    have hnone := toParcel_mem_of_mem_numbered hq
    rw [Site.sent_of_response hhears] at hnone
    exact absurd hnone List.not_mem_nil

/-- A delivery tells nobody of anything that it may not know. -/
theorem Busy.deliver (hacquainted : c₀.Acquainted listing) (hshares : c₀.Shares listing K)
    (hbusy : c₀.Busy listing K c) (k : Fin n) (moment : Moment) {p : InFlight} (hp : p ∈ c.flight)
    (hkey : (c.sites k).key = p.key) : c₀.Busy listing K (c.deliver k moment p) := by
  obtain ⟨message, m, hhears, hwave, hnews, htold, hsent⟩ :=
    hbusy.exists_message hacquainted hshares hp hkey moment
  refine ⟨fun l ↦ ?_, fun l ↦ ?_, fun q hq ↦ ?_⟩
  · rw [sites_deliver]
    by_cases hl : l = k
    · rw [if_pos hl, hl]
      exact (hbusy.remains k).hand moment hhears hwave
    · rw [if_neg hl]
      exact hbusy.remains l
  · rw [metadata_deliver]
    by_cases hl : l = k
    · rw [if_pos hl, hl, hhears, Option.bind_some, hnews]
      rcases (c.sites k).node.metadata.learn_eq_or (some m) with hsame | hlearnt
      · exact hsame.symm ▸ hbusy.knows k
      · exact Option.some.inj hlearnt ▸ htold
    · rw [if_neg hl]
      exact hbusy.knows l
  · rcases mem_flight_deliver.mp hq with hq | hq
    · exact hbusy.exchanges q (Multiset.mem_of_mem_erase hq)
    · obtain ⟨i, j, m', hturns, hknown, hanswers⟩ := hsent q hq
      exact ⟨i, j, m', hturns, hknown, Or.inr hanswers⟩

/-- What is in flight is addressed to somebody. -/
theorem Busy.exists_key (hbusy : c₀.Busy listing K c) {p : InFlight} (hp : p ∈ c.flight) :
    ∃ k, (c.sites k).key = p.key := by
  obtain ⟨i, j, m, -, -, hrequests | hanswers⟩ := hbusy.exchanges p hp
  · exact ⟨j, (hbusy.remains j).key.trans hrequests.key_eq.symm⟩
  · exact ⟨i, (hbusy.remains i).key.trans hanswers.key_eq.symm⟩

/-! ### What a round settles -/

/-- How far a comparison in a round has come, by the versions with which the round started: the
request is on its way, or the answer is, or neither of the two is behind any more. -/
inductive Settling (c₀ c₁ : Cluster n) (i j : Fin n) (c : Cluster n) : Prop
  | asking {p : InFlight} {m : Metadata} (hp : p ∈ c.flight) (hrequests : c₀.Requests i j m p)
      (hleast : c₁.version i ≤ m.version) (hmost : m.version ≤ c.version i)
  | answering {p : InFlight} {m : Metadata} (hp : p ∈ c.flight) (hanswers : c₀.Answers i j m p)
      (hleast : c₁.version j ≤ m.version) (hasked : c₁.version i ≤ c.version j)
  | settled (hasker : c₁.version j ≤ c.version i) (hasked : c₁.version i ≤ c.version j)

theorem version_deliver_le (c : Cluster n) (k : Fin n) (moment : Moment) (p : InFlight)
    (i : Fin n) : c.version i ≤ (c.deliver k moment p).version i := by
  unfold version
  rw [metadata_deliver]
  split
  · exact Metadata.version_le_learn _ _
  · exact Int64.le_refl _

/-- Whoever hears of some metadata does not stay behind it. -/
theorem version_le_deliver {k : Fin n} {p : InFlight} {message : Message} {m : Metadata}
    (hhears : (c.sites k).hears p.bytes = some message) (hnews : message.news? = some m)
    (moment : Moment) : m.version ≤ (c.deliver k moment p).version k := by
  unfold version
  rw [metadata_deliver, if_pos rfl, hhears, Option.bind_some, hnews]
  exact Metadata.version_news_le_learn _ _

theorem version_probe (c : Cluster n) (k : Fin n) (moment : Moment) (root : List ℕ) (i : Fin n) :
    (c.probe k moment root).version i = c.version i :=
  congrArg Metadata.version (c.metadata_probe k moment root i)

theorem Settling.probe {c₁ : Cluster n} {i j : Fin n} (hsettling : Settling c₀ c₁ i j c)
    (k : Fin n) (moment : Moment) (root : List ℕ) :
    Settling c₀ c₁ i j (c.probe k moment root) := by
  have hversion := c.version_probe k moment root
  have hkept {p : InFlight} (hp : p ∈ c.flight) : p ∈ (c.probe k moment root).flight :=
    mem_flight_probe.mpr (Or.inl hp)
  cases hsettling with
  | asking hp hrequests hleast hmost =>
    exact .asking (hkept hp) hrequests hleast ((hversion i).symm ▸ hmost)
  | answering hp hanswers hleast hasked =>
    exact .answering (hkept hp) hanswers hleast ((hversion j).symm ▸ hasked)
  | settled hasker hasked =>
    exact .settled ((hversion i).symm ▸ hasker) ((hversion j).symm ▸ hasked)

theorem Settling.deliver (hacquainted : c₀.Acquainted listing)
    (hremains : ∀ i, (c.sites i).Remains (c₀.sites i)) {c₁ : Cluster n} {i j : Fin n}
    (hleast : ∀ i, c₁.version i ≤ c.version i) (hsettling : Settling c₀ c₁ i j c) (k : Fin n)
    (moment : Moment) {p : InFlight} (hkey : (c.sites k).key = p.key) :
    Settling c₀ c₁ i j (c.deliver k moment p) := by
  have hgrows := c.version_deliver_le k moment p
  have hkept {q : InFlight} (hq : q ∈ c.flight) (hne : q ≠ p) :
      q ∈ (c.deliver k moment p).flight :=
    mem_flight_deliver.mpr (Or.inl ((Multiset.mem_erase_of_ne hne).mpr hq))
  -- Equal parcels are handled alike, so it makes no difference which of them is delivered.
  cases hsettling with
  | @asking q m hq hrequests htold hmost =>
    by_cases hqp : q = p
    · obtain rfl := hqp
      obtain ⟨rfl, hhears⟩ := hrequests.hears hacquainted hremains hkey
      have hasked := Int64.le_trans htold (version_le_deliver hhears rfl moment)
      by_cases hnewer : m.version < c.version k
      · obtain ⟨r, hr, hanswers⟩ := exists_answer hacquainted hremains hhears moment hnewer
        exact .answering hr hanswers (hleast k) hasked
      · refine .settled ?_ hasked
        calc c₁.version k ≤ c.version k := hleast k
          _ ≤ m.version := Int64.not_lt.mp hnewer
          _ ≤ c.version i := hmost
          _ ≤ _ := hgrows i
    · exact .asking (hkept hq hqp) hrequests htold (Int64.le_trans hmost (hgrows i))
  | @answering q m hq hanswers htold hasked =>
    have hasked' := Int64.le_trans hasked (hgrows j)
    by_cases hqp : q = p
    · obtain rfl := hqp
      obtain ⟨rfl, hhears⟩ := hanswers.hears hacquainted hremains hkey
      exact .settled (Int64.le_trans htold (version_le_deliver hhears rfl moment)) hasked'
    · exact .answering (hkept hq hqp) hanswers htold hasked'
  | settled hasker hasked =>
    exact .settled (Int64.le_trans hasker (hgrows i)) (Int64.le_trans hasked (hgrows j))

/-! ### A round from its start -/

section Round

variable {c₁ : Cluster n} {asked : List (Fin n)} (hacquainted : c₀.Acquainted listing)
  (hshares : c₀.Shares listing K) (hstart : c₀.Busy listing K c₁)

include hacquainted hshares hstart

theorem Round.busy (hround : Round listing c₁ asked c) : c₀.Busy listing K c := by
  induction hround with
  | start => exact hstart
  | ask hround hi hlists root ih => exact ih.ask hacquainted hlists root
  | deliver hround k moment hp hkey ih => exact ih.deliver hacquainted hshares k moment hp hkey

/-- In a round no version goes back, and the comparisons of those who have asked go on. -/
theorem Round.settling (hround : Round listing c₁ asked c) :
    (∀ i, c₁.version i ≤ c.version i) ∧
      ∀ i ∈ asked, ∀ j, c₀.TurnsTo listing i j → Settling c₀ c₁ i j c := by
  induction hround with
  | start => exact ⟨fun i ↦ Int64.le_refl _, by simp⟩
  | @ask asked c hround k hk moment hlists root ih =>
    obtain ⟨hleast, hsettling⟩ := ih
    have hremains := (hround.busy hacquainted hshares hstart).remains
    have hversion := c.version_probe k moment root
    refine ⟨fun i ↦ (hversion i).symm ▸ hleast i, fun i hi j hturns ↦ ?_⟩
    rcases List.mem_cons.mp hi with rfl | hi
    · obtain ⟨p, hp, hrequests⟩ := hturns.exists_request hremains hlists root
      exact .asking hp hrequests (hleast i) ((hversion i).symm ▸ Int64.le_refl _)
    · exact (hsettling i hi j hturns).probe k moment root
  | @deliver asked c hround k moment p hp hkey ih =>
    obtain ⟨hleast, hsettling⟩ := ih
    have hremains := (hround.busy hacquainted hshares hstart).remains
    refine ⟨fun i ↦ Int64.le_trans (hleast i) (c.version_deliver_le k moment p i), ?_⟩
    exact fun i hi j hturns ↦
      (hsettling i hi j hturns).deliver hacquainted hremains hleast k moment hkey

/-- After a round in which everybody has asked, nobody is behind those that it is linked to. -/
theorem Round.version_le (hround : Round listing c₁ asked c) (hasked : ∀ i, i ∈ asked)
    (hdone : c.flight = 0) {i j : Fin n} (hlinked : (c₀.links listing).Adj i j) :
    c₁.version j ≤ c.version i := by
  have hsettled {i j : Fin n} (hturns : c₀.TurnsTo listing i j) :
      c₁.version j ≤ c.version i ∧ c₁.version i ≤ c.version j := by
    cases (hround.settling hacquainted hshares hstart).2 i (hasked i) j hturns with
    | asking hp | answering hp =>
      rw [hdone] at hp
      exact absurd hp (Multiset.notMem_zero _)
    | settled hasker hasked => exact ⟨hasker, hasked⟩
  rcases ((SimpleGraph.fromRel_adj _ i j).mp hlinked).2 with hturns | hturns
  · exact (hsettled hturns).1
  · exact (hsettled hturns).2

/-- Whoever has not asked yet can be made to. -/
theorem Round.exists_asked (hasked : asked.Nodup) : ∃ c, Round listing c₁ asked c := by
  induction asked with
  | nil => exact ⟨c₁, .start⟩
  | cons i rest ih =>
    obtain ⟨hi, hrest⟩ := List.nodup_cons.mp hasked
    obtain ⟨c, hround⟩ := ih hrest
    obtain ⟨moment, hlists⟩ := hacquainted.lists i
    rw [← ((hround.busy hacquainted hshares hstart).remains i).membership] at hlists
    exact ⟨_, hround.ask hi hlists []⟩

/-- A round can be run until nothing is in flight. -/
theorem Round.exists_done (hround : Round listing c₁ asked c) :
    ∃ c', Round listing c₁ asked c' ∧ c'.flight = 0 := by
  obtain ⟨U, hwithin⟩ := c.exists_within
  -- by induction on what is still in flight
  induction hload : c.load U using Nat.strong_induction_on generalizing c with
  | _ load ih =>
    by_cases hdone : c.flight = 0
    · exact ⟨c, hround, hdone⟩
    · obtain ⟨p, hp⟩ := Multiset.exists_mem_of_ne_zero hdone
      obtain ⟨k, hkey⟩ := (hround.busy hacquainted hshares hstart).exists_key hp
      have hstep : c.Step (c.deliver k dawn p) := .deliver c k dawn hp hkey
      exact ih _ (hload ▸ hwithin.load_lt hstep) (hround.deliver k dawn hp hkey)
        (hwithin.step hstep) rfl

end Round

end Busy

end Cluster

end Gossip
