import Gossip.Proofs.Cluster
import Mathlib.Algebra.BigOperators.Group.Multiset.Basic
import Mathlib.Algebra.GroupWithZero.Nat
import Mathlib.Data.Finset.Card
import Mathlib.Data.Finset.Union
import Mathlib.Data.Fintype.Basic

/-!
Every wave and every comparison dies out. Whatever can become a target is among the finitely many
keys that the nodes know or that the waves in flight introduce. A parcel of a wave weighs two to
the number of those keys that it has not marked: the parcels that it causes have each marked all
of their targets, so together they weigh less. A request weighs more than its answer, and
everything else weighs one. So the weight of what is in flight falls with every step.
-/

set_option autoImplicit false
set_option relaxedAutoImplicit false

namespace Gossip

/-! ### What bytes can be read as -/

/-- The message of a packet in a payload, under whatever secret. -/
def message? (payload : Except Error Bytes) : Option Message :=
  match payload.bind Packet.decode with
  | .error _ => none
  | .ok packet => some packet.message

/-- The messages that endpoints read from bytes, the raw ones and the ones in frames. -/
def readings (bytes : Bytes) : List Message :=
  (message? (.ok bytes)).toList ++ (message? (stripFrame (frame bytes))).toList

theorem Site.mem_readings_of_hears {s : Site} {bytes : Bytes} {message : Message}
    (h : s.hears bytes = some message) : message ∈ readings bytes := by
  have hread : message? (s.node.payload (s.unitOf bytes)) = some message := by
    unfold Site.hears Node.read? at h
    unfold message?
    cases hpayload : s.node.payload (s.unitOf bytes) with
    | error error => simp [hpayload] at h
    | ok payload =>
      cases hdecode : Packet.decode payload with
      | error error => simp [hpayload, hdecode] at h
      | ok packet =>
        simp only [hpayload, hdecode] at h
        simp only [Except.bind, hdecode]
        split at h
        · exact h
        · exact absurd h (by simp)
  rw [readings, List.mem_append, Option.mem_toList, Option.mem_toList]
  unfold Node.payload Site.unitOf at hread
  split at hread
  · exact Or.inr hread
  · exact Or.inl hread

theorem readings_of_carries {p : Packet} {bytes : Bytes} (h : Carries p bytes) :
    readings bytes = [p.message, p.message] := by
  obtain ⟨hraw, payload, hstrip, hframed⟩ := h
  simp [readings, message?, Except.bind, hraw, hstrip, hframed]

/-! ### Weights -/

section Weight

variable (U : Finset String)

/-- How many keys a wave has not marked. -/
def missing (h : Heartbeat) : ℕ := (U.filter fun key ↦ h.infected.containsKey key = false).card

/-- The weight of a message. -/
def cost : Message → ℕ
  | .heartbeat h => 2 ^ missing U h
  | .forward h _ => 2 ^ missing U h
  | .swapRequest _ => 2
  | .swapResponse _ => 1

/-- The weight of bytes, by the heaviest message that can be read from them. -/
def weight (bytes : Bytes) : ℕ := ((readings bytes).map (cost U)).foldr max 1

theorem one_le_cost (message : Message) : 1 ≤ cost U message := by
  cases message with
  | heartbeat h | forward h _ => exact Nat.one_le_two_pow
  | swapRequest _ => exact Nat.le_succ 1
  | swapResponse _ => exact Nat.le_refl 1

theorem cost_of_wave {message : Message} {h : Heartbeat} (hwave : message.wave? = some h) :
    cost U message = 2 ^ missing U h := by
  cases message with
  | heartbeat _ | forward _ _ =>
    cases hwave
    rfl
  | swapRequest _ | swapResponse _ => exact absurd hwave (by simp [Message.wave?])

theorem le_foldr_max {w : ℕ} {l : List ℕ} (h : w ∈ l) : w ≤ l.foldr max 1 := by
  induction l with
  | nil => exact absurd h (by simp)
  | cons first rest ih =>
    rw [List.foldr_cons]
    rcases List.mem_cons.mp h with rfl | h
    · exact Nat.le_max_left _ _
    · exact Nat.le_trans (ih h) (Nat.le_max_right _ _)

theorem one_le_foldr_max (l : List ℕ) : 1 ≤ l.foldr max 1 := by
  induction l with
  | nil => exact Nat.le_refl 1
  | cons first rest ih => exact Nat.le_trans ih (Nat.le_max_right _ _)

theorem one_le_weight (bytes : Bytes) : 1 ≤ weight U bytes := one_le_foldr_max _

theorem cost_le_weight {bytes : Bytes} {message : Message} (h : message ∈ readings bytes) :
    cost U message ≤ weight U bytes :=
  le_foldr_max (List.mem_map_of_mem h)

theorem weight_of_carries {p : Packet} {bytes : Bytes} (h : Carries p bytes) :
    weight U bytes = cost U p.message := by
  have hone := one_le_cost U p.message
  rw [weight, readings_of_carries h]
  simp only [List.map_cons, List.map_nil, List.foldr_cons, List.foldr_nil]
  omega

end Weight

namespace Spreads

variable {U : Finset String} {settings : Settings} {membership : Membership} {moment : Moment}
  {h : Heartbeat} {sent : List Parcel}

/-- The targets of a broadcast were missing before, and no longer are. -/
theorem missing_add_length_le (hs : Spreads settings membership moment h sent)
    (hlive : ∀ m ∈ (membership.look moment).2, m.key ∈ U) :
    missing U (onward settings membership moment h) + sent.length ≤ missing U h := by
  have hcard : ((sent.map Parcel.key).toFinset).card = sent.length := by
    rw [List.toFinset_card_of_nodup hs.nodup, List.length_map]
  rw [missing, missing, ← hcard, ← Finset.card_union_of_disjoint]
  · apply Finset.card_le_card
    intro key hkey
    rw [Finset.mem_union, Finset.mem_filter, List.mem_toFinset] at hkey
    rw [Finset.mem_filter]
    rcases hkey with ⟨hmem, hunmarked⟩ | htarget
    · refine ⟨hmem, Bool.eq_false_iff.mpr fun hmarked ↦ ?_⟩
      exact Bool.eq_false_iff.mp hunmarked ((hs.containsKey_onward key).mpr (Or.inl hmarked))
    · obtain ⟨⟨m, hm, rfl⟩, hunmarked⟩ := hs.target_of_mem htarget
      exact ⟨hlive m hm, hunmarked⟩
  · rw [Finset.disjoint_left]
    intro key hkey htarget
    rw [List.mem_toFinset] at htarget
    apply Bool.eq_false_iff.mp (Finset.mem_filter.mp hkey).2
    exact (hs.containsKey_onward key).mpr (Or.inr htarget)

theorem weight_of_mem (hs : Spreads settings membership moment h sent) {p : Parcel}
    (hp : p ∈ sent) :
    weight U p.bytes = 2 ^ missing U (onward settings membership moment h) := by
  obtain ⟨batch, hcarries⟩ := hs.carries p hp
  exact weight_of_carries U hcarries

/-- All that a broadcast puts on the network weighs less than the wave that caused it. -/
theorem sum_weight_lt (hs : Spreads settings membership moment h sent)
    (hlive : ∀ m ∈ (membership.look moment).2, m.key ∈ U) :
    (sent.map fun p ↦ weight U p.bytes).sum < 2 ^ missing U h := by
  have hsum : (sent.map fun p ↦ weight U p.bytes).sum =
      sent.length * 2 ^ missing U (onward settings membership moment h) := by
    rw [List.map_congr_left fun p hp ↦ hs.weight_of_mem hp, List.map_const',
      List.sum_replicate_nat]
  calc (sent.map fun p ↦ weight U p.bytes).sum
      = sent.length * 2 ^ missing U (onward settings membership moment h) := hsum
    _ < 2 ^ sent.length * 2 ^ missing U (onward settings membership moment h) :=
        Nat.mul_lt_mul_of_pos_right Nat.lt_two_pow_self (Nat.two_pow_pos _)
    _ = 2 ^ (missing U (onward settings membership moment h) + sent.length) := by
        rw [Nat.pow_add, Nat.mul_comm]
    _ ≤ 2 ^ missing U h :=
        Nat.pow_le_pow_right (by decide) (hs.missing_add_length_le hlive)

end Spreads

/-! ### Handing up a parcel -/

/-- The keys of the members that a node stores. -/
def Site.Knows (U : Finset String) (s : Site) : Prop :=
  ∀ m ∈ s.node.membership.members, m.key ∈ U

/-- The keys under which the senders of the waves in some bytes are stored. -/
def Introduces (U : Finset String) (bytes : Bytes) : Prop :=
  ∀ message ∈ readings bytes, ∀ h, message.wave? = some h → h.node.withAddr.key ∈ U

theorem introduces_of_carries {U : Finset String} {p : Packet} {bytes : Bytes}
    (hcarries : Carries p bytes)
    (hwave : ∀ h, p.message.wave? = some h → h.node.withAddr.key ∈ U) : Introduces U bytes := by
  intro message hmessage
  rw [readings_of_carries hcarries] at hmessage
  have heq : message = p.message := by simpa using hmessage
  rw [heq]
  exact hwave

section Hand

variable {U : Finset String} {s : Site} {bytes : Bytes}

/-- A node that has stored the sender of a wave knows its old members and the sender. -/
theorem key_mem_of_mem_set (hknows : s.Knows U) {now : Instant} {h : Heartbeat}
    (hsender : h.node.withAddr.key ∈ U) {m : Member}
    (hm : m ∈ (s.node.membership.set h.node now).1.members) : m.key ∈ U := by
  rcases (Membership.mem_members_set _ _).mp hm with rfl | hm
  · rwa [Membership.key_normalize]
  · exact hknows m hm

theorem knows_hand (hknows : s.Knows U) (hintroduces : Introduces U bytes) (moment : Moment) :
    (s.hand moment bytes).1.Knows U := by
  intro m hm
  rcases s.membership_hand moment bytes with hsame | ⟨message, h, hhears, hwave, hsame⟩
  · rw [hsame] at hm
    exact hknows m hm
  · have hsender := hintroduces message (Site.mem_readings_of_hears hhears) h hwave
    rw [hsame] at hm
    exact key_mem_of_mem_set hknows hsender (Membership.mem_members_of_mem_expire hm)

/-- What leaves a site in answer to bytes: the parcels of a wave it takes in, or at most one
answer, or nothing. -/
theorem hand_cases (s : Site) (moment : Moment) (bytes : Bytes) :
    (s.hand moment bytes).2 = [] ∨
      (∃ swap, .swapRequest swap ∈ readings bytes ∧
        (s.hand moment bytes).2 = [s.node.answer swap]) ∨
      ∃ message ∈ readings bytes, ∃ h, message.wave? = some h ∧
        Spreads s.node.settings (s.node.membership.set h.node moment.now).1 moment h
          (s.hand moment bytes).2 := by
  cases hhears : s.hears bytes with
  | none => exact Or.inl (by rw [Site.hand_of_hears_none moment hhears])
  | some message =>
    have hread := Site.mem_readings_of_hears hhears
    cases hmessage : message with
    | heartbeat h | forward h _ =>
      exact Or.inr (Or.inr ⟨message, hread, h, by rw [hmessage]; rfl,
        Site.hand_spreads moment hhears (by rw [hmessage]; rfl)⟩)
    | swapRequest swap =>
      rw [hmessage] at hhears hread
      obtain ⟨sent, hparcels, hsent⟩ :=
        s.node.parcels_receive_request moment swap ⟨s.offload, []⟩
      rw [Site.hand_of_hears moment hhears, hparcels]
      exact hsent.imp id fun hanswer ↦ Or.inl ⟨swap, hread, hanswer⟩
    | swapResponse swap =>
      rw [hmessage] at hhears
      refine Or.inl ?_
      rw [Site.hand_of_hears moment hhears]
      exact s.node.parcels_receive_response moment swap ⟨s.offload, []⟩

theorem Node.carries_answer (node : Node) (swap : Swap) :
    Carries node.responsePacket (node.answer swap).bytes :=
  carries_encode node.responsePacket

theorem introduces_hand (hintroduces : Introduces U bytes) (moment : Moment) :
    ∀ p ∈ (s.hand moment bytes).2, Introduces U p.bytes := by
  intro p hp
  rcases hand_cases s moment bytes with hnone | ⟨swap, -, hanswer⟩ |
    ⟨message, hread, h, hwave, hspreads⟩
  · rw [hnone] at hp
    exact absurd hp (by simp)
  · rw [hanswer, List.mem_singleton] at hp
    rw [hp]
    exact introduces_of_carries (s.node.carries_answer swap) fun h hwave ↦
      absurd hwave (by simp [Node.responsePacket, Message.wave?])
  · obtain ⟨batch, hcarries⟩ := hspreads.carries p hp
    apply introduces_of_carries hcarries
    intro onwardh honward
    cases honward
    exact hintroduces message hread h hwave

/-- What leaves a site weighs less than what has been handed up to it. -/
theorem sum_weight_hand_lt (hknows : s.Knows U) (hintroduces : Introduces U bytes)
    (moment : Moment) :
    ((s.hand moment bytes).2.map fun p ↦ weight U p.bytes).sum < weight U bytes := by
  rcases hand_cases s moment bytes with hnone | ⟨swap, hread, hanswer⟩ |
    ⟨message, hread, h, hwave, hspreads⟩
  · rw [hnone]
    exact one_le_weight U bytes
  · have hresponse : weight U (s.node.answer swap).bytes = 1 :=
      weight_of_carries U (s.node.carries_answer swap)
    have hrequest : 2 ≤ weight U bytes := cost_le_weight U hread
    rw [hanswer, List.map_singleton, List.sum_singleton, hresponse]
    exact hrequest
  · have hcost := cost_le_weight U hread
    rw [cost_of_wave U hwave] at hcost
    have hsender := hintroduces message hread h hwave
    refine Nat.lt_of_lt_of_le (hspreads.sum_weight_lt fun m hm ↦ ?_) hcost
    exact key_mem_of_mem_set hknows hsender (Membership.mem_members_of_mem_look hm)

end Hand

/-! ### Steps of a cluster -/

namespace Cluster

variable {n : ℕ} {U : Finset String}

/-- Whoever is known or will be introduced has one of the keys. -/
structure Within (U : Finset String) (c : Cluster n) : Prop where
  knows : ∀ i, (c.sites i).Knows U
  introduces : ∀ p ∈ c.flight, Introduces U p.bytes

/-- The weight of all that is in flight. -/
def load (U : Finset String) (c : Cluster n) : ℕ := (c.flight.map fun p ↦ weight U p.bytes).sum

theorem exists_within (c : Cluster n) : ∃ U, Within U c := by
  refine ⟨(Finset.univ.biUnion fun i ↦
      ((c.sites i).node.membership.members.map Member.key).toFinset) ∪
    (c.flight.toList.flatMap fun p ↦ (readings p.bytes).filterMap fun message ↦
      message.wave?.map fun h ↦ h.node.withAddr.key).toFinset, ⟨?_, ?_⟩⟩
  · intro i m hm
    refine Finset.mem_union_left _ (Finset.mem_biUnion.mpr ⟨i, Finset.mem_univ i, ?_⟩)
    exact List.mem_toFinset.mpr (List.mem_map_of_mem hm)
  · intro p hp message hread h hwave
    refine Finset.mem_union_right _ (List.mem_toFinset.mpr ?_)
    refine List.mem_flatMap.mpr ⟨p, Multiset.mem_toList.mpr hp, ?_⟩
    exact List.mem_filterMap.mpr ⟨message, hread, by rw [hwave]; rfl⟩

theorem Within.step {c c' : Cluster n} (hwithin : Within U c) (hstep : Step c c') :
    Within U c' := by
  cases hstep with
  | deliver i moment hp hkey =>
    have hbytes := hwithin.introduces _ hp
    constructor
    · intro j
      rw [sites_deliver]
      by_cases hj : j = i
      · rw [if_pos hj]
        exact knows_hand (hwithin.knows i) hbytes moment
      · rw [if_neg hj]
        exact hwithin.knows j
    · intro q hq
      rcases mem_flight_deliver.mp hq with hq | hq
      · exact hwithin.introduces q (Multiset.mem_of_mem_erase hq)
      · exact introduces_hand hbytes moment q.toParcel (toParcel_mem_of_mem_numbered hq)
  | lose hp =>
    exact ⟨hwithin.knows, fun q hq ↦ hwithin.introduces q (Multiset.mem_of_mem_erase hq)⟩

theorem load_erase_add {c : Cluster n} {p : InFlight} (hp : p ∈ c.flight) :
    weight U p.bytes + (c.lose p).load U = c.load U := by
  have h := Multiset.sum_map_erase (f := fun q : InFlight ↦ weight U q.bytes) hp
  unfold load lose
  exact h

theorem load_deliver (c : Cluster n) (i : Fin n) (moment : Moment) (p : InFlight) :
    (c.deliver i moment p).load U = (c.lose p).load U +
      (((c.sites i).hand moment p.bytes).2.map fun q ↦ weight U q.bytes).sum := by
  unfold load deliver lose
  rw [Multiset.map_add, Multiset.sum_add, Multiset.map_coe, Multiset.sum_coe,
    ← map_toParcel_numbered p.lineage ((c.sites i).hand moment p.bytes).2, List.map_map,
    map_toParcel_numbered]
  rfl

theorem Within.load_lt {c c' : Cluster n} (hwithin : Within U c) (hstep : Step c c') :
    c'.load U < c.load U := by
  cases hstep with
  | @deliver i moment p hp hkey =>
    have hsplit := load_erase_add (U := U) hp
    have hless := sum_weight_hand_lt (hwithin.knows i) (hwithin.introduces p hp) moment
    rw [load_deliver]
    omega
  | @lose p hp =>
    have hsplit := load_erase_add (U := U) hp
    have hpos := one_le_weight U p.bytes
    omega

/-- A run of any steps is no longer than what is in flight weighs. -/
theorem Within.length_le {c : Cluster n} (hwithin : Within U c) {run : List (Cluster n)}
    (hrun : (c :: run).IsChain Step) : run.length ≤ c.load U := by
  induction run generalizing c with
  | nil => exact Nat.zero_le _
  | cons c' run ih =>
    obtain ⟨hstep, hrest⟩ := List.isChain_cons_cons.mp hrun
    have hlength := ih (hwithin.step hstep) hrest
    have hless := hwithin.load_lt hstep
    rw [List.length_cons]
    omega

/-- While anything is in flight, something can happen. -/
theorem flight_eq_zero_of_stuck {c : Cluster n} (h : ∀ c', ¬Step c c') : c.flight = 0 := by
  apply Multiset.eq_zero_of_forall_notMem
  intro p hp
  exact h _ (.lose c hp)

end Cluster

/-! ### Chains of forwards -/

/-- The second hop handles a parcel that the first one has sent. -/
def Hop.Causes (first second : Hop) : Prop := second.parcel ∈ first.children

/-- The keys that are targeted along a chain of hops. -/
def targetedKeys (hops : List Hop) : List String := hops.flatMap fun hop ↦ hop.sent.map Parcel.key

/-- The next hop of a wave takes it in as it was sent on, or not at all. -/
theorem Hop.Causes.wave? {first second : Hop} {h : Heartbeat} (hwave : first.wave? = some h)
    (hcauses : first.Causes second) :
    second.wave? = some (onward first.site.node.settings
        (first.site.node.membership.set h.node first.moment.now).1 first.moment h) ∨
      second.sent = [] := by
  have hmem := toParcel_mem_of_mem_numbered hcauses
  obtain ⟨batch, hcarries⟩ := (Hop.sent_spreads hwave).carries _ hmem
  exact second.wave?_or_silent hcarries

/-- No key is targeted twice along a chain, and none that the chain started with. -/
theorem nodup_targetedKeys {first : Hop} {rest : List Hop} {h : Heartbeat}
    (hwave : first.wave? = some h) (hchain : (first :: rest).IsChain Hop.Causes) :
    (targetedKeys (first :: rest)).Nodup ∧
      ∀ key ∈ targetedKeys (first :: rest), h.infected.containsKey key = false := by
  induction rest generalizing first h with
  | nil =>
    have hspreads := Hop.sent_spreads hwave
    rw [targetedKeys, List.flatMap_singleton]
    exact ⟨hspreads.nodup, fun key hkey ↦ (hspreads.target_of_mem hkey).2⟩
  | cons second rest ih =>
    obtain ⟨hcauses, hrest⟩ := List.isChain_cons_cons.mp hchain
    have hspreads := Hop.sent_spreads hwave
    rw [targetedKeys, List.flatMap_cons, ← targetedKeys]
    rcases hcauses.wave? hwave with hsecond | hnone
    · obtain ⟨hnodup, hunmarked⟩ := ih hsecond hrest
      -- whatever is targeted later was not marked when the first hop sent the wave on
      have hlater : ∀ key ∈ targetedKeys (second :: rest),
          h.infected.containsKey key = false ∧ key ∉ first.sent.map Parcel.key := by
        intro key hkey
        have hfalse := hunmarked key hkey
        rw [Bool.eq_false_iff, ne_eq, hspreads.containsKey_onward, not_or] at hfalse
        exact ⟨Bool.eq_false_iff.mpr hfalse.1, hfalse.2⟩
      refine ⟨List.nodup_append.mpr ⟨hspreads.nodup, hnodup, ?_⟩, fun key hkey ↦ ?_⟩
      · rintro key hkey other hother rfl
        exact (hlater key hother).2 hkey
      · rcases List.mem_append.mp hkey with hkey | hkey
        · exact (hspreads.target_of_mem hkey).2
        · exact (hlater key hkey).1
    · -- a hop that sends nothing ends the chain
      have hlast : rest = [] := by
        cases rest with
        | nil => rfl
        | cons third rest =>
          have hmem := toParcel_mem_of_mem_numbered (List.isChain_cons_cons.mp hrest).1
          rw [hnone] at hmem
          exact absurd hmem (by simp)
      have hsecond : targetedKeys (second :: rest) = [] := by
        rw [hlast, targetedKeys, List.flatMap_singleton, hnone, List.map_nil]
      rw [hsecond, List.append_nil]
      exact ⟨hspreads.nodup, fun key hkey ↦ (hspreads.target_of_mem hkey).2⟩

/-- From any cluster, with anything in flight, only so many deliveries and losses can happen, and
when no more can happen nothing is in flight. Along any chain of forwards that starts with a
heartbeat, no key is targeted twice, and none that the heartbeat had marked at the start. -/
theorem waves_and_comparisons_die_out {n : ℕ} :
    (∀ c : Cluster n,
      (∃ bound, ∀ run : List (Cluster n),
        (c :: run).IsChain Cluster.Step → run.length ≤ bound) ∧
      ((∀ c', ¬Cluster.Step c c') ↔ c.flight = 0)) ∧
    ∀ (first : Hop) (rest : List Hop) (h : Heartbeat), first.wave? = some h →
      (first :: rest).IsChain Hop.Causes →
        (targetedKeys (first :: rest)).Nodup ∧
          ∀ key ∈ targetedKeys (first :: rest), h.infected.containsKey key = false := by
  refine ⟨fun c ↦ ⟨?_, ?_⟩, fun first rest h ↦ nodup_targetedKeys⟩
  · obtain ⟨U, hwithin⟩ := c.exists_within
    exact ⟨c.load U, fun run hrun ↦ hwithin.length_le hrun⟩
  · constructor
    · exact Cluster.flight_eq_zero_of_stuck
    · intro hempty c' hstep
      cases hstep with
      | deliver i moment hp hkey | lose hp =>
        rw [hempty] at hp
        exact absurd hp (Multiset.notMem_zero _)

end Gossip
