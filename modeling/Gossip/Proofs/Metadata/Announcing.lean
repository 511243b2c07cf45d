import Gossip.Agent
import Gossip.Proofs.Batch.Refusal
import Gossip.Proofs.Forwarding
import Gossip.Proofs.Metadata.Pinned

/-!
What a publication leaves behind. It is stored and pinned, and the node's own entry refreshed,
before anything is sent; so all of this stands, however far the broadcast that announces it gets.
The caller hears of an error exactly if the registration of a group has been refused, which cannot
happen where copies are sent one by one.
-/

set_option autoImplicit false
set_option relaxedAutoImplicit false

namespace Gossip

/-! ### What is asked for from one point on -/

section Journals

variable {ω : Type} (rules : Rules) (inner : Link ω)

/-- Behind the entries of a point in time, a journal gains only requests that have been made. -/
theorem Journal.upholds_since (A : Request → Prop) (old : List (Request × Option Error)) :
    (Journal.link rules inner).Upholds A fun w ↦
      ∃ made, w.1.entries = old ++ made ∧ ∀ e ∈ made, A e.1 := by
  rintro r w hr ⟨made, hmade, hall⟩
  refine ⟨made ++ [(r, metBy ((Journal.link rules inner).ask r w).1)], ?_, fun e he ↦ ?_⟩
  · rw [Journal.entries_ask, hmade, List.append_assoc]
  · rcases List.mem_append.mp he with he | he
    · exact hall e he
    · obtain rfl := List.mem_singleton.mp he
      exact hr

theorem Journal.registrations_eq_nil {made : List (Request × Option Error)}
    (h : ∀ r ∈ made.map Prod.fst, ∀ key targets, r ≠ .register key targets) :
    (Journal.mk made).registrations = [] := by
  refine List.eq_nil_iff_forall_not_mem.mpr fun push hpush ↦ ?_
  obtain ⟨e, he, hregister⟩ := exists_entry_of_mem_registrations hpush
  exact h e.1 (List.mem_map_of_mem he) _ _ hregister

end Journals

theorem exists_map_eq_error {α β : Type} {f : α → β} {result : Except Error α} :
    (∃ error, result.map f = .error error) ↔ ∃ error, result = .error error := by
  cases result <;> simp [Except.map]

namespace Node

section Broadcast

variable {ω : Type} (rules : Rules) (inner : Link ω) (node : Node) {w : Journal × ω}
  {made : List (Request × Option Error)}

/-- Copies that are sent one by one never end in an error; a broadcast in batches does if a
registration is refused. -/
theorem spread_error_iff (h : Heartbeat) (targets : List Member)
    (hmade : (node.spread (Journal.link rules inner) h targets w).2.2.1.entries =
      w.1.entries ++ made) :
    (∃ error, (node.spread (Journal.link rules inner) h targets w).1 = .error error) ↔
      ∃ push ∈ (Journal.mk made).registrations, push.2 ≠ none := by
  unfold spread at hmade ⊢
  cases hbatching : node.batching with
  | none =>
    simp only [hbatching] at hmade ⊢
    have hrequests := Journal.requests_sendEach rules inner
      (forwardPacket node.settings.secret h).encode targets w
    unfold Journal.requests at hrequests
    rw [hmade, List.map_append, List.append_cancel_left_eq] at hrequests
    have hnone : (Journal.mk made).registrations = [] := by
      refine Journal.registrations_eq_nil fun r hr ↦ ?_
      rw [hrequests] at hr
      obtain ⟨m, -, rfl⟩ := List.mem_map.mp hr
      exact fun key targets ↦ Request.noConfusion
    rw [hnone]
    exact ⟨fun ⟨error, h⟩ ↦ absurd h (by simp), fun ⟨push, hpush, _⟩ ↦ absurd hpush (by simp)⟩
  | some ring =>
    simp only [hbatching] at hmade ⊢
    have hgroups (group : List Member) (hgroup : group ∈ groups targets) : group ≠ [] :=
      (mem_groups hgroup).1
    obtain ⟨made', hmade', hending⟩ :=
      exists_ending node.settings.secret h ring rules inner hgroups w
    obtain rfl : made' = made := List.append_cancel_left (hmade'.symm.trans hmade)
    exact exists_map_eq_error.trans hending.error_iff

/-- What a broadcast asks for, and when it fails. -/
theorem exists_made_broadcast (moment : Moment) (h : Heartbeat) (w : Journal × ω) :
    ∃ made,
      (node.broadcast (Journal.link rules inner) moment h w).2.2.1.entries =
        w.1.entries ++ made ∧
      (∀ e ∈ made, Broadcasting node.settings node.membership moment h e.1) ∧
      ((∃ error, (node.broadcast (Journal.link rules inner) moment h w).1 = .error error) ↔
        ∃ push ∈ (Journal.mk made).registrations, push.2 ≠ none) := by
  obtain ⟨made, hmade, hall⟩ := node.broadcast_upholds
    (Journal.upholds_since rules inner (Broadcasting node.settings node.membership moment h)
      w.1.entries) moment (fun _ hr ↦ hr) ⟨[], (List.append_nil _).symm, by simp⟩
  refine ⟨made, hmade, hall, ?_⟩
  rw [broadcast_eq] at hmade ⊢
  split at hmade
  · obtain rfl : made = [] := List.append_right_eq_self.mp hmade.symm
    simp [Journal.registrations]
  · exact spread_error_iff rules inner _ _ _ hmade

/-- A version is pinned with one request, if there is a program to pin it. -/
theorem exists_made_pin (version : Int64) (w : Journal × ω) :
    ∃ made, (node.pin (Journal.link rules inner) version w).1.entries = w.1.entries ++ made ∧
      made.map Prod.fst = if node.batching.isSome then [.pin version] else [] := by
  unfold pin
  cases node.batching with
  | none => exact ⟨[], (List.append_nil _).symm, rfl⟩
  | some ring => exact ⟨_, Journal.entries_ask rules inner (.pin version) w, rfl⟩

/-- The node that has stored a payload, and is about to pin its version and to spread it. -/
def storing (moment : Moment) (data : Bytes) : Node :=
  { node.touch moment.now with metadata := .publishedAt data moment.now }

theorem publish_eq {ω : Type} (link : Link ω) (moment : Moment) (data : Bytes) (w : ω) :
    node.publish link moment data w =
      let run := (node.storing moment data).broadcast link moment
        (.announcing node.self (.publishedAt data moment.now))
        ((node.storing moment data).pin link moment.now.stamp w)
      (run.1.map fun _ ↦ .publishedAt data moment.now, run.2) :=
  rfl

/-- What publishing asks for: the pin of the new version if there is an offload program, and what
the broadcast asks for that announces it. It fails exactly if the broadcast does. -/
theorem exists_made_publish (moment : Moment) (data : Bytes) (w : Journal × ω) :
    ∃ made,
      (node.publish (Journal.link rules inner) moment data w).2.2.1.entries =
        w.1.entries ++ made ∧
      (∀ version, .pin version ∈ made.map Prod.fst ↔
        node.batching.isSome = true ∧ version = moment.now.stamp) ∧
      (∀ s, .send s ∈ made.map Prod.fst →
        Broadcasting node.settings (node.membership.touch moment.now) moment
          (.announcing node.self (.publishedAt data moment.now)) (.send s)) ∧
      ((∃ error, (node.publish (Journal.link rules inner) moment data w).1 = .error error) ↔
        ∃ push ∈ (Journal.mk made).registrations, push.2 ≠ none) := by
  let stored := node.storing moment data
  obtain ⟨pinned, hpinned, hpins⟩ := stored.exists_made_pin rules inner moment.now.stamp w
  obtain ⟨sent, hsent, hasked, herror⟩ := stored.exists_made_broadcast rules inner moment
    (.announcing node.self (.publishedAt data moment.now))
    (stored.pin (Journal.link rules inner) moment.now.stamp w)
  rw [hpinned, List.append_assoc] at hsent
  have hpin (r : Request) : r ∈ pinned.map Prod.fst ↔
      node.batching.isSome = true ∧ r = .pin moment.now.stamp := by
    rw [hpins, List.mem_ite_nil_right, List.mem_singleton]
    rfl
  have hspread {r : Request} (hr : r ∈ sent.map Prod.fst) :
      Broadcasting node.settings (node.membership.touch moment.now) moment
        (.announcing node.self (.publishedAt data moment.now)) r := by
    obtain ⟨e, he, rfl⟩ := List.mem_map.mp hr
    exact hasked e he
  have hpushes : (Journal.mk (pinned ++ sent)).registrations = (Journal.mk sent).registrations := by
    have hnone : (Journal.mk pinned).registrations = [] := by
      refine Journal.registrations_eq_nil fun r hr ↦ ?_
      rw [((hpin r).mp hr).2]
      exact fun key targets ↦ Request.noConfusion
    exact List.filterMap_append.trans (congrArg (· ++ _) hnone)
  refine ⟨pinned ++ sent, hsent, fun version ↦ ?_, fun s hs ↦ ?_, ?_⟩
  · rw [List.map_append, List.mem_append, hpin, Request.pin.injEq]
    exact or_iff_left fun hmem ↦ (hspread hmem).ne_pin version rfl
  · rw [List.map_append, List.mem_append] at hs
    refine hs.elim (fun hmem ↦ ?_) hspread
    exact absurd ((hpin _).mp hmem).2 Request.noConfusion
  · rw [hpushes, publish_eq]
    exact exists_map_eq_error.trans herror

end Broadcast

/-- Without an offload program, publishing gets through. -/
theorem publish_of_no_batching {ω : Type} (link : Link ω) {node : Node}
    (hbatching : node.batching = none) (moment : Moment) (data : Bytes) (w : ω) :
    (node.publish link moment data w).1 = .ok (.publishedAt data moment.now) := by
  have hstored : (node.storing moment data).batching = none := hbatching
  rw [publish_eq, broadcast_eq]
  dsimp only
  split
  · rfl
  · unfold spread
    simp only [hstored]
    rfl

end Node

/-! ### What others read, and what the store keeps -/

/-- An announcement reads as a wave that is on its way, from the node itself and with its mark. -/
theorem Broadcasting.decode_announcement {settings : Settings} {membership : Membership}
    {moment : Moment} {self : Member} {m : Metadata} {s : Send}
    (hs : Broadcasting settings membership moment (.announcing self m) (.send s)) :
    ∃ h batch, Packet.decode s.bytes = .ok ⟨settings.secret, .forward h batch⟩ ∧
      h.isUpdate = true ∧ h.metadata = m ∧ h.node = self ∧ h.infected.contains self = true := by
  cases hs with
  | packet target batch htarget =>
    refine ⟨_, batch, Packet.decode_encode _, rfl, rfl, rfl, ?_⟩
    refine (containsKey_selectTargets _ _ _ _).mpr (Or.inl ?_)
    exact (Infected.containsKey_singleton self _).mpr rfl

/-- A node that has just been refreshed is not too old. -/
theorem Membership.get?_look_touch {m : Membership} (hfits : m.lifetime.seconds < 2 ^ 63)
    (moment : Moment) :
    ((m.touch moment.now).look moment).1.seen.get? m.self = some moment.now.seconds := by
  refine Table.get?_eq_some_iff.mpr (List.mem_filter.mpr ⟨?_, ?_⟩)
  · exact (m.seen.mem_entries_insert).mpr (Or.inl ⟨rfl, rfl⟩)
  · have hfits' : (m.touch moment.now).lifetime.seconds < 2 ^ 63 := hfits
    unfold isLive
    rw [decide_eq_true_iff, ttl_eq hfits', Int.sub_self]
    exact Int.natCast_nonneg _

/-- The version of a reading is its nanoseconds, if they fit a signed number of 64 bits. -/
theorem Instant.toInt_stamp {now : Instant}
    (h : Int64.minValue.toInt ≤ now.nanos ∧ now.nanos ≤ Int64.maxValue.toInt) :
    now.stamp.toInt = now.nanos := by
  rw [stamp, if_pos h]
  exact Int64.toInt_ofInt_of_le h.1 (Int.lt_add_one_of_le h.2)

/-- Assumes: the node has been built, with a lifetime below 2^63 seconds. Whatever metadata and
members it holds and wherever its ring stands, with any tasks or none, whatever the payload is and
the clock reads, next to any link and under any rules that refuse sends, pins and registrations:
publishing returns an error exactly if the registration of a group meets one, and never where there
is no offload program. Whether it gets through or not, what is stored behind it is the payload with
its length and with the nanoseconds of the clock as version, or the greatest version if they do not
fit; this version and no other has been pinned if there is an offload program; the node's own entry
is of now; and of the tasks nothing has changed. Every packet that has been attempted reads as a
wave on its way that brings what is stored, from the node itself and with its own mark. If
publishing gets through, it returns what is stored. -/
theorem Agent.publication_stands {self : Member} {settings : Settings} {offload : Bool}
    {built : Instant} {start : Node} (hbuild : Node.build self settings offload built = .ok start)
    (hfits : start.settings.lifetime.seconds < 2 ^ 63) (agent : Agent) (metadata : Metadata)
    (seen : Table Member ℤ) (ring : KeyRing) (moment : Moment) (data : Bytes) {ω : Type}
    (rules : Rules) (inner : Link ω) (journal : Journal) (w : ω) :
    let node := { start with
      metadata
      membership := { start.membership with seen }
      batching := start.batching.map fun _ ↦ ring }
    let before := { agent with node }
    let (result, after, later, _) :=
      before.publish (Journal.link rules inner) moment data (journal, w)
    let stored := after.node.metadata
    let fits := Int64.minValue.toInt ≤ moment.now.nanos ∧ moment.now.nanos ≤ Int64.maxValue.toInt
    after = { before with node := after.node } ∧
      stored.data = data ∧ stored.size = .ofNat data.length ∧
      (fits → stored.version.toInt = moment.now.nanos) ∧
      (¬fits → stored.version = Int64.maxValue) ∧
      after.node.membership.seen.get? start.self = some moment.now.seconds ∧
      (∀ m, result = .ok m → m = stored) ∧
      (start.settings.mode = .udp ∨ start.settings.mode = .tcp → result = .ok stored) ∧
      ∃ made, later.entries = journal.entries ++ made ∧
        ((∃ error, result = .error error) ↔
          ∃ push ∈ (Journal.mk made).registrations, push.2 ≠ none) ∧
        (∀ version, .pin version ∈ made.map Prod.fst ↔
          start.settings.mode.isOffload = true ∧ version = stored.version) ∧
        ∀ s, .send s ∈ made.map Prod.fst → ∃ h batch,
          Packet.decode s.bytes = .ok ⟨start.settings.secret, .forward h batch⟩ ∧
            h.isUpdate = true ∧ h.metadata = stored ∧ h.node = start.self ∧
            h.infected.contains start.self = true := by
  intro node before
  have hmode : node.batching.isSome = start.settings.mode.isOffload := by
    obtain ⟨hstays, hring⟩ := Node.batching_eq_of_build hbuild
    change (start.batching.map fun _ ↦ ring).isSome = _
    rw [hring, hstays]
    cases settings.mode.isOffload <;> rfl
  have hlifetime : node.membership.lifetime = start.settings.lifetime :=
    congrArg (fun node : Node ↦ node.membership.lifetime) (Node.eq_of_build hbuild).2
  have hstored := node.metadata_publish (Journal.link rules inner) moment data (journal, w)
  have hmembership :
      (node.publish (Journal.link rules inner) moment data (journal, w)).2.1.membership =
        ((node.membership.touch moment.now).look moment).1 :=
    (Node.sameStores_broadcast (Journal.link rules inner) _ moment _ _).membership
  obtain ⟨made, hmade, hpins, hsends, herror⟩ :=
    node.exists_made_publish rules inner moment data (journal, w)
  unfold Agent.publish
  dsimp only
  rw [hstored, hmembership]
  refine ⟨rfl, rfl, rfl, fun hfits ↦ Instant.toInt_stamp hfits, fun hfits ↦ if_neg hfits, ?_,
    fun m hm ↦ ?_, fun hmode' ↦ ?_, made, hmade, herror, fun version ↦ ?_, fun s hs ↦ ?_⟩
  · exact Membership.get?_look_touch (by rw [hlifetime]; exact hfits) moment
  · exact (node.metadata_publish_of_eq_ok (Journal.link rules inner) moment hm).symm.trans hstored
  · refine Node.publish_of_no_batching _ ?_ moment data _
    rw [← Option.not_isSome_iff_eq_none, hmode]
    rcases hmode' with h | h <;> rw [h] <;> decide
  · rw [hpins, hmode]
    rfl
  · exact (hsends s hs).decode_announcement

/-- A node that broadcasts in batches, as it is built. -/
def batcher : Node where
  settings := { mode := .tc, buffer := 90, lifetime := .ofSeconds 32 }
  membership :=
    .start (inSubnet 1) (.ofSeconds 32) ⟨255, 255, 255, 0⟩ "" (.ofParts 1700000000 0)
  batching := some .fresh

/-- It knows its peers and publishes to them, next to a program in which no batch can be
registered. -/
def refusedPublication : Except Error Metadata × Agent × Journal × Offload :=
  Agent.publish (Journal.link { reject := Node.mapFull } Offload.link)
    (.plain (.ofParts 1700000010 0))
    { node := { batcher with membership := { batcher.membership with seen := acquaintances } } }
    [7] ({}, {})

/-- The error reaches the caller, and all that is stored and pinned stands. -/
theorem Agent.publication_stands_refused :
    Node.build (inSubnet 1) Node.inBatches true (.ofParts 1700000000 0) = .ok batcher ∧
      batcher.settings.lifetime.seconds < 2 ^ 63 ∧
      let after := refusedPublication.2.1
      let later := refusedPublication.2.2.1
      refusedPublication.1 = .error (.batchRefused 101 "map full") ∧
        after.node.metadata.data = [7] ∧ after.node.metadata.size = 1 ∧
        after.node.metadata.version.toInt = 1700000010000000000 ∧
        after.node.membership.seen.get? (inSubnet 1) = some 1700000010 ∧
        (∃ push ∈ later.registrations, push.2 ≠ none) ∧
        .pin after.node.metadata.version ∈ later.requests := by
  have hbuild : Node.build (inSubnet 1) Node.inBatches true (.ofParts 1700000000 0) =
      .ok batcher := rfl
  have hresult : refusedPublication.1 = .error (.batchRefused 101 "map full") := by
    decide +kernel
  have hfits : batcher.settings.lifetime.seconds < 2 ^ 63 := by decide
  have hstands := Agent.publication_stands hbuild hfits { node := batcher } {} acquaintances
    .fresh (.plain (.ofParts 1700000010 0)) [7] { reject := Node.mapFull } Offload.link {} {}
  dsimp only at hstands
  generalize hrun : Agent.publish (Journal.link { reject := Node.mapFull } Offload.link) _ _ _ _ =
    run at hstands
  obtain rfl : refusedPublication = run := hrun
  obtain ⟨-, hdata, hsize, hversion, -, hself, -, -, made, hmade, herror, hpins, -⟩ := hstands
  have hlater : refusedPublication.2.2.1 = ⟨made⟩ := congrArg Journal.mk hmade
  dsimp only
  refine ⟨hbuild, hfits, hresult, hdata, hsize, hversion (by decide), hself, ?_, ?_⟩
  · rw [hlater]
    exact herror.mp ⟨_, hresult⟩
  · rw [hlater]
    exact (hpins _).mpr ⟨rfl, rfl⟩

end Gossip
