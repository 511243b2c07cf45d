import Gossip.Proofs.Requests

/-!
Broadcasts that end early. Group by group, a broadcast registers the group and then sends its
packet, which may fail without any consequence. The first registration that is refused is the last
thing a broadcast asks for: the groups before it have gone out, its own packet and those of the
groups behind it have not, and its error is what the caller gets.
-/

set_option autoImplicit false
set_option relaxedAutoImplicit false

namespace Gossip

/-! ### What a journal gains -/

/-- The error that a request has met, if it has met one. -/
def metBy : Except Error Unit → Option Error
  | .ok () => none
  | .error error => some error

namespace Journal

variable {ω : Type} (rules : Rules) (inner : Link ω)

/-- Every request adds one entry, with the error that its caller gets. -/
theorem entries_ask (r : Request) (w : Journal × ω) :
    ((Journal.link rules inner).ask r w).2.1.entries =
      w.1.entries ++ [(r, metBy ((Journal.link rules inner).ask r w).1)] := by
  have hnote (result : Except Error Unit) :
      (w.1.note r result).entries = w.1.entries ++ [(r, metBy result)] := by
    cases result <;> rfl
  have hrecord (action : Action ω) : (record rules r action w).2.1.entries =
      w.1.entries ++ [(r, metBy (record rules r action w).1)] := by
    unfold record
    split <;> exact hnote _
  cases r <;> exact hrecord _

end Journal

/-! ### One group after the other -/

/-- What is asked for to send a group under a key: its registration, and then the packet of the
batch, for its first member. -/
def groupRequests (secret : String) (h : Heartbeat) (key : BatchKey) (group : List Member) :
    List Request :=
  .register key (group.map Member.target) :: group.head?.toList.map fun first ↦
    .send ⟨first.addr, first.port, (batchPacket secret h key).encode⟩

/-- What is asked for to send groups one after the other, each under the next key. -/
def groupsRequests (secret : String) (h : Heartbeat) (pieces : List (List Member))
    (ring : KeyRing) : List Request :=
  (pieces.mapIdx fun i group ↦ groupRequests secret h (ring.steps (i + 1)).key group).flatten

/-- The registrations of groups one after the other, none of which has met an error. -/
def groupsRegistered (pieces : List (List Member)) (ring : KeyRing) :
    List ((BatchKey × List Target) × Option Error) :=
  pieces.mapIdx fun i group ↦ (((ring.steps (i + 1)).key, group.map Member.target), none)

/-- How a broadcast of some groups ends, and what it has asked for by then: all groups go out, or
those before the first one whose registration is refused. -/
inductive Ending (secret : String) (h : Heartbeat) (pieces : List (List Member)) (ring : KeyRing)
    (made : List (Request × Option Error)) : Except Error BatchReport → Prop
  | through (hmade : made.map Prod.fst = groupsRequests secret h pieces ring)
    (hpushes : (Journal.mk made).registrations = groupsRegistered pieces ring) :
    Ending secret h pieces ring made (.ok ⟨pieces.length, pieces.flatten.length⟩)
  | refused (j : ℕ) (group : List Member) (error : Error) (hgroup : pieces[j]? = some group)
    (hmade : made.map Prod.fst = groupsRequests secret h (pieces.take j) ring ++
      [.register (ring.steps (j + 1)).key (group.map Member.target)])
    (hpushes : (Journal.mk made).registrations = groupsRegistered (pieces.take j) ring ++
      [(((ring.steps (j + 1)).key, group.map Member.target), some error)]) :
    Ending secret h pieces ring made (.error error)

section Groups

variable {secret : String} {h : Heartbeat} {pieces : List (List Member)} {ring : KeyRing}

theorem groupsRequests_cons (group : List Member) :
    groupsRequests secret h (group :: pieces) ring =
      groupRequests secret h ring.advance.key group ++
        groupsRequests secret h pieces ring.advance := by
  unfold groupsRequests
  rw [List.mapIdx_cons, List.flatten_cons]
  rfl

theorem groupsRegistered_cons (group : List Member) :
    groupsRegistered (group :: pieces) ring =
      ((ring.advance.key, group.map Member.target), none) ::
        groupsRegistered pieces ring.advance := by
  unfold groupsRegistered
  rw [List.mapIdx_cons]
  rfl

/-- The first group has been registered, and its packet attempted. -/
theorem Ending.cons {made : List (Request × Option Error)} {result : Except Error BatchReport}
    (hending : Ending secret h pieces ring.advance made result) (first : Member)
    (others : List Member) (met : Option Error) :
    Ending secret h ((first :: others) :: pieces) ring
      ((.register ring.advance.key ((first :: others).map Member.target), none) ::
        (.send ⟨first.addr, first.port, (batchPacket secret h ring.advance.key).encode⟩, met) ::
          made)
      (result.map fun report ↦
        ⟨report.batches + 1, report.targets + (first :: others).length⟩) := by
  have hrequests (more : List Request) (hmore : made.map Prod.fst = more) :
      groupRequests secret h ring.advance.key (first :: others) ++ more =
        .register ring.advance.key ((first :: others).map Member.target) ::
          .send ⟨first.addr, first.port, (batchPacket secret h ring.advance.key).encode⟩ ::
            made.map Prod.fst :=
    hmore ▸ rfl
  cases hending with
  | through hmade hpushes =>
    have hreport : (⟨pieces.length + 1, pieces.flatten.length + (first :: others).length⟩ :
        BatchReport) = ⟨((first :: others) :: pieces).length,
          ((first :: others) :: pieces).flatten.length⟩ := by
      rw [List.flatten_cons, List.length_append, Nat.add_comm (first :: others).length]
      rfl
    rw [Except.map, hreport]
    refine .through ?_ ?_
    · rw [groupsRequests_cons, hrequests _ hmade]
      rfl
    · rw [groupsRegistered_cons, ← hpushes]
      rfl
  | refused j group error hgroup hmade hpushes =>
    refine .refused (j + 1) group error hgroup ?_ ?_
    · rw [List.take_succ_cons, groupsRequests_cons, List.append_assoc]
      exact (hrequests _ hmade).symm
    · rw [List.take_succ_cons, groupsRegistered_cons, List.cons_append]
      exact congrArg (List.cons _) hpushes

variable (secret h ring) in
/-- A broadcast of groups, none of which is empty. -/
theorem exists_ending {ω : Type} (rules : Rules) (inner : Link ω)
    (hpieces : ∀ group ∈ pieces, group ≠ []) (w : Journal × ω) :
    ∃ made,
      (dispatchGroups (Journal.link rules inner) secret h pieces ring w).2.2.1.entries =
        w.1.entries ++ made ∧
      Ending secret h pieces ring made
        (dispatchGroups (Journal.link rules inner) secret h pieces ring w).1 := by
  induction pieces generalizing ring w with
  | nil => exact ⟨[], (List.append_nil _).symm, .through rfl rfl⟩
  | cons group rest ih =>
    obtain ⟨hgroup, hrest⟩ := List.forall_mem_cons.mp hpieces
    obtain ⟨first, others, rfl⟩ := List.exists_cons_of_ne_nil hgroup
    have hregistered := Journal.entries_ask rules inner
      (.register ring.advance.key ((first :: others).map Member.target)) w
    unfold dispatchGroups
    dsimp only [Link.ask] at hregistered ⊢
    generalize (Journal.link rules inner).register ring.advance.key
      ((first :: others).map Member.target) w = registered at hregistered ⊢
    obtain ⟨result, w₁⟩ := registered
    cases result with
    | error error => exact ⟨_, hregistered, .refused 0 (first :: others) error rfl rfl rfl⟩
    | ok u =>
      cases u
      -- whatever the packet meets, the broadcast goes on
      have hsent : ∃ met, (sendBatch (Journal.link rules inner) secret h ring.advance.key
          (first :: others) w₁).1.entries = w₁.1.entries ++
            [(.send ⟨first.addr, first.port, (batchPacket secret h ring.advance.key).encode⟩,
              met)] :=
        ⟨_, Journal.entries_ask rules inner
          (.send ⟨first.addr, first.port, (batchPacket secret h ring.advance.key).encode⟩) w₁⟩
      obtain ⟨met, hsent⟩ := hsent
      obtain ⟨made, hmade, hending⟩ := ih ring.advance hrest
        (sendBatch (Journal.link rules inner) secret h ring.advance.key (first :: others) w₁)
      refine ⟨_, ?_, hending.cons first others met⟩
      rw [hsent, hregistered, List.append_assoc, List.append_assoc] at hmade
      exact hmade

theorem bind_snd_groupsRegistered (i : ℕ) :
    (groupsRegistered pieces ring)[i]?.bind Prod.snd = none := by
  unfold groupsRegistered
  rw [List.getElem?_mapIdx]
  cases pieces[i]? <;> rfl

namespace Ending

variable {made : List (Request × Option Error)} {result : Except Error BatchReport}
  (hending : Ending secret h pieces ring made result)

include hending

/-- The first registration that is refused ends the broadcast. -/
theorem of_refused {j : ℕ} {error : Error}
    (hrefused : (Journal.mk made).registrations[j]?.bind Prod.snd = some error)
    (hfirst : ∀ i < j, (Journal.mk made).registrations[i]?.bind Prod.snd = none) :
    result = .error error ∧ ∃ group, pieces[j]? = some group ∧
      made.map Prod.fst = groupsRequests secret h (pieces.take j) ring ++
        [.register (ring.steps (j + 1)).key (group.map Member.target)] := by
  cases hending with
  | through _ hpushes =>
    rw [hpushes, bind_snd_groupsRegistered] at hrefused
    exact absurd hrefused (by simp)
  | refused k group other hgroup hmade hpushes =>
    have hlength : (groupsRegistered (pieces.take k) ring).length = k := by
      have hlt := (List.getElem?_eq_some_iff.mp hgroup).1
      rw [groupsRegistered, List.length_mapIdx, List.length_take]
      omega
    have hlast : (Journal.mk made).registrations[k]?.bind Prod.snd = some other := by
      rw [hpushes, List.getElem?_append_right (by omega), hlength, Nat.sub_self]
      rfl
    rcases Nat.lt_trichotomy j k with hlt | rfl | hlt
    · rw [hpushes, List.getElem?_append_left (by omega), bind_snd_groupsRegistered] at hrefused
      exact absurd hrefused (by simp)
    · obtain rfl := Option.some.inj (hlast.symm.trans hrefused)
      exact ⟨rfl, group, hgroup, hmade⟩
    · rw [hfirst k hlt] at hlast
      exact absurd hlast (by simp)

/-- Without a refusal all groups go out. -/
theorem of_registered (hpushes : ∀ push ∈ (Journal.mk made).registrations, push.2 = none) :
    result = .ok ⟨pieces.length, pieces.flatten.length⟩ ∧
      made.map Prod.fst = groupsRequests secret h pieces ring ∧
      (Journal.mk made).registrations = groupsRegistered pieces ring := by
  cases hending with
  | through hmade hregistered => exact ⟨rfl, hmade, hregistered⟩
  | refused j group error hgroup hmade hregistered =>
    rw [hregistered] at hpushes
    exact absurd (hpushes _ (List.mem_append_right _ List.mem_cons_self)) (by simp)

/-- The caller gets an error exactly if a registration has been refused. -/
theorem error_iff : (∃ error, result = .error error) ↔
    ∃ push ∈ (Journal.mk made).registrations, push.2 ≠ none := by
  cases hending with
  | through _ hpushes =>
    refine ⟨fun ⟨error, h⟩ ↦ absurd h (by simp), fun ⟨push, hpush, hmet⟩ ↦ absurd ?_ hmet⟩
    rw [hpushes, groupsRegistered, List.mem_mapIdx] at hpush
    obtain ⟨i, hi, rfl⟩ := hpush
    rfl
  | refused j group error hgroup hmade hpushes =>
    refine ⟨fun _ ↦ ?_, fun _ ↦ ⟨error, rfl⟩⟩
    rw [hpushes]
    exact ⟨_, List.mem_append_right _ List.mem_cons_self, by simp⟩

end Ending

end Groups

/-! ### A whole broadcast -/

theorem length_groups {α : Type} (targets : List α) :
    (groups targets).length = (targets.length + 24) / 25 := by
  rw [groups, List.length_map, List.length_range]
  rfl

theorem getElem?_groups {α : Type} {targets group : List α} {i : ℕ}
    (h : (groups targets)[i]? = some group) : group = (targets.drop (25 * i)).take 25 := by
  rw [groups, List.getElem?_map] at h
  obtain ⟨k, hk, rfl⟩ := Option.map_eq_some_iff.mp h
  obtain ⟨_, hget⟩ := List.getElem?_eq_some_iff.mp hk
  rw [List.getElem_range] at hget
  rw [hget]
  rfl

/-- A broadcast to any list of targets in batches, next to any link, under any rules that refuse
sends and registrations, by a batcher whose ring stands anywhere. The groups are the targets cut
into runs of twenty-five, and what is asked for is listed as it was made. If the registration of a
number is the first to be refused, its error is what the broadcast returns. The groups before it
have each been registered, and one packet has been attempted for each right behind its registration,
to its first member and under its key. For its own group there has been no packet, and for the
groups behind it nothing at all. If no registration is refused, every group has been registered and
a packet attempted for it, whatever became of the packets; the report counts groups and targets, and
the registered groups together are the targets in their order. The key stands in the packet both
where a program without a reader looks for it and where a node reads it. -/
theorem dispatch_ends_at_refusal {ω : Type} (rules : Rules) (inner : Link ω) (secret : String)
    (h : Heartbeat) (targets : List Member) (ring : KeyRing) (journal : Journal) (w : ω) :
    let (result, _, after, _) :=
      dispatch (Journal.link rules inner) secret h targets ring (journal, w)
    let pieces := groups targets
    let key (i : ℕ) := (ring.steps (i + 1)).key
    (∀ (i : ℕ) group, pieces[i]? = some group →
      group = (targets.drop (25 * i)).take 25 ∧ group ≠ []) ∧
      (∀ i, Packet.decode (batchPacket secret h (key i)).encode =
          .ok ⟨secret, .forward h (some (key i))⟩ ∧
        peekBatch (batchPacket secret h (key i)).encode = some (key i)) ∧
      ∃ made, after.entries = journal.entries ++ made ∧
        let pushes := (Journal.mk made).registrations
        (∀ j error, pushes[j]?.bind Prod.snd = some error →
          (∀ i < j, pushes[i]?.bind Prod.snd = none) →
            result = .error error ∧ ∃ group, pieces[j]? = some group ∧
              made.map Prod.fst = groupsRequests secret h (pieces.take j) ring ++
                [.register (key j) (group.map Member.target)]) ∧
        ((∀ push ∈ pushes, push.2 = none) →
          result = .ok ⟨(targets.length + 24) / 25, targets.length⟩ ∧
            made.map Prod.fst = groupsRequests secret h pieces ring ∧
            (pushes.map fun push ↦ push.1.2).flatten = targets.map Member.target) := by
  have hgroup (group : List Member) (hmem : group ∈ groups targets) : group ≠ [] :=
    (mem_groups hmem).1
  obtain ⟨made, hmade, hending⟩ := exists_ending secret h ring rules inner hgroup (journal, w)
  refine ⟨fun i group hget ↦ ⟨getElem?_groups hget, hgroup group (List.mem_of_getElem? hget)⟩,
    fun i ↦ ⟨Packet.decode_encode _, peekBatch_batchPacket secret h _⟩, made, hmade,
    fun j error hrefused hfirst ↦ hending.of_refused hrefused hfirst, fun hpushes ↦ ?_⟩
  obtain ⟨hresult, hrequests, hregistered⟩ := hending.of_registered hpushes
  rw [length_groups, flatten_groups] at hresult
  refine ⟨hresult, hrequests, ?_⟩
  have hlists : (groupsRegistered (groups targets) ring).map (fun push ↦ push.1.2) =
      (groups targets).map (List.map Member.target) := by
    unfold groupsRegistered
    apply map_mapIdx
    intro i group
    rfl
  rw [hregistered, hlists, ← List.map_flatten, flatten_groups]

end Gossip
