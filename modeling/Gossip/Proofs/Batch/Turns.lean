import Gossip.Proofs.Batch
import Gossip.Proofs.Offload

/-!
Broadcasts one after the other. Every group takes the next key of the ring, and the ring comes round
after nine hundred groups: each key is that of the last group whose turn it was, and the program
holds the targets of as many groups as there have been, up to nine hundred. No broadcast is ever
refused.
-/

set_option autoImplicit false
set_option relaxedAutoImplicit false

namespace Gossip

/-! ### The keys in turn -/

namespace BatchKey

/-- The key of the group of a number; groups are counted from one. -/
def ofTurn (n : Nat) : BatchKey where
  value := .ofNat (100 + n % 900)
  ne_zero h := by
    have hvalue := congrArg UInt16.toNat h
    rw [UInt16.toNat_ofNat', UInt16.toNat_zero] at hvalue
    omega

theorem toNat_ofTurn (n : Nat) : (ofTurn n).value.toNat = 100 + n % 900 := by
  rw [ofTurn, UInt16.toNat_ofNat']
  omega

theorem ext_toNat {key other : BatchKey} (h : key.value.toNat = other.value.toNat) :
    key = other := by
  cases key
  cases other
  exact (mk.injEq _ _ _ _).mpr (UInt16.toNat_inj.mp h)

theorem ofTurn_eq_iff {m n : Nat} : ofTurn m = ofTurn n ↔ m % 900 = n % 900 := by
  constructor
  · intro h
    have hvalue := congrArg (·.value.toNat) h
    simp only [toNat_ofTurn] at hvalue
    omega
  · intro h
    apply ext_toNat
    rw [toNat_ofTurn, toNat_ofTurn, h]

/-- Within nine hundred groups in a row no key comes twice. -/
theorem ofTurn_ne {m n : Nat} (hlt : m < n) (hlap : n < m + 900) : ofTurn m ≠ ofTurn n := by
  rw [Ne, ofTurn_eq_iff]
  omega

end BatchKey

namespace KeyRing

variable {ring : KeyRing} {n : Nat}

theorem last_advance (h : ring.last = 100 + n % 900) :
    ring.advance.last = 100 + (n + 1) % 900 := by
  unfold advance
  split
  · dsimp only
    omega
  · have := ring.most
    have hfresh : fresh.last = 100 := rfl
    omega

theorem key_eq_ofTurn (h : ring.last = 100 + n % 900) : ring.key = .ofTurn n :=
  BatchKey.ext_toNat (by rw [toNat_key, BatchKey.toNat_ofTurn, h])

end KeyRing

/-! ### Groups that have gone out -/

/-- The registration of each group, under the key of its turn. -/
def registeredInTurn (past : List (List Member)) :
    List ((BatchKey × List Target) × Option Error) :=
  past.mapIdx fun i group ↦ ((.ofTurn (i + 1), group.map Member.target), none)

/-- A group that has gone out under a key, behind which none has that uses the key again. -/
structure LastUse (past : List (List Member)) (key : BatchKey) (i : Nat) (group : List Member) :
    Prop where
  sent : past[i]? = some group
  turn : .ofTurn (i + 1) = key
  last : ∀ later, i < later → later < past.length → .ofTurn (later + 1) ≠ key

namespace LastUse

variable {past : List (List Member)} {key : BatchKey} {i : Nat} {group next : List Member}

theorem lt (h : LastUse past key i group) : i < past.length :=
  (List.getElem?_eq_some_iff.mp h.sent).1

/-- The next group takes its key from the one that had it. -/
theorem concat_iff : LastUse (past ++ [next]) key i group ↔
    key = .ofTurn (past.length + 1) ∧ i = past.length ∧ group = next ∨
      key ≠ .ofTurn (past.length + 1) ∧ LastUse past key i group := by
  have hlength : (past ++ [next]).length = past.length + 1 := List.length_append
  constructor
  · intro h
    rcases Nat.lt_succ_iff_lt_or_eq.mp (hlength ▸ h.lt) with hlt | rfl
    · refine Or.inr ⟨fun hkey ↦ h.last past.length hlt (by omega) hkey.symm, ?_, h.turn,
        fun later hi hlater ↦ h.last later hi (by omega)⟩
      rw [← h.sent, List.getElem?_append_left hlt]
    · refine Or.inl ⟨h.turn.symm, rfl, ?_⟩
      have hgroup := h.sent
      rw [List.getElem?_concat_length] at hgroup
      exact (Option.some.inj hgroup).symm
  · rintro (⟨rfl, rfl, rfl⟩ | ⟨hkey, h⟩)
    · exact ⟨List.getElem?_concat_length, rfl, fun later hi hlater ↦ by omega⟩
    · refine ⟨by rw [List.getElem?_append_left h.lt, h.sent], h.turn, fun later hi hlater ↦ ?_⟩
      rcases Nat.lt_succ_iff_lt_or_eq.mp (hlength ▸ hlater) with hlt | rfl
      · exact h.last later hi hlt
      · exact hkey.symm

/-- A key is used again nine hundred groups later. -/
theorem exists_iff_next : (∃ i group, LastUse past (.ofTurn (past.length + 1)) i group) ↔
    900 ≤ past.length := by
  constructor
  · rintro ⟨i, group, h⟩
    have hkey := BatchKey.ofTurn_eq_iff.mp h.turn
    have hlt := h.lt
    omega
  · intro hlap
    refine ⟨past.length - 900, _, List.getElem?_eq_getElem (by omega), ?_,
      fun later hi hlater ↦ BatchKey.ofTurn_ne (by omega) (by omega)⟩
    rw [BatchKey.ofTurn_eq_iff]
    omega

end LastUse

/-- The tables hold the last use of every key. -/
structure Offload.HoldsLast (program : Offload) (past : List (List Member)) : Prop where
  found : ∀ key targets, program.batch? key = some targets ↔
    ∃ i group, LastUse past key i group ∧ group.map Member.target = targets
  size : program.batches.size = min past.length 900

theorem Offload.holdsLast_fresh : HoldsLast {} [] where
  found key targets := by
    refine ⟨fun h ↦ absurd h (by simp [batch?, Table.get?, Table.empty]), ?_⟩
    rintro ⟨i, group, h, -⟩
    exact absurd h.lt i.not_lt_zero
  size := rfl

/-- Registering the next group under its key. -/
theorem Offload.HoldsLast.register {program : Offload} {past : List (List Member)}
    (h : program.HoldsLast past) (group : List Member) :
    HoldsLast { program with
      batches := program.batches.insert (.ofTurn (past.length + 1)) (group.map Member.target) }
      (past ++ [group]) where
  found key targets := by
    simp only [LastUse.concat_iff]
    by_cases hkey : key = .ofTurn (past.length + 1)
    · subst hkey
      simp [batch?, Table.get?_insert]
    · have hother := h.found key targets
      unfold batch? at hother ⊢
      rw [Table.get?_insert_of_ne _ _ hkey, hother]
      simp [hkey]
  size := by
    have hpresent : .ofTurn (past.length + 1) ∈ program.batches.keys ↔ 900 ≤ past.length := by
      rw [Table.mem_keys_iff, ← LastUse.exists_iff_next]
      constructor
      · rintro ⟨targets, htargets⟩
        obtain ⟨i, group, huse, -⟩ := (h.found _ targets).mp htargets
        exact ⟨i, group, huse⟩
      · rintro ⟨i, group, huse⟩
        exact ⟨_, (h.found _ _).mpr ⟨i, group, huse, rfl⟩⟩
    have hsize := h.size
    rw [Table.size_insert, List.length_append, List.length_singleton]
    by_cases hlap : 900 ≤ past.length
    · rw [if_pos (hpresent.mpr hlap)]
      omega
    · rw [if_neg (mt hpresent.mp hlap)]
      omega

/-! ### One group after the other -/

section Batcher

variable {τ : Type} (transport : Offload → Send → Action τ)

/-- The link of a batcher whose requests are written down: a fresh program next to a transport. -/
def Offload.witnessed : Link (Journal × τ × Offload) :=
  Journal.link {} (Offload.beside transport)

/-- Where a batcher stands when some groups have gone out. -/
structure Turned (past : List (List Member)) (ring : KeyRing) (w : Journal × τ × Offload) :
    Prop where
  ring : ring.last = 100 + past.length % 900
  registrations : w.1.registrations = registeredInTurn past
  tables : w.2.2.HoldsLast past

variable {past : List (List Member)} {ring : KeyRing} {w : Journal × τ × Offload}

theorem turned_fresh (state : τ) : Turned [] .fresh (({}, state, {}) : Journal × τ × Offload) :=
  ⟨rfl, rfl, Offload.holdsLast_fresh⟩

theorem Journal.registrations_note_register (j : Journal) (key : BatchKey)
    (targets : List Target) : (j.note (.register key targets) (.ok ())).registrations =
      j.registrations ++ [((key, targets), none)] := by
  simp [note, registrations]

theorem Journal.registrations_note_send (j : Journal) (s : Send) (result : Except Error Unit) :
    (j.note (.send s) result).registrations = j.registrations := by
  cases result <;> simp [note, registrations]

namespace Turned

/-- The next group is registered, in its turn. -/
theorem register (h : Turned past ring w) {group : List Member}
    (hfits : group.length ≤ Offload.capacity) :
    let registered :=
      (Offload.witnessed transport).register ring.advance.key (group.map Member.target) w
    registered.1 = .ok () ∧ Turned (past ++ [group]) ring.advance registered.2 := by
  obtain ⟨journal, state, program⟩ := w
  have hlength : (past ++ [group]).length = past.length + 1 := List.length_append
  have hlast := KeyRing.last_advance h.ring
  have hprogram : program.register ring.advance.key (group.map Member.target) =
      .ok { program with
        batches := program.batches.insert ring.advance.key (group.map Member.target) } :=
    if_neg (by rw [List.length_map]; omega)
  have hregister : (Offload.witnessed transport).register ring.advance.key
      (group.map Member.target) (journal, state, program) =
        (.ok (), journal.note (.register ring.advance.key (group.map Member.target)) (.ok ()),
          state, { program with
            batches := program.batches.insert ring.advance.key (group.map Member.target) }) := by
    unfold Offload.witnessed Offload.beside Journal.link Journal.record Journal.verdict
    dsimp only
    rw [hprogram]
  rw [hregister, KeyRing.key_eq_ofTurn hlast]
  refine ⟨rfl, by rw [hlast, hlength], ?_, h.tables.register group⟩
  have hregistrations : journal.registrations = registeredInTurn past := h.registrations
  rw [Journal.registrations_note_register, hregistrations, registeredInTurn, registeredInTurn,
    List.mapIdx_concat]

/-- Whether the packet of a batch goes out makes no difference to the batcher. -/
theorem sendBatch (h : Turned past ring w) (secret : String) (heartbeat : Heartbeat)
    (key : BatchKey) (group : List Member) :
    Turned past ring
      (Gossip.sendBatch (Offload.witnessed transport) secret heartbeat key group w) := by
  cases group with
  | nil => exact h
  | cons first rest =>
    exact ⟨h.ring, (Journal.registrations_note_send _ _ _).trans h.registrations, h.tables⟩

theorem dispatchGroups (h : Turned past ring w) (secret : String) (heartbeat : Heartbeat)
    {pieces : List (List Member)}
    (hpieces : ∀ group ∈ pieces, group.length ≤ Offload.capacity) :
    let (result, ring, w) :=
      Gossip.dispatchGroups (Offload.witnessed transport) secret heartbeat pieces ring w
    result = .ok ⟨pieces.length, pieces.flatten.length⟩ ∧ Turned (past ++ pieces) ring w := by
  induction pieces generalizing past ring w with
  | nil => exact ⟨rfl, by rwa [List.append_nil]⟩
  | cons group rest ih =>
    obtain ⟨hresult, hregistered⟩ := h.register transport (hpieces group List.mem_cons_self)
    unfold Gossip.dispatchGroups
    dsimp only
    generalize (Offload.witnessed transport).register ring.advance.key
      (group.map Member.target) w = registered at hresult hregistered
    obtain ⟨result, w'⟩ := registered
    obtain rfl : result = .ok () := hresult
    have hsent := hregistered.sendBatch transport secret heartbeat ring.advance.key group
    obtain ⟨hrest, hturned⟩ := ih hsent fun piece hpiece ↦
      hpieces piece (List.mem_cons_of_mem group hpiece)
    rw [List.append_assoc, List.singleton_append] at hturned
    refine ⟨?_, hturned⟩
    dsimp only
    rw [hrest, List.flatten_cons, List.length_append, Nat.add_comm group.length]
    rfl

/-- A broadcast is cut into groups that the program can hold. -/
theorem dispatch (h : Turned past ring w) (secret : String) (heartbeat : Heartbeat)
    (targets : List Member) :
    let (result, ring, w) :=
      Gossip.dispatch (Offload.witnessed transport) secret heartbeat targets ring w
    result = .ok ⟨(targets.length + 24) / 25, targets.length⟩ ∧
      Turned (past ++ groups targets) ring w := by
  have hpieces : ∀ group ∈ groups targets, group.length ≤ Offload.capacity := fun group hgroup ↦
    Nat.le_trans (mem_groups hgroup).2 (by decide)
  have hcount : (groups targets).length = (targets.length + 24) / 25 := by
    rw [groups, List.length_map, List.length_range]
    rfl
  have hall := h.dispatchGroups transport secret heartbeat hpieces
  rwa [flatten_groups, hcount] at hall

end Turned

/-- Broadcasts one after the other, by a batcher that goes on with its ring. -/
def dispatchAll {ω : Type} (link : Link ω) (secret : String) :
    List (Heartbeat × List Member) → KeyRing → ω → List (Except Error BatchReport) × KeyRing × ω
  | [], ring, w => ([], ring, w)
  | call :: rest, ring, w =>
    let (result, ring, w) := dispatch link secret call.1 call.2 ring w
    let (results, ring, w) := dispatchAll link secret rest ring w
    (result :: results, ring, w)

theorem Turned.dispatchAll (h : Turned past ring w) (secret : String)
    (calls : List (Heartbeat × List Member)) :
    let (results, ring, w) :=
      Gossip.dispatchAll (Offload.witnessed transport) secret calls ring w
    results = calls.map (fun call ↦ .ok ⟨(call.2.length + 24) / 25, call.2.length⟩) ∧
      Turned (past ++ calls.flatMap fun call ↦ groups call.2) ring w := by
  induction calls generalizing past ring w with
  | nil => exact ⟨rfl, by rwa [List.flatMap_nil, List.append_nil]⟩
  | cons call rest ih =>
    obtain ⟨hresult, hturned⟩ := h.dispatch transport secret call.1 call.2
    obtain ⟨hresults, hall⟩ := ih hturned
    rw [List.append_assoc] at hall
    exact ⟨congrArg₂ List.cons hresult hresults, hall⟩

/-- Broadcasts one after the other, by a fresh batcher next to a fresh program, to any lists of
targets, under any secret and by any transport. None of them fails, and each reports its groups and
its targets. The groups of all of them, counted from one, are registered in their order, the group
of number n under the key 100 + n mod 900; so the keys have three digits, and nine hundred groups in
a row have different ones. In the end the program holds as many batches as groups have gone out, at
most nine hundred, and under each key the targets, in their order, of the last group that took it;
these are one to twenty-five. As a broadcast may end with any group, this is so after each group. -/
theorem batches_keep_to_their_turns {τ : Type} (transport : Offload → Send → Action τ)
    (secret : String) (state : τ) (calls : List (Heartbeat × List Member)) :
    let (results, _, journal, _, program) :=
      dispatchAll (Offload.witnessed transport) secret calls .fresh ({}, state, {})
    let past := calls.flatMap fun call ↦ groups call.2
    results = calls.map (fun call ↦ .ok ⟨(call.2.length + 24) / 25, call.2.length⟩) ∧
      journal.registrations = registeredInTurn past ∧
      (∀ n, (BatchKey.ofTurn n).value.toNat = 100 + n % 900) ∧
      (∀ m n, m < n → n < m + 900 → BatchKey.ofTurn m ≠ .ofTurn n) ∧
      program.batches.size = min past.length 900 ∧
      (∀ key targets, program.batch? key = some targets ↔
        ∃ i group, LastUse past key i group ∧ group.map Member.target = targets) ∧
      ∀ key targets, program.batch? key = some targets →
        1 ≤ targets.length ∧ targets.length ≤ 25 := by
  obtain ⟨hresults, hturned⟩ := (turned_fresh state).dispatchAll transport secret calls
  refine ⟨hresults, hturned.registrations, BatchKey.toNat_ofTurn,
    fun m n ↦ BatchKey.ofTurn_ne, hturned.tables.size, hturned.tables.found,
    fun key targets hfound ↦ ?_⟩
  obtain ⟨i, group, huse, rfl⟩ := (hturned.tables.found key targets).mp hfound
  obtain ⟨call, -, hgroup⟩ := List.mem_flatMap.mp (List.mem_of_getElem? huse.sent)
  obtain ⟨hne, hlength⟩ := mem_groups hgroup
  rw [List.length_map]
  exact ⟨List.length_pos_iff.mpr hne, hlength⟩

end Batcher

end Gossip
