import Gossip.Proofs.Membership
import Mathlib.Data.Nat.Notation

/-!
What a store of members holds after any accesses. A value comes in when it is stored, and goes when
a look finds it too old, for good: it does not come back when the clock is set back. So a value is
listed exactly if it has been stored, and every look since it was last stored, up to the one that
lists it, found it young enough.
-/

set_option autoImplicit false
set_option relaxedAutoImplicit false

namespace Gossip

/-- What is asked of a store of members. -/
inductive Access where
  | set (member : Member) (now : Instant)
  | touch (now : Instant)
  | get (moment : Moment)
  | peers (moment : Moment)

namespace Access

/-- What a store answers. -/
inductive Answer where
  | stored (isNew : Bool)
  | done
  | listed (members : List Member)

/-- The clock that an access reads. -/
def clock : Access → Instant
  | .set _ now | .touch now => now
  | .get moment | .peers moment => moment.now

/-- The clock that a look at the live members reads. -/
def looks? : Access → Option Instant
  | .set _ _ | .touch _ => none
  | .get moment | .peers moment => some moment.now

end Access

namespace Membership

/-- One access to a store. -/
def serve (m : Membership) : Access → Access.Answer × Membership
  | .set member now =>
    let (m, isNew) := m.set member now
    (.stored isNew, m)
  | .touch now => (.done, m.touch now)
  | .get moment =>
    let (m, live) := m.look moment
    (.listed live, m)
  | .peers moment =>
    let (m, live) := m.look moment
    (.listed (m.others live), m)

/-- The value that an access stores, with the clock it reads. -/
def stores? (m : Membership) : Access → Option (Member × Instant)
  | .set member now => some (m.normalize member, now)
  | .touch now => some (m.self, now)
  | .get _ | .peers _ => none

/-- Accesses one after the other. -/
def serveAll (m : Membership) (accesses : List Access) : Membership :=
  accesses.foldl (fun m access ↦ (m.serve access).2) m

/-! ### One access -/

/-- The local member and the rules by which others are kept are those of another store. -/
structure SameRules (m other : Membership) : Prop where
  self : m.self = other.self
  lifetime : m.lifetime = other.lifetime
  mask : m.mask = other.mask
  gateway : m.gateway = other.gateway

variable {m other : Membership}

theorem SameRules.trans {third : Membership} (h : SameRules m other)
    (hother : SameRules other third) : SameRules m third :=
  ⟨h.self.trans hother.self, h.lifetime.trans hother.lifetime, h.mask.trans hother.mask,
    h.gateway.trans hother.gateway⟩

theorem SameRules.ttl (h : SameRules m other) : m.ttl = other.ttl := by
  unfold Membership.ttl
  rw [h.lifetime]

theorem SameRules.normalize (h : SameRules m other) (member : Member) :
    m.normalize member = other.normalize member := by
  unfold Membership.normalize
  rw [h.self, h.mask, h.gateway]

theorem SameRules.stores? (h : SameRules m other) (access : Access) :
    m.stores? access = other.stores? access := by
  cases access with
  | set member now => exact congrArg (fun v ↦ some (v, now)) (h.normalize member)
  | touch now => exact congrArg (fun v ↦ some (v, now)) h.self
  | get moment | peers moment => rfl

theorem sameRules_serve (m : Membership) (access : Access) : SameRules (m.serve access).2 m := by
  cases access <;> exact ⟨rfl, rfl, rfl, rfl⟩

theorem sameRules_serveAll (m : Membership) (accesses : List Access) :
    SameRules (m.serveAll accesses) m := by
  induction accesses generalizing m with
  | nil => exact ⟨rfl, rfl, rfl, rfl⟩
  | cons access rest ih => exact (ih _).trans (m.sameRules_serve access)

theorem serveAll_append (m : Membership) (accesses more : List Access) :
    m.serveAll (accesses ++ more) = (m.serveAll accesses).serveAll more :=
  List.foldl_append

variable {access : Access} {v : Member} {second : Int}

/-- A stored value is seen now, and every other value is as it was. -/
theorem mem_entries_serve_of_stores {u : Member} {now : Instant}
    (h : m.stores? access = some (u, now)) :
    (v, second) ∈ (m.serve access).2.seen.entries ↔
      v = u ∧ second = now.seconds ∨ v ≠ u ∧ (v, second) ∈ m.seen.entries := by
  cases access with
  | set member now' | touch now' =>
    obtain ⟨rfl, rfl⟩ := Prod.mk.inj (Option.some.inj h)
    exact m.seen.mem_entries_insert
  | get moment | peers moment => exact absurd h (by simp [Membership.stores?])

/-- A look keeps what is young enough. -/
theorem mem_entries_serve_of_looks {now : Instant} (h : access.looks? = some now) :
    (v, second) ∈ (m.serve access).2.seen.entries ↔
      (v, second) ∈ m.seen.entries ∧ now.seconds - second ≤ m.ttl := by
  cases access with
  | set member now' | touch now' => exact absurd h (by simp [Access.looks?])
  | get moment | peers moment =>
    obtain rfl := Option.some.inj h
    refine List.mem_filter.trans (and_congr_right' ?_)
    exact decide_eq_true_iff

/-- An access either stores or looks. -/
theorem stores?_or_looks? (m : Membership) (access : Access) :
    (∃ u now, m.stores? access = some (u, now) ∧ access.looks? = none) ∨
      ∃ now, m.stores? access = none ∧ access.looks? = some now := by
  cases access with
  | set member now => exact Or.inl ⟨_, now, rfl, rfl⟩
  | touch now => exact Or.inl ⟨_, now, rfl, rfl⟩
  | get moment | peers moment => exact Or.inr ⟨_, rfl, rfl⟩

/-- A look lists what it leaves. -/
theorem perm_look (m : Membership) (moment : Moment) :
    (m.look moment).2.Perm (m.look moment).1.members :=
  moment.arrange_perm _

theorem nodup_members (m : Membership) : m.members.Nodup := m.seen.nodup

theorem mem_members_iff : v ∈ m.members ↔ ∃ second, (v, second) ∈ m.seen.entries := by
  unfold Membership.members Table.keys
  simp

end Membership

/-! ### A store from its construction on -/

/-- What a store is built from, and what is asked of it then. Step zero builds the store, and the
step behind it is the first access. -/
structure Chronicle where
  self : Member
  lifetime : Span
  mask : Ipv4
  gateway : String
  built : Instant
  accesses : List Access

namespace Chronicle

/-- The store as it is built. -/
def start (c : Chronicle) : Membership := .start c.self c.lifetime c.mask c.gateway c.built

/-- The store after the first of its accesses. -/
def after (c : Chronicle) (count : ℕ) : Membership := c.start.serveAll (c.accesses.take count)

/-- The answer to an access. -/
def answer? (c : Chronicle) (number : ℕ) : Option Access.Answer :=
  c.accesses[number]?.map fun access ↦ ((c.after number).serve access).1

/-- The value that a step stores, with the clock it reads. -/
def stores? (c : Chronicle) : ℕ → Option (Member × Instant)
  | 0 => some (c.start.self, c.built)
  | number + 1 => c.accesses[number]?.bind c.start.stores?

/-- The clock that a step reads to look at the live members. -/
def looks? (c : Chronicle) : ℕ → Option Instant
  | 0 => none
  | number + 1 => c.accesses[number]?.bind Access.looks?

/-- A step stores a value, and no step between it and another one stores the value again. -/
structure LastStored (c : Chronicle) (v : Member) (step before : ℕ) (clock : Instant) : Prop where
  lt : step < before
  stores : c.stores? step = some (v, clock)
  last : ∀ i, step < i → i < before → ∀ later, c.stores? i ≠ some (v, later)

/-- A value is present at a step if an earlier step stored it, none in between stored it again, and
every look since then, one at the step itself among them, found it young enough. -/
def Present (c : Chronicle) (v : Member) (step : ℕ) : Prop :=
  ∃ j clock, c.LastStored v j step clock ∧ ∀ i, j < i → i ≤ step → ∀ now,
    c.looks? i = some now → now.seconds - clock.seconds ≤ c.start.ttl

/-- A value is held in front of a step, as seen at a second. -/
def Held (c : Chronicle) (v : Member) (step : ℕ) (second : Int) : Prop :=
  ∃ j clock, c.LastStored v j step clock ∧ clock.seconds = second ∧ ∀ i, j < i → i < step →
    ∀ now, c.looks? i = some now → now.seconds - second ≤ c.start.ttl

variable {c : Chronicle} {v : Member} {k : ℕ} {second : Int}

/-- There is only one step at which a value was last stored. -/
theorem LastStored.clock_eq {i j : ℕ} {clock other : Instant} (h : c.LastStored v i k clock)
    (hother : c.LastStored v j k other) : clock = other := by
  rcases Nat.lt_trichotomy i j with hlt | rfl | hlt
  · exact absurd hother.stores (h.last j hlt hother.lt other)
  · exact (Prod.mk.inj (Option.some.inj (h.stores.symm.trans hother.stores))).2
  · exact absurd h.stores (hother.last i hlt h.lt clock)

theorem sameRules_after (c : Chronicle) (count : ℕ) :
    Membership.SameRules (c.after count) c.start :=
  c.start.sameRules_serveAll _

/-- The next access is served by the store that the accesses before it have left. -/
theorem after_succ {access : Access} (h : c.accesses[k]? = some access) :
    c.after (k + 1) = ((c.after k).serve access).2 := by
  unfold after Membership.serveAll
  rw [List.take_add_one, h, List.foldl_append]
  rfl

/-- A value that a step stores is held behind it as seen then, and every other value as before. -/
theorem held_succ_of_stores {u : Member} {now : Instant} (hstores : c.stores? k = some (u, now))
    (hlooks : c.looks? k = none) : c.Held v (k + 1) second ↔
      v = u ∧ second = now.seconds ∨ v ≠ u ∧ c.Held v k second := by
  constructor
  · rintro ⟨j, clock, hlast, rfl, hyoung⟩
    rcases Nat.lt_succ_iff_lt_or_eq.mp hlast.lt with hlt | rfl
    · have hne : v ≠ u := fun hv ↦ hlast.last k hlt k.lt_succ_self now (hv ▸ hstores)
      exact Or.inr ⟨hne, j, clock,
        ⟨hlt, hlast.stores, fun i hji hik ↦ hlast.last i hji (Nat.lt_succ_of_lt hik)⟩, rfl,
        fun i hji hik ↦ hyoung i hji (Nat.lt_succ_of_lt hik)⟩
    · obtain ⟨rfl, rfl⟩ := Prod.mk.inj (Option.some.inj (hlast.stores.symm.trans hstores))
      exact Or.inl ⟨rfl, rfl⟩
  · rintro (⟨rfl, rfl⟩ | ⟨hne, j, clock, hlast, rfl, hyoung⟩)
    · exact ⟨k, now, ⟨k.lt_succ_self, hstores, fun i hki hik ↦ by omega⟩, rfl,
        fun i hki hik ↦ by omega⟩
    · refine ⟨j, clock, ⟨Nat.lt_succ_of_lt hlast.lt, hlast.stores, fun i hji hik later ↦ ?_⟩, rfl,
        fun i hji hik later hlater ↦ ?_⟩
      · rcases Nat.lt_succ_iff_lt_or_eq.mp hik with hik | rfl
        · exact hlast.last i hji hik later
        · exact fun h ↦ hne (Prod.mk.inj (Option.some.inj (h.symm.trans hstores))).1
      · rcases Nat.lt_succ_iff_lt_or_eq.mp hik with hik | rfl
        · exact hyoung i hji hik later hlater
        · exact absurd (hlooks.symm.trans hlater) (by simp)

/-- A look leaves what it finds young enough. -/
theorem held_succ_of_looks {now : Instant} (hstores : c.stores? k = none)
    (hlooks : c.looks? k = some now) :
    c.Held v (k + 1) second ↔ c.Held v k second ∧ now.seconds - second ≤ c.start.ttl := by
  constructor
  · rintro ⟨j, clock, hlast, rfl, hyoung⟩
    have hlt : j < k := by
      refine Nat.lt_of_le_of_ne (Nat.le_of_lt_succ hlast.lt) fun hjk ↦ ?_
      exact absurd (hstores.symm.trans (hjk ▸ hlast.stores)) (by simp)
    exact ⟨⟨j, clock, ⟨hlt, hlast.stores,
      fun i hji hik ↦ hlast.last i hji (Nat.lt_succ_of_lt hik)⟩, rfl,
      fun i hji hik ↦ hyoung i hji (Nat.lt_succ_of_lt hik)⟩, hyoung k hlt k.lt_succ_self now hlooks⟩
  · rintro ⟨⟨j, clock, hlast, rfl, hyoung⟩, hnow⟩
    refine ⟨j, clock, ⟨Nat.lt_succ_of_lt hlast.lt, hlast.stores, fun i hji hik later ↦ ?_⟩, rfl,
      fun i hji hik later hlater ↦ ?_⟩
    · rcases Nat.lt_succ_iff_lt_or_eq.mp hik with hik | rfl
      · exact hlast.last i hji hik later
      · exact fun h ↦ absurd (hstores.symm.trans h) (by simp)
    · rcases Nat.lt_succ_iff_lt_or_eq.mp hik with hik | rfl
      · exact hyoung i hji hik later hlater
      · obtain rfl := Option.some.inj (hlooks.symm.trans hlater)
        exact hnow

theorem held_start : c.Held v 1 second ↔ v = c.start.self ∧ second = c.built.seconds := by
  rw [held_succ_of_stores (k := 0) rfl rfl]
  refine or_iff_left ?_
  rintro ⟨-, j, clock, hlast, -⟩
  exact absurd hlast.lt j.not_lt_zero

theorem mem_entries_start :
    (v, second) ∈ c.start.seen.entries ↔ v = c.start.self ∧ second = c.built.seconds :=
  List.mem_singleton.trans (Iff.of_eq (Prod.mk.injEq _ _ _ _))

/-- The store holds after some accesses what is held behind the last of them. -/
theorem mem_entries_after (hk : k ≤ c.accesses.length) :
    (v, second) ∈ (c.after k).seen.entries ↔ c.Held v (k + 1) second := by
  induction k generalizing second with
  | zero => exact mem_entries_start.trans held_start.symm
  | succ k ih =>
    have haccess := List.getElem?_eq_getElem hk
    have hrules := c.sameRules_after k
    have hstep : c.stores? (k + 1) = (c.after k).stores? c.accesses[k] := by
      rw [hrules.stores?, stores?, haccess, Option.bind_some]
    have hlook : c.looks? (k + 1) = c.accesses[k].looks? := by
      rw [looks?, haccess, Option.bind_some]
    rw [after_succ haccess]
    rcases (c.after k).stores?_or_looks? c.accesses[k] with
      ⟨u, now, hstores, hlooks⟩ | ⟨now, hstores, hlooks⟩
    · rw [Membership.mem_entries_serve_of_stores hstores, ih (Nat.le_of_succ_le hk),
        held_succ_of_stores (hstep.trans hstores) (hlook.trans hlooks)]
    · rw [Membership.mem_entries_serve_of_looks hlooks, ih (Nat.le_of_succ_le hk), hrules.ttl,
        held_succ_of_looks (hstep.trans hstores) (hlook.trans hlooks)]

/-- What is present at a step is held in front of it, and found young enough if the step looks. -/
theorem present_iff : c.Present v k ↔ ∃ second, c.Held v k second ∧
    ∀ now, c.looks? k = some now → now.seconds - second ≤ c.start.ttl := by
  constructor
  · rintro ⟨j, clock, hlast, hyoung⟩
    exact ⟨clock.seconds, ⟨j, clock, hlast, rfl, fun i hji hik ↦ hyoung i hji (Nat.le_of_lt hik)⟩,
      hyoung k hlast.lt (Nat.le_refl k)⟩
  · rintro ⟨second, ⟨j, clock, hlast, rfl, hyoung⟩, hnow⟩
    refine ⟨j, clock, hlast, fun i hji hik ↦ ?_⟩
    rcases Nat.lt_or_eq_of_le hik with hik | rfl
    · exact hyoung i hji hik
    · exact hnow

section Step

variable {access : Access} (haccess : c.accesses[k]? = some access)

include haccess

theorem mem_members_after :
    v ∈ (c.after k).members ↔ ∃ second, c.Held v (k + 1) second := by
  have hk : k < c.accesses.length := (List.getElem?_eq_some_iff.mp haccess).1
  simp only [Membership.mem_members_iff, mem_entries_after (Nat.le_of_lt hk)]

/-- What an access that does not look finds in the store. -/
theorem mem_members_after_of_stores (hlooks : access.looks? = none) :
    v ∈ (c.after k).members ↔ c.Present v (k + 1) := by
  have hlook : c.looks? (k + 1) = none := by rw [looks?, haccess, Option.bind_some, hlooks]
  rw [mem_members_after haccess, present_iff, hlook]
  simp

/-- What a look leaves in the store, and lists. -/
theorem mem_members_after_of_looks {now : Instant} (hlooks : access.looks? = some now) :
    v ∈ (c.after (k + 1)).members ↔ c.Present v (k + 1) := by
  have hk : k < c.accesses.length := (List.getElem?_eq_some_iff.mp haccess).1
  have hlook : c.looks? (k + 1) = some now := by rw [looks?, haccess, Option.bind_some, hlooks]
  rw [after_succ haccess, Membership.mem_members_iff, present_iff, hlook]
  simp only [Membership.mem_entries_serve_of_looks hlooks, mem_entries_after (Nat.le_of_lt hk),
    (c.sameRules_after k).ttl, Option.some.injEq, forall_eq']

theorem perm_after_of_serve (moment : Moment)
    (hserve : ((c.after k).serve access).2 = ((c.after k).look moment).1) :
    ((c.after k).look moment).2.Perm (c.after (k + 1)).members := by
  rw [after_succ haccess, hserve]
  exact (c.after k).perm_look moment

end Step

/-- What a store of members answers, whatever it is built from and has been asked before, under any
readings of the clock, and in any order of its members. A look at the live members lists exactly the
values that are present at its step, each of them once, and leaves exactly those in the store. A
look for others lists the same values but those of the local member's own peer. A value that is
stored is new exactly if it is not in the store then, which is to say that it is not present. -/
theorem answers_tell_presence (c : Chronicle) (k : ℕ) :
    (∀ moment, c.accesses[k]? = some (.get moment) → ∃ live, c.answer? k = some (.listed live) ∧
      (∀ v, v ∈ live ↔ c.Present v (k + 1)) ∧ live.Nodup ∧
        live.Perm (c.after (k + 1)).members) ∧
      (∀ moment, c.accesses[k]? = some (.peers moment) → ∃ live,
        c.answer? k = some (.listed live) ∧
          (∀ v, v ∈ live ↔ c.Present v (k + 1) ∧ ¬v.SamePeer c.start.self) ∧ live.Nodup) ∧
      ∀ member now, c.accesses[k]? = some (.set member now) → ∃ isNew,
        c.answer? k = some (.stored isNew) ∧
          (isNew = true ↔ c.start.normalize member ∉ (c.after k).members) ∧
          (isNew = true ↔ ¬c.Present (c.start.normalize member) (k + 1)) := by
  have hrules := c.sameRules_after k
  refine ⟨fun moment haccess ↦ ?_, fun moment haccess ↦ ?_, fun member now haccess ↦ ?_⟩
  · have hlisted := perm_after_of_serve haccess moment rfl
    exact ⟨_, congrArg (Option.map _) haccess,
      fun v ↦ hlisted.mem_iff.trans (mem_members_after_of_looks haccess rfl),
      hlisted.nodup_iff.mpr (Membership.nodup_members _), hlisted⟩
  · have hlisted := perm_after_of_serve haccess moment rfl
    have hothers (v : Member) : v ∈ (c.after k).others ((c.after k).look moment).2 ↔
        v ∈ ((c.after k).look moment).2 ∧ ¬v.SamePeer c.start.self := by
      rw [Membership.others, List.mem_filter, hrules.self, decide_eq_true_iff]
    refine ⟨_, congrArg (Option.map _) haccess, fun v ↦ (hothers v).trans (and_congr_left' ?_),
      (hlisted.nodup_iff.mpr (Membership.nodup_members _)).filter _⟩
    exact hlisted.mem_iff.trans (mem_members_after_of_looks haccess rfl)
  · have hnew : (!(c.after k).seen.contains ((c.after k).normalize member)) = true ↔
        c.start.normalize member ∉ (c.after k).members := by
      rw [hrules.normalize, Bool.not_eq_true', ← Bool.not_eq_true, Table.contains_eq_true]
      exact Iff.rfl
    exact ⟨_, congrArg (Option.map _) haccess, hnew,
      hnew.trans (not_congr (mem_members_after_of_stores haccess rfl))⟩

/-- A member outside the subnet of the store below. -/
def outsider : Member := { addr := "10.0.1.1", port := 1 }

/-- A store that keeps values for ten seconds. It looks when they are twenty seconds old, and again
when the clock has been set back to where they are five seconds old. -/
def setBack : Chronicle where
  self := { addr := "10.0.0.1", port := 1 }
  lifetime := .ofSeconds 10
  mask := ⟨255, 255, 255, 0⟩
  gateway := "02:00:00:00:00:01"
  built := .ofParts 100 0
  accesses := [.set outsider (.ofParts 100 0), .peers (.plain (.ofParts 120 0)),
    .get (.plain (.ofParts 105 0))]

/-- What has been too old for one look is young enough for the next, and not present any more. -/
theorem nothing_present_when_set_back :
    (setBack.accesses[0]? = some (.set outsider (.ofParts 100 0)) ∧
      ¬setBack.Present (setBack.start.normalize outsider) 1) ∧
      (setBack.accesses[1]? = some (.peers (.plain (.ofParts 120 0))) ∧
        ∀ v, setBack.Present v 2 → v.SamePeer setBack.start.self) ∧
      setBack.accesses[2]? = some (.get (.plain (.ofParts 105 0))) ∧ ∀ v, ¬setBack.Present v 3 := by
  refine ⟨⟨rfl, ?_⟩, ⟨rfl, fun v hv ↦ ?_⟩, rfl, fun v hv ↦ ?_⟩
  · obtain ⟨isNew, hanswer, -, hpresent⟩ := (answers_tell_presence setBack 0).2.2 _ _ rfl
    have htrue : some (Access.Answer.stored true) = some (.stored isNew) := hanswer
    exact hpresent.mp (by injection htrue with h; injection h with h; exact h.symm)
  · obtain ⟨live, hanswer, hlists, -⟩ := (answers_tell_presence setBack 1).2.1 _ rfl
    have hnil : some (Access.Answer.listed []) = some (.listed live) := hanswer
    obtain rfl : [] = live := by injection hnil with h; injection h
    exact not_not.mp fun hother ↦ List.not_mem_nil ((hlists v).mpr ⟨hv, hother⟩)
  · obtain ⟨live, hanswer, hlists, -⟩ := (answers_tell_presence setBack 2).1 _ rfl
    have hnil : some (Access.Answer.listed []) = some (.listed live) := hanswer
    obtain rfl : [] = live := by injection hnil with h; injection h
    exact List.not_mem_nil ((hlists v).mpr hv)

end Chronicle

end Gossip
