import Gossip.Proofs.Membership.Presence
import Gossip.Settings
import Mathlib.Algebra.Ring.Int.Defs
import Mathlib.Algebra.Ring.Nat
import Mathlib.Tactic.ByContra

/-!
How long a value is kept. The store writes down the second at which a value was last stored, and a
look counts the seconds from there to the one it is in. This count is compared with the lifetime as
it is, but it can be up to a second more than the time that has passed. So no value goes before
the whole seconds of its lifetime have passed, and a lifetime of whole seconds is kept in full; one
with a fraction is cut short in some run, if the calendar is long enough for it to run out.
-/

set_option autoImplicit false
set_option relaxedAutoImplicit false

namespace Gossip

/-! ### Whole seconds -/

theorem Instant.seconds_bounds (t : Instant) :
    t.seconds * Instant.perSecond ≤ t.nanos ∧ t.nanos < (t.seconds + 1) * Instant.perSecond := by
  unfold Instant.seconds Instant.perSecond
  rw [Int.fdiv_eq_ediv_of_nonneg _ (by decide)]
  omega

theorem Instant.seconds_ofParts {seconds nanos : Int} (hleast : 0 ≤ nanos)
    (hmost : nanos < Instant.perSecond) : (Instant.ofParts seconds nanos).seconds = seconds := by
  unfold Instant.perSecond at hmost
  unfold Instant.seconds Instant.ofParts Instant.perSecond
  rw [Int.fdiv_eq_ediv_of_nonneg _ (by decide)]
  dsimp only
  omega

/-- A number of seconds exceeds a span if it exceeds the whole seconds of the span. -/
theorem Span.nanos_lt_iff (span : Span) (count : Int) :
    (span.nanos : Int) < count * Instant.perSecond ↔ (span.seconds : Int) < count := by
  unfold Span.seconds Instant.perSecond
  omega

/-- A lifetime that fits 63 bits is taken as it is. -/
theorem Membership.ttl_eq {m : Membership} (hfits : m.lifetime.seconds < 2 ^ 63) :
    m.ttl = m.lifetime.seconds := by
  unfold Membership.ttl
  refine Int.bmod_eq_of_le ?_ ?_
  · have : (UInt64.size : Int) / 2 = 2 ^ 63 := by decide
    omega
  · have : ((UInt64.size : Int) + 1) / 2 = 2 ^ 63 := by decide
    omega

namespace Chronicle

/-- An access finds a value in the store and drops it. -/
def Evicts (c : Chronicle) (number : ℕ) (v : Member) : Prop :=
  v ∈ (c.after number).members ∧ v ∉ (c.after (number + 1)).members

/-- Every clock is read at a time at which it can be read. -/
def Readable (c : Chronicle) : Prop :=
  c.built.Readable ∧ ∀ access ∈ c.accesses, access.clock.Readable

variable {c : Chronicle} {k j : ℕ} {access : Access} {now clock : Instant} {v : Member}

/-- A look that finds a value drops it exactly if more seconds of the clock have gone by since it
was last stored than the lifetime is long. -/
theorem evicts_iff (hfits : c.lifetime.seconds < 2 ^ 63)
    (haccess : c.accesses[k]? = some access) (hlooks : access.looks? = some now)
    (hlast : c.LastStored v j (k + 1) clock) (hmem : v ∈ (c.after k).members) :
    c.Evicts k v ↔
      (c.lifetime.nanos : Int) < (now.seconds - clock.seconds) * Instant.perSecond := by
  have hlook : c.looks? (k + 1) = some now := by
    rw [looks?, haccess, Option.bind_some, hlooks]
  have hheld : c.Held v (k + 1) clock.seconds := by
    obtain ⟨second, hheld⟩ := (mem_members_after haccess).mp hmem
    obtain ⟨i, other, hother, rfl, hyoung⟩ := id hheld
    exact hlast.clock_eq hother ▸ hheld
  have hpresent : c.Present v (k + 1) ↔ now.seconds - clock.seconds ≤ c.start.ttl := by
    rw [present_iff, hlook]
    constructor
    · rintro ⟨second, ⟨i, other, hother, rfl, -⟩, hnow⟩
      exact hlast.clock_eq hother ▸ hnow now rfl
    · exact fun h ↦ ⟨_, hheld, fun later hlater ↦ Option.some.inj hlater ▸ h⟩
  rw [Evicts, mem_members_after_of_looks haccess hlooks, hpresent, Span.nanos_lt_iff,
    Membership.ttl_eq (show c.start.lifetime.seconds < 2 ^ 63 from hfits), Int.not_le]
  exact and_iff_right hmem

/-- A value goes only after more than the whole seconds of the lifetime. -/
theorem lt_of_evicts (hfits : c.lifetime.seconds < 2 ^ 63)
    (haccess : c.accesses[k]? = some access) (hlooks : access.looks? = some now)
    (hlast : c.LastStored v j (k + 1) clock) (hevicts : c.Evicts k v) :
    c.lifetime.seconds * Instant.perSecond < now.nanos - clock.nanos := by
  have hcount := (evicts_iff hfits haccess hlooks hlast hevicts.1).mp hevicts
  rw [Span.nanos_lt_iff] at hcount
  have hnow := now.seconds_bounds
  have hclock := clock.seconds_bounds
  unfold Instant.perSecond at *
  omega

theorem Readable.of_looks (hreadable : c.Readable) (haccess : c.accesses[k]? = some access)
    (hlooks : access.looks? = some now) : now.Readable := by
  have hclock := hreadable.2 access (List.mem_of_getElem? haccess)
  cases access with
  | set member later | touch later => exact absurd hlooks (by simp [Access.looks?])
  | get moment | peers moment => exact Option.some.inj hlooks ▸ hclock

theorem Readable.of_stores (hreadable : c.Readable) (hstores : c.stores? j = some (v, clock)) :
    clock.Readable := by
  cases j with
  | zero => exact (Prod.mk.inj (Option.some.inj hstores)).2 ▸ hreadable.1
  | succ number =>
    obtain ⟨access, haccess, hstored⟩ := Option.bind_eq_some_iff.mp hstores
    have hclock := hreadable.2 access (List.mem_of_getElem? haccess)
    cases access with
    | set member later | touch later =>
      exact (Prod.mk.inj (Option.some.inj hstored)).2 ▸ hclock
    | get moment | peers moment => exact absurd hstored (by simp [Membership.stores?])

end Chronicle

theorem Instant.Readable.seconds_nonneg {t : Instant} (h : t.Readable) : 0 ≤ t.seconds := by
  have hleast := h.1
  have hbounds := t.seconds_bounds
  unfold Instant.perSecond at hbounds
  omega

/-- In every run, a value is only dropped when more than the lifetime has passed since it was last
stored. -/
def Span.KeptInFull (lifetime : Span) : Prop :=
  ∀ (c : Chronicle) (k j : ℕ) (access : Access) (now clock : Instant) (v : Member),
    c.lifetime = lifetime → c.Readable → c.accesses[k]? = some access →
      access.looks? = some now → c.LastStored v j (k + 1) clock → c.Evicts k v →
        (lifetime.nanos : Int) < now.nanos - clock.nanos

namespace Chronicle

/-- A store that is built at the very end of a second, and looks when a number of seconds has begun
since. -/
def edge (lifetime : Span) (count : Int) : Chronicle where
  self := {}
  lifetime
  mask := ⟨0, 0, 0, 0⟩
  gateway := ""
  built := .ofParts 0 999999999
  accesses := [.get (.plain (.ofParts count 0))]

variable {lifetime : Span} {count : Int}

theorem readable_edge (hleast : 0 ≤ count) (hmost : count ≤ Instant.lastSecond) :
    (edge lifetime count).Readable := by
  have hbuilt : (Instant.ofParts 0 999999999).Readable := by decide
  refine ⟨hbuilt, fun access haccess ↦ ?_⟩
  obtain rfl := List.mem_singleton.mp haccess
  have hseconds : (Instant.ofParts count 0).seconds = count :=
    Instant.seconds_ofParts (Int.le_refl 0) (by decide)
  refine ⟨?_, Int.le_trans (Int.le_of_eq hseconds) hmost⟩
  show 0 ≤ count * Instant.perSecond + 0
  unfold Instant.perSecond
  omega

theorem lastStored_edge :
    (edge lifetime count).LastStored (edge lifetime count).start.self 0 1 (.ofParts 0 999999999) :=
  ⟨Nat.one_pos, rfl, fun i hleast hmost ↦ by omega⟩

/-- One second more than the whole ones of the lifetime is enough. -/
theorem evicts_edge (hfits : lifetime.seconds < 2 ^ 63) :
    (edge lifetime (lifetime.seconds + 1)).Evicts 0
      (edge lifetime (lifetime.seconds + 1)).start.self := by
  refine (evicts_iff hfits rfl rfl lastStored_edge List.mem_cons_self).mpr ?_
  unfold Moment.plain
  rw [Span.nanos_lt_iff, Instant.seconds_ofParts (Int.le_refl 0) (by decide),
    Instant.seconds_ofParts (by decide) (by decide)]
  show (lifetime.seconds : Int) < lifetime.seconds + 1 - 0
  omega

end Chronicle

/-- A lifetime is kept in full if it has no fraction, or if no two clocks read are that far apart. -/
theorem Span.keptInFull_iff {lifetime : Span} (hfits : lifetime.seconds < 2 ^ 63) :
    lifetime.KeptInFull ↔
      lifetime.subNanos = 0 ∨ Instant.lastSecond ≤ lifetime.seconds := by
  have hnanos : lifetime.nanos = lifetime.seconds * 1000000000 + lifetime.subNanos := by
    unfold Span.seconds Span.subNanos
    omega
  constructor
  · intro hfull
    by_contra hcut
    rw [not_or, Int.not_le] at hcut
    have hearly := hfull (.edge lifetime (lifetime.seconds + 1)) 0 0 _ _ _ _ rfl
      (Chronicle.readable_edge (by omega) (by omega)) rfl rfl Chronicle.lastStored_edge
      (Chronicle.evicts_edge hfits)
    unfold Moment.plain Instant.ofParts Instant.perSecond at hearly
    dsimp only at hearly
    omega
  · rintro hkept c k j access now clock v rfl hreadable haccess hlooks hlast hevicts
    rcases hkept with hwhole | hlong
    · have hpassed := Chronicle.lt_of_evicts hfits haccess hlooks hlast hevicts
      unfold Instant.perSecond at hpassed
      omega
    · have hcount := (Chronicle.evicts_iff hfits haccess hlooks hlast hevicts.1).mp hevicts
      have hnow := (hreadable.of_looks haccess hlooks).2
      have hclock := (hreadable.of_stores hlast.stores).seconds_nonneg
      rw [Span.nanos_lt_iff] at hcount
      omega

/-- How the lifetime of values counts, below 2^63 seconds. A look finds a value too old exactly if
the second it is in and the second at which the value was last stored are further apart than the
lifetime. So a value goes only after more than the whole seconds of the lifetime, in any run. No
value ever goes before more than the lifetime itself has passed, whatever the run, exactly if the
lifetime is one of whole seconds, or longer than any two readings of a clock can be apart. -/
theorem lifetime_counts_whole_seconds {lifetime : Span} (hfits : lifetime.seconds < 2 ^ 63) :
    (∀ (c : Chronicle) (k j : ℕ) (access : Access) (now clock : Instant) (v : Member),
      c.lifetime = lifetime → c.accesses[k]? = some access → access.looks? = some now →
        c.LastStored v j (k + 1) clock → v ∈ (c.after k).members →
          (c.Evicts k v ↔
            (lifetime.nanos : Int) < (now.seconds - clock.seconds) * Instant.perSecond) ∧
          (c.Evicts k v → lifetime.seconds * Instant.perSecond < now.nanos - clock.nanos)) ∧
      (lifetime.KeptInFull ↔
        lifetime.subNanos = 0 ∨ Instant.lastSecond ≤ lifetime.seconds) := by
  refine ⟨?_, lifetime.keptInFull_iff hfits⟩
  rintro c k j access now clock v rfl haccess hlooks hlast hmem
  exact ⟨Chronicle.evicts_iff hfits haccess hlooks hlast hmem,
    Chronicle.lt_of_evicts hfits haccess hlooks hlast⟩

/-- Ten and a half seconds. -/
def tenAndAHalf : Span := ⟨10500000000, by decide⟩

/-- Of ten and a half seconds only the ten are sure: what was stored at the end of a second goes when
the eleventh second after it has begun. -/
theorem ten_and_a_half_count_ten :
    let c := Chronicle.edge tenAndAHalf 11
    tenAndAHalf.seconds < 2 ^ 63 ∧ c.Evicts 0 c.start.self ∧
      (tenAndAHalf.nanos : Int) <
        ((Instant.ofParts 11 0).seconds - c.built.seconds) * Instant.perSecond ∧
      10 * Instant.perSecond < (Instant.ofParts 11 0).nanos - c.built.nanos ∧
      ¬tenAndAHalf.KeptInFull := by
  intro c
  have hfits : tenAndAHalf.seconds < 2 ^ 63 := by decide
  obtain ⟨hcounts, hfull⟩ := lifetime_counts_whole_seconds hfits
  have hevicts : c.Evicts 0 c.start.self := Chronicle.evicts_edge hfits
  obtain ⟨hiff, hpassed⟩ :=
    hcounts c 0 0 _ _ _ c.start.self rfl rfl rfl Chronicle.lastStored_edge hevicts.1
  exact ⟨hfits, hevicts, hiff.mp hevicts, hpassed hevicts, fun h ↦ absurd (hfull.mp h) (by decide)⟩

/-- A store that keeps values for ten and a half seconds, and looks after ten seconds and a tenth. -/
def Chronicle.hasty : Chronicle where
  self := { addr := "10.0.0.1", port := 1 }
  lifetime := tenAndAHalf
  mask := ⟨255, 255, 255, 0⟩
  gateway := ""
  built := .ofParts 1700000000 900000000
  accesses := [.get (.plain (.ofParts 1700000011 0))]

/-- A value goes although less than the lifetime has passed. The lifetime is one that normalised
settings have. -/
theorem goes_before_its_lifetime :
    let c := Chronicle.hasty
    Settings.normalize { cycle := .ofSeconds 1, lifetime := c.lifetime } =
        .ok { cycle := .ofSeconds 1, buffer := 90, lifetime := c.lifetime } ∧
      c.Readable ∧ c.LastStored c.start.self 0 1 c.built ∧ c.Evicts 0 c.start.self ∧
      (Instant.ofParts 1700000011 0).nanos - c.built.nanos < c.lifetime.nanos := by
  intro c
  have hbuilt : (Instant.ofParts 1700000000 900000000).Readable := by decide
  have hnow : (Instant.ofParts 1700000011 0).Readable := by decide
  have hlast : c.LastStored c.start.self 0 1 c.built :=
    ⟨Nat.one_pos, rfl, fun i hleast hmost ↦ by omega⟩
  refine ⟨rfl, ⟨hbuilt, fun access haccess ↦ ?_⟩, hlast, ?_, by decide⟩
  · exact List.mem_singleton.mp haccess ▸ hnow
  · exact (Chronicle.evicts_iff (by decide) rfl rfl hlast List.mem_cons_self).mpr (by decide)

end Gossip
