import Gossip.Settings

/-!
What normalising makes of settings. It ends the program if a value that has to be derived is out of
range, refuses a packet size below the least one, and otherwise puts a value in the place of each
that is missing and leaves all others alone. The result is usable; and usable settings are normal,
so that to normalise again changes nothing.
-/

set_option autoImplicit false
set_option relaxedAutoImplicit false

namespace Gossip

attribute [ext] Settings

namespace Settings

/-! ### What can become of settings -/

/-- Whatever has to be derived is in range. -/
structure InRange (s : Settings) : Prop where
  buffer : s.buffer = 0 → s.amount.toNat * 3 < UInt64.size
  lifetime : s.lifetime.nanos ≤ s.cycle.nanos →
    s.cycle.nanos * 5 + 2000000000 < spanLimit

/-- Settings that a node can work with. -/
structure Usable (s : Settings) : Prop where
  amount : 1 ≤ s.amount.toNat
  cycle : 0 < s.cycle.nanos
  buffer : 1 ≤ s.buffer.toNat
  size : 64 ≤ s.size.toNat
  lifetime : s.cycle.nanos < s.lifetime.nanos

/-- Settings that keep what was usable of others. A lifetime was usable if it is longer than the
cycle that they have now. -/
structure Keeps (d s : Settings) : Prop where
  amount : s.amount ≠ 0 → d.amount = s.amount
  cycle : s.cycle.nanos ≠ 0 → d.cycle = s.cycle
  buffer : s.buffer ≠ 0 → d.buffer = s.buffer
  size : s.size ≠ 0 → d.size = s.size
  lifetime : d.cycle.nanos < s.lifetime.nanos → d.lifetime = s.lifetime
  listen : d.listen = s.listen
  secret : d.secret = s.secret
  mode : d.mode = s.mode
  mask : d.mask = s.mask
  gateway : d.gateway = s.gateway

/-- Settings that keep what was usable of others, and have a value in the place of what was not. -/
structure Completes (d s : Settings) : Prop extends Keeps d s where
  missing_amount : s.amount = 0 → d.amount = defaultAmount
  missing_cycle : s.cycle.nanos = 0 → d.cycle = defaultCycle
  missing_buffer : s.buffer = 0 → d.buffer.toNat = d.amount.toNat * 3
  missing_size : s.size = 0 → d.size = defaultSize
  missing_lifetime : s.lifetime.nanos ≤ d.cycle.nanos →
    d.lifetime.nanos = d.cycle.nanos * 5 + 2000000000

/-- What normalising settings may give. -/
inductive Outcome (s : Settings) : Except Error Settings → Prop
  | overflow (hrange : ¬s.InRange) : Outcome s (.error .overflow)
  | refused (hrange : s.InRange) (hsize : s.size ≠ 0 ∧ s.size < leastSize) :
    Outcome s (.error (.packetTooSmall s.size))
  | accepted {d : Settings} (hrange : s.InRange) (hcompletes : d.Completes s)
    (hsize : leastSize ≤ d.size) : Outcome s (.ok d)

/-! ### Derived values -/

theorem bufferOrDerived_cases (amount buffer : UInt64) :
    (∃ derived, bufferOrDerived amount buffer = .ok derived ∧ (buffer ≠ 0 → derived = buffer) ∧
      (buffer = 0 → derived.toNat = amount.toNat * 3)) ∨
    bufferOrDerived amount buffer = .error .overflow ∧ buffer = 0 ∧
      UInt64.size ≤ amount.toNat * 3 := by
  unfold bufferOrDerived derivedBuffer
  by_cases hzero : buffer = 0
  · rw [if_pos hzero]
    by_cases hfits : amount.toNat * 3 < UInt64.size
    · refine Or.inl ⟨amount * 3, if_pos hfits, fun h ↦ absurd hzero h, fun _ ↦ ?_⟩
      rw [UInt64.toNat_mul]
      exact Nat.mod_eq_of_lt hfits
    · exact Or.inr ⟨if_neg hfits, hzero, Nat.not_lt.mp hfits⟩
  · rw [if_neg hzero]
    exact Or.inl ⟨buffer, rfl, fun _ ↦ rfl, fun h ↦ absurd h hzero⟩

theorem bind_plus?_times? (cycle : Span) :
    (cycle.times? 5).bind (·.plus? (.ofSeconds 2)) =
      Span.ofNanos? (cycle.nanos * 5 + 2000000000) := by
  have htwo : (Span.ofSeconds 2).nanos = 2000000000 := by decide
  unfold Span.times? Span.plus?
  rw [htwo]
  by_cases hfive : cycle.nanos * 5 < spanLimit
  · rw [Span.ofNanos?, dif_pos hfive, Option.bind_some]
  · have hmore : ¬cycle.nanos * 5 + 2000000000 < spanLimit := by omega
    rw [Span.ofNanos?, dif_neg hfive, Option.bind_none, Span.ofNanos?, dif_neg hmore]

theorem lifetimeOrDerived_cases (cycle lifetime : Span) :
    (∃ derived, lifetimeOrDerived cycle lifetime = .ok derived ∧
      (cycle.nanos < lifetime.nanos → derived = lifetime) ∧
      (lifetime.nanos ≤ cycle.nanos → derived.nanos = cycle.nanos * 5 + 2000000000)) ∨
    lifetimeOrDerived cycle lifetime = .error .overflow ∧ lifetime.nanos ≤ cycle.nanos ∧
      spanLimit ≤ cycle.nanos * 5 + 2000000000 := by
  unfold lifetimeOrDerived
  by_cases hshort : lifetime.nanos ≤ cycle.nanos
  · rw [if_pos hshort, derivedLifetime, bind_plus?_times?, Span.ofNanos?]
    by_cases hfits : cycle.nanos * 5 + 2000000000 < spanLimit
    · rw [dif_pos hfits]
      exact Or.inl ⟨_, rfl, fun h ↦ absurd hshort (Nat.not_le.mpr h), fun _ ↦ rfl⟩
    · rw [dif_neg hfits]
      exact Or.inr ⟨rfl, hshort, Nat.not_lt.mp hfits⟩
  · rw [if_neg hshort]
    exact Or.inl ⟨lifetime, rfl, fun _ ↦ rfl, fun h ↦ absurd h hshort⟩

/-- The default fan-out is small enough for a buffer to be derived from it. -/
theorem orDefault_amount_lt_iff (amount : UInt64) :
    (orDefault defaultAmount amount).toNat * 3 < UInt64.size ↔ amount.toNat * 3 < UInt64.size := by
  unfold orDefault
  split
  next hzero =>
    rw [hzero]
    decide
  · rfl

/-- The default cycle is short enough for a lifetime to be derived from it. -/
theorem cycleOrDefault_lt_iff (cycle lifetime : Span) :
    (lifetime.nanos ≤ (cycleOrDefault cycle).nanos →
        (cycleOrDefault cycle).nanos * 5 + 2000000000 < spanLimit) ↔
      (lifetime.nanos ≤ cycle.nanos → cycle.nanos * 5 + 2000000000 < spanLimit) := by
  unfold cycleOrDefault
  split
  next hzero =>
    rw [hzero]
    exact iff_of_true (fun _ ↦ by decide) fun _ ↦ by decide
  · rfl

/-! ### What normalising gives -/

/-- What is missing is replaced, and derived from what has been replaced before. -/
theorem normalize_outcome (s : Settings) : s.Outcome s.normalize := by
  have hamount := orDefault_amount_lt_iff s.amount
  have hcycle := cycleOrDefault_lt_iff s.cycle s.lifetime
  unfold normalize
  dsimp only
  rcases bufferOrDerived_cases (orDefault defaultAmount s.amount) s.buffer with
    ⟨buffer, hbuffer, hkept, hderived⟩ | ⟨hbuffer, hnone, hlarge⟩
  · have hbufferFits : s.buffer = 0 → s.amount.toNat * 3 < UInt64.size := fun hnone ↦
      hamount.mp (hderived hnone ▸ buffer.toNat_lt)
    rw [hbuffer]
    dsimp only
    rcases lifetimeOrDerived_cases (cycleOrDefault s.cycle) s.lifetime with
      ⟨lifetime, hlifetime, hlong, hshort⟩ | ⟨hlifetime, hshort, hlarge⟩
    · have hrange : s.InRange :=
        ⟨hbufferFits, hcycle.mp fun h ↦ hshort h ▸ lifetime.nanos_lt⟩
      rw [hlifetime]
      dsimp only
      split
      next hsize =>
        have hgiven : s.size ≠ 0 := fun hzero ↦ by
          rw [hzero] at hsize
          exact absurd hsize (by decide)
        have hsame : orDefault defaultSize s.size = s.size := if_neg hgiven
        rw [hsame] at hsize ⊢
        exact .refused hrange ⟨hgiven, hsize⟩
      next hsize =>
        refine .accepted hrange ?_ (UInt64.not_lt.mp hsize)
        exact
          { amount := fun h ↦ if_neg h
            cycle := fun h ↦ if_neg h
            buffer := hkept
            size := fun h ↦ if_neg h
            lifetime := hlong
            listen := rfl
            secret := rfl
            mode := rfl
            mask := rfl
            gateway := rfl
            missing_amount := fun h ↦ if_pos h
            missing_cycle := fun h ↦ if_pos h
            missing_buffer := hderived
            missing_size := fun h ↦ if_pos h
            missing_lifetime := hshort }
    · rw [hlifetime]
      exact .overflow fun hrange ↦
        Nat.not_lt.mpr hlarge (hcycle.mpr hrange.lifetime hshort)
  · rw [hbuffer]
    exact .overflow fun hrange ↦ Nat.not_lt.mpr hlarge (hamount.mpr (hrange.buffer hnone))

variable {s d : Settings}

theorem completes_of_normalize (h : s.normalize = .ok d) : d.Completes s := by
  have houtcome := s.normalize_outcome
  rw [h] at houtcome
  cases houtcome with
  | accepted _ hcompletes _ => exact hcompletes

/-- Settings are normalised or refused exactly if whatever has to be derived of them is in range.
When they are normalised, a buffer that was missing is three times the fan-out, and a lifetime that
was not above the cycle is five cycles and two seconds. -/
theorem normalize_answers_iff (s : Settings) :
    (((∃ d, s.normalize = .ok d) ∨
        ∃ error, s.normalize = .error error ∧ error.kind = .invalidSettings) ↔ s.InRange) ∧
      ∀ d, s.normalize = .ok d →
        (s.buffer = 0 → d.buffer.toNat = d.amount.toNat * 3) ∧
        (s.lifetime.nanos ≤ d.cycle.nanos →
          d.lifetime.nanos = d.cycle.nanos * 5 + 2000000000) := by
  refine ⟨?_, fun d hd ↦ ?_⟩
  · have houtcome := s.normalize_outcome
    generalize s.normalize = result at houtcome
    cases houtcome with
    | overflow hrange =>
      refine iff_of_false ?_ hrange
      rintro (⟨d, hd⟩ | ⟨error, herror, hkind⟩)
      · exact absurd hd (by simp)
      · obtain rfl := Except.error.inj herror
        exact absurd hkind (by decide)
    | refused hrange _ => exact iff_of_true (Or.inr ⟨_, rfl, rfl⟩) hrange
    | accepted hrange _ _ => exact iff_of_true (Or.inl ⟨_, rfl⟩) hrange
  · have hcompletes := completes_of_normalize hd
    exact ⟨hcompletes.missing_buffer, hcompletes.missing_lifetime⟩

/-- A fan-out and a cycle from which nothing can be derived end the program, even next to a packet
size that would be refused. -/
theorem overflow_at_extremes :
    normalize { amount := 9223372036854775808, size := 8 } = .error .overflow ∧
      normalize { cycle := .ofSeconds 18446744073709551615, size := 8 } = .error .overflow ∧
      Error.overflow.kind ≠ .invalidSettings :=
  ⟨rfl, rfl, by decide⟩

/-! ### Usable settings -/

theorem one_le_toNat_iff {n : UInt64} : 1 ≤ n.toNat ↔ n ≠ 0 := by
  rw [Nat.one_le_iff_ne_zero, ne_eq, ne_eq, ← UInt64.toNat_inj, UInt64.toNat_zero]

/-- Normalising leaves settings that a node can work with. -/
theorem usable_of_normalize (h : s.normalize = .ok d) : d.Usable := by
  have houtcome := s.normalize_outcome
  rw [h] at houtcome
  cases houtcome with
  | accepted _ hcompletes hsize =>
    have hamount : 1 ≤ d.amount.toNat := by
      by_cases hzero : s.amount = 0
      · rw [hcompletes.missing_amount hzero]
        decide
      · rw [hcompletes.amount hzero]
        exact one_le_toNat_iff.mpr hzero
    have hcycle : 0 < d.cycle.nanos := by
      by_cases hzero : s.cycle.nanos = 0
      · rw [hcompletes.missing_cycle hzero]
        decide
      · rw [hcompletes.cycle hzero]
        exact Nat.pos_of_ne_zero hzero
    have hbuffer : 1 ≤ d.buffer.toNat := by
      by_cases hzero : s.buffer = 0
      · rw [hcompletes.missing_buffer hzero]
        omega
      · rw [hcompletes.buffer hzero]
        exact one_le_toNat_iff.mpr hzero
    have hlifetime : d.cycle.nanos < d.lifetime.nanos := by
      by_cases hshort : s.lifetime.nanos ≤ d.cycle.nanos
      · rw [hcompletes.missing_lifetime hshort]
        omega
      · rw [hcompletes.lifetime (Nat.not_le.mp hshort)]
        exact Nat.not_le.mp hshort
    exact ⟨hamount, hcycle, hbuffer, UInt64.le_iff_toNat_le.mp hsize, hlifetime⟩

namespace Usable

variable (husable : s.Usable)

include husable

/-- Where nothing is missing, nothing has to be derived. -/
theorem inRange : s.InRange where
  buffer hzero := absurd hzero (one_le_toNat_iff.mp husable.buffer)
  lifetime hshort := absurd husable.lifetime (Nat.not_lt.mpr hshort)

/-- Settings that keep what is usable are these settings, if everything is. -/
theorem eq_of_keeps (hkeeps : d.Keeps s) : d = s := by
  have hcycle : d.cycle = s.cycle := hkeeps.cycle (Nat.ne_of_gt husable.cycle)
  exact Settings.ext hkeeps.listen (hkeeps.amount (one_le_toNat_iff.mp husable.amount)) hcycle
    (hkeeps.buffer (one_le_toNat_iff.mp husable.buffer))
    (hkeeps.size (one_le_toNat_iff.mp (Nat.le_trans (by decide) husable.size)))
    (hkeeps.lifetime (by rw [hcycle]; exact husable.lifetime)) hkeeps.secret hkeeps.mode
    hkeeps.mask hkeeps.gateway

theorem normalize_eq_self : s.normalize = .ok s := by
  have houtcome := s.normalize_outcome
  generalize s.normalize = result at houtcome
  cases houtcome with
  | overflow hrange => exact absurd husable.inRange hrange
  | refused _ hsize =>
    exact absurd husable.size (Nat.not_le.mpr (UInt64.lt_iff_toNat_lt.mp hsize.2))
  | accepted _ hcompletes _ => rw [husable.eq_of_keeps hcompletes.toKeeps]

end Usable

/-- Normal settings are usable, keep everything that was usable before, and stay what they are when
they are normalised again. -/
theorem normalize_projects (h : s.normalize = .ok d) :
    d.Usable ∧ d.Keeps s ∧ d.normalize = .ok d :=
  ⟨usable_of_normalize h, (completes_of_normalize h).toKeeps,
    (usable_of_normalize h).normalize_eq_self⟩

/-- Settings that lack a fan-out and a cycle, and whose lifetime is as long as the cycle that they
are going to have. -/
def scarce : Settings :=
  { amount := 0, cycle := .zero, buffer := 7, size := 64, lifetime := .ofSeconds 6, mode := .xdp }

/-- They get both, and a lifetime; the buffer is not derived from the fan-out, as it is there. -/
theorem normalize_projects_scarce :
    ∃ d, scarce.normalize = .ok d ∧ d.amount = 30 ∧ d.cycle = .ofSeconds 6 ∧ d.buffer = 7 ∧
      d.size = 64 ∧ d.lifetime = .ofSeconds 32 ∧ d.Usable ∧ d.Keeps scarce ∧
      d.normalize = .ok d := by
  have h : scarce.normalize = .ok _ := rfl
  exact ⟨_, h, rfl, rfl, rfl, rfl, by decide, normalize_projects h⟩

end Settings

end Gossip
