import Gossip.Address.Parser
import Mathlib.Algebra.Ring.Nat
import Mathlib.Data.List.Forall2
import Mathlib.Data.List.Induction

/-!
Numbers in the texts of addresses. A number is read up to the first character that is no digit of
its base. An octet is read from its decimal form and from no other text; a group is read from at
most four digits of either case, which are its hexadecimal form behind zeros.
-/

set_option autoImplicit false
set_option relaxedAutoImplicit false

namespace Gossip.Address

/-! ### Single digits -/

theorem hexDigit?_digitChar : ∀ d < 16, hexDigit? (Nat.digitChar d) = some d := by decide

theorem of_ascii {p : Char → Prop} (h : ∀ n < 128, p (Char.ofNat n)) {c : Char}
    (hc : c.toNat < 128) : p c := by
  have hp := h c.toNat hc
  rwa [Char.ofNat_toNat] at hp

theorem toNat_lt_of_hexDigit? {c : Char} {d : ℕ} (h : hexDigit? c = some d) : c.toNat < 128 := by
  unfold hexDigit? at h
  dsimp only at h
  split at h
  · omega
  · split at h
    · omega
    · split at h
      · omega
      · exact absurd h (by simp)

/-- A digit is worth what its lower case spells. -/
theorem toLower_of_hexDigit? {c : Char} {d : ℕ} (h : hexDigit? c = some d) :
    c.toLower = Nat.digitChar d ∧ d < 16 := by
  have hall : ∀ n < 128, ∀ d ∈ hexDigit? (Char.ofNat n),
      (Char.ofNat n).toLower = Nat.digitChar d ∧ d < 16 := by
    decide +kernel
  exact of_ascii (p := fun c ↦ ∀ d ∈ hexDigit? c, c.toLower = Nat.digitChar d ∧ d < 16) hall
    (toNat_lt_of_hexDigit? h) d h

theorem hexDigit?_toLower (c : Char) : hexDigit? c.toLower = hexDigit? c := by
  by_cases hupper : c.val ≥ 'A'.val ∧ c.val ≤ 'Z'.val
  · have hall : ∀ n < 128, hexDigit? (Char.ofNat n).toLower = hexDigit? (Char.ofNat n) := by
      decide +kernel
    exact of_ascii (p := fun c ↦ hexDigit? c.toLower = hexDigit? c) hall
      (Nat.lt_of_le_of_lt hupper.2 (by decide))
  · exact congrArg hexDigit? (dif_neg hupper)

section Bases

variable {base : ℕ}

theorem digit?_eq_some {c : Char} {d : ℕ} :
    digit? base c = some d ↔ hexDigit? c = some d ∧ d < base := by
  unfold digit?
  split
  next n hn =>
    rw [hn]
    split
    next hlt =>
      simp only [Option.some.injEq, iff_self_and]
      rintro rfl
      exact hlt
    next hge =>
      simp only [reduceCtorEq, Option.some.injEq, false_iff, not_and]
      rintro rfl
      exact hge
  next hn => simp [hn]

theorem digit?_toLower (c : Char) : digit? base c.toLower = digit? base c := by
  unfold digit?
  rw [hexDigit?_toLower]

theorem digit?_digitChar (hbase : base ≤ 16) {d : ℕ} (hd : d < base) :
    digit? base (Nat.digitChar d) = some d :=
  digit?_eq_some.mpr ⟨hexDigit?_digitChar d (Nat.lt_of_lt_of_le hd hbase), hd⟩

/-! ### Runs of digits -/

/-- Characters are digits of a base that are worth some numbers. -/
def Digits (base : ℕ) (cs : List Char) (ds : List ℕ) : Prop :=
  List.Forall₂ (fun c d ↦ digit? base c = some d) cs ds

/-- A text does not begin with a digit. -/
def Halts (base : ℕ) (s : List Char) : Prop := ∀ c ∈ s.head?, digit? base c = none

/-- The number that digits are worth together. -/
def value (base : ℕ) (ds : List ℕ) : ℕ := ds.foldl (fun n d ↦ n * base + d) 0

theorem halts_nil : Halts base [] := fun _ hc ↦ absurd hc (by simp)

theorem Halts.cons {c : Char} (hc : digit? base c = none) (s : List Char) :
    Halts base (c :: s) := by
  rintro _ ⟨⟩
  exact hc

theorem run_append {cs rest : List Char} {ds : List ℕ} (hdigits : Digits base cs ds)
    (hrest : Halts base rest) : run base (cs ++ rest) = (ds, rest) := by
  induction hdigits with
  | nil =>
    cases rest with
    | nil => rfl
    | cons c rest => rw [List.nil_append, run, hrest c rfl]
  | cons hd _ ih => rw [List.cons_append, run, hd, ih]

theorem exists_digits_run (base : ℕ) (s : List Char) :
    ∃ cs, s = cs ++ (run base s).2 ∧ Digits base cs (run base s).1 ∧ Halts base (run base s).2 := by
  induction s with
  | nil => exact ⟨[], rfl, .nil, halts_nil⟩
  | cons c rest ih =>
    rw [run]
    cases hc : digit? base c with
    | none => exact ⟨[], rfl, .nil, .cons hc rest⟩
    | some d =>
      obtain ⟨cs, hrest, hdigits, hhalts⟩ := ih
      exact ⟨c :: cs, congrArg (c :: ·) hrest, .cons hc hdigits, hhalts⟩

theorem value_concat (base : ℕ) (ds : List ℕ) (d : ℕ) :
    value base (ds ++ [d]) = value base ds * base + d := by
  unfold value
  rw [List.foldl_append]
  rfl

theorem value_zero_cons (base : ℕ) (ds : List ℕ) : value base (0 :: ds) = value base ds := by
  unfold value
  rw [List.foldl_cons, Nat.zero_mul]

theorem value_lt {ds : List ℕ} (hds : ∀ d ∈ ds, d < base) : value base ds < base ^ ds.length := by
  induction ds using List.reverseRecOn with
  | nil => exact Nat.one_pos
  | append_singleton ds d ih =>
    have hearlier := ih fun d hd ↦ hds d (List.mem_append_left _ hd)
    have hd := hds d (List.mem_append_right _ List.mem_cons_self)
    rw [value_concat, List.length_append, List.length_singleton, Nat.pow_succ]
    calc value base ds * base + d < value base ds * base + base := Nat.add_lt_add_left hd _
      _ = (value base ds + 1) * base := (Nat.succ_mul _ _).symm
      _ ≤ base ^ ds.length * base := Nat.mul_le_mul_right base hearlier

/-- Digits are the form of the number that they are worth, behind zeros. -/
theorem exists_zeros_map_digitChar (hbase : 1 < base) {ds : List ℕ} (hds : ∀ d ∈ ds, d < base)
    (hsome : ds ≠ []) : ∃ zeros, ds.map Nat.digitChar =
      List.replicate zeros '0' ++ Nat.toDigits base (value base ds) := by
  induction ds using List.reverseRecOn with
  | nil => exact absurd rfl hsome
  | append_singleton ds d ih =>
    have hd := hds d (List.mem_append_right _ List.mem_cons_self)
    rw [List.map_append, value_concat]
    by_cases hnil : ds = []
    · subst hnil
      refine ⟨0, ?_⟩
      have hfirst : value base [] * base + d = d := by simp [value]
      rw [hfirst, Nat.toDigits_of_lt_base hd]
      rfl
    · obtain ⟨zeros, hzeros⟩ := ih (fun d hd ↦ hds d (List.mem_append_left _ hd)) hnil
      rw [hzeros]
      by_cases hvalue : value base ds = 0
      · -- the zero that is written for what stands in front is one more zero in front
        refine ⟨zeros + 1, ?_⟩
        rw [hvalue, Nat.zero_mul, Nat.zero_add, Nat.toDigits_zero, Nat.toDigits_of_lt_base hd,
          List.replicate_succ']
        rfl
      · refine ⟨zeros, ?_⟩
        have hnext := Nat.toDigits_append_toDigits hbase (Nat.pos_of_ne_zero hvalue) hd
        rw [Nat.toDigits_of_lt_base hd, Nat.mul_comm] at hnext
        rw [List.append_assoc, List.map_singleton, hnext]

/-- A written number is read as its digits. -/
theorem exists_digits_toDigits (hbase : 1 < base) (hlarge : base ≤ 16) (n : ℕ) :
    ∃ ds, Digits base (Nat.toDigits base n) ds ∧ value base ds = n := by
  induction n using Nat.strongRecOn with
  | ind n ih =>
    by_cases hn : n < base
    · refine ⟨[n], ?_, by simp [value]⟩
      rw [Nat.toDigits_of_lt_base hn]
      exact .cons (digit?_digitChar hlarge hn) .nil
    · have hle := Nat.not_lt.mp hn
      have hpos : 0 < n := Nat.lt_of_lt_of_le (Nat.lt_trans Nat.one_pos hbase) hle
      obtain ⟨ds, hdigits, hvalue⟩ := ih (n / base) (Nat.div_lt_self hpos hbase)
      have hlast := Nat.mod_lt n (Nat.lt_trans Nat.one_pos hbase)
      refine ⟨ds ++ [n % base], ?_, ?_⟩
      · rw [Nat.toDigits_of_base_le hbase hle]
        exact List.rel_append hdigits (.cons (digit?_digitChar hlarge hlast) .nil)
      · rw [value_concat, hvalue, Nat.div_add_mod']

theorem exists_digits_replicate (hbase : 1 < base) (hlarge : base ≤ 16) (zeros n : ℕ) :
    ∃ ds, Digits base (List.replicate zeros '0' ++ Nat.toDigits base n) ds ∧ value base ds = n := by
  induction zeros with
  | zero => exact exists_digits_toDigits hbase hlarge n
  | succ zeros ih =>
    obtain ⟨ds, hdigits, hvalue⟩ := ih
    have hzero := digit?_digitChar hlarge (Nat.lt_trans Nat.one_pos hbase)
    exact ⟨0 :: ds, .cons hzero hdigits, (value_zero_cons base ds).trans hvalue⟩

theorem Digits.map_toLower {cs : List Char} {ds : List ℕ} (h : Digits base cs ds) :
    cs.map Char.toLower = ds.map Nat.digitChar ∧ ∀ d ∈ ds, d < base := by
  induction h with
  | nil => exact ⟨rfl, by simp⟩
  | cons hd _ ih =>
    obtain ⟨hlower, hlt⟩ := ih
    obtain ⟨hhex, hbound⟩ := digit?_eq_some.mp hd
    refine ⟨?_, List.forall_mem_cons.mpr ⟨hbound, hlt⟩⟩
    rw [List.map_cons, hlower, (toLower_of_hexDigit? hhex).1]
    rfl

/-- The case of digits does not matter. -/
theorem digits_map_toLower {cs : List Char} {ds : List ℕ} :
    Digits base (cs.map Char.toLower) ds ↔ Digits base cs ds := by
  unfold Digits
  rw [List.forall₂_map_left_iff]
  simp only [digit?_toLower]

/-! ### Numbers -/

/-- A text is a number of at least one digit and at most `most`, below a bound. Zeros in front of
another digit are allowed or not. -/
def IsNumber (base most bound : ℕ) (zeros : Bool) (cs : List Char) (n : ℕ) : Prop :=
  ∃ ds, Digits base cs ds ∧ value base ds = n ∧ ds ≠ [] ∧ ds.length ≤ most ∧ n < bound ∧
    (zeros = false → ds.head? = some 0 → ds.length ≤ 1)

theorem number_eq_some {most bound n : ℕ} {zeros : Bool} {s rest : List Char} :
    number base most bound zeros s = some (n, rest) ↔
      ∃ cs, s = cs ++ rest ∧ IsNumber base most bound zeros cs n ∧ Halts base rest := by
  have hnumber : number base most bound zeros s =
      if (run base s).1 = [] ∨ most < (run base s).1.length ∨ bound ≤ value base (run base s).1 then
        none
      else if zeros = false ∧ (run base s).1.head? = some 0 ∧ 1 < (run base s).1.length then none
      else some (value base (run base s).1, (run base s).2) := rfl
  constructor
  · intro h
    obtain ⟨cs, hs, hdigits, hhalts⟩ := exists_digits_run base s
    rw [hnumber] at h
    split at h
    · exact absurd h (by simp)
    next hsize =>
      split at h
      · exact absurd h (by simp)
      next hzeros =>
        obtain ⟨hvalue, hrest⟩ := Prod.mk.inj (Option.some.inj h)
        rw [not_or, not_or, Nat.not_lt, Nat.not_le] at hsize
        refine ⟨cs, hrest ▸ hs, ⟨_, hdigits, hvalue, hsize.1, hsize.2.1, ?_, fun hfalse hzero ↦ ?_⟩,
          hrest ▸ hhalts⟩
        · exact hvalue ▸ hsize.2.2
        · exact Nat.not_lt.mp fun hlong ↦ hzeros ⟨hfalse, hzero, hlong⟩
  · rintro ⟨cs, rfl, ⟨ds, hdigits, hvalue, hsome, hmost, hbound, hzeros⟩, hhalts⟩
    rw [hnumber, run_append hdigits hhalts, if_neg, if_neg, hvalue]
    · rintro ⟨hfalse, hzero, hlong⟩
      exact absurd (hzeros hfalse hzero) (Nat.not_le.mpr hlong)
    · rw [hvalue]
      rintro (hnil | hlong | hlarge)
      · exact hsome hnil
      · exact absurd hmost (Nat.not_le.mpr hlong)
      · exact absurd hbound (Nat.not_lt.mpr hlarge)

/-- A number of more digits than one is not written with a zero in front, which would leave it with
fewer digits. -/
theorem length_le_one_of_head_zero (hbase : 1 < base) {n : ℕ} {ds : List ℕ}
    (hdigits : Digits base (Nat.toDigits base n) ds) (hvalue : value base ds = n)
    (hzero : ds.head? = some 0) : ds.length ≤ 1 := by
  cases ds with
  | nil => exact Nat.zero_le _
  | cons d ds =>
    obtain rfl : d = 0 := Option.some.inj hzero
    have hsmall : value base ds < base ^ ds.length :=
      value_lt fun d hd ↦ hdigits.map_toLower.2 d (List.mem_cons_of_mem _ hd)
    rw [value_zero_cons] at hvalue
    rw [hvalue] at hsmall
    by_contra hlong
    have hsome : 0 < ds.length := by
      rw [List.length_cons] at hlong
      omega
    have hfewer := (Nat.length_toDigits_le_iff hbase hsome).mpr hsmall
    rw [hdigits.length_eq, List.length_cons] at hfewer
    omega

theorem isNumber_toDigits (hbase : 1 < base) (hlarge : base ≤ 16) {most bound n : ℕ} (zeros : Bool)
    (hmost : 0 < most) (hfew : n < base ^ most) (hbound : n < bound) :
    IsNumber base most bound zeros (Nat.toDigits base n) n := by
  obtain ⟨ds, hdigits, hvalue⟩ := exists_digits_toDigits hbase hlarge n
  refine ⟨ds, hdigits, hvalue, ?_, ?_, hbound, fun _ ↦ ?_⟩
  · rintro rfl
    exact absurd hdigits.length_eq.symm (Nat.ne_of_lt Nat.length_toDigits_pos)
  · rwa [← hdigits.length_eq, Nat.length_toDigits_le_iff hbase hmost]
  · exact length_le_one_of_head_zero hbase hdigits hvalue

end Bases

theorem eq_digitChar_of_decimal {c : Char} {d : ℕ} (h : digit? 10 c = some d) :
    c = Nat.digitChar d := by
  have hall : ∀ n < 128, ∀ d ∈ digit? 10 (Char.ofNat n), Char.ofNat n = Nat.digitChar d := by
    decide +kernel
  exact of_ascii (p := fun c ↦ ∀ d ∈ digit? 10 c, c = Nat.digitChar d) hall
    (toNat_lt_of_hexDigit? (digit?_eq_some.mp h).1) d h

theorem Digits.eq_of_decimal {cs : List Char} {ds : List ℕ} (h : Digits 10 cs ds) :
    cs = ds.map Nat.digitChar := by
  induction h with
  | nil => rfl
  | cons hd _ ih => rw [List.map_cons, ← ih, ← eq_digitChar_of_decimal hd]

/-- Decimal digits are hexadecimal digits. -/
theorem Digits.of_decimal {cs : List Char} {ds : List ℕ} (h : Digits 10 cs ds) :
    Digits 16 cs ds := by
  refine h.imp fun c d hd ↦ ?_
  obtain ⟨hhex, hlt⟩ := digit?_eq_some.mp hd
  exact digit?_eq_some.mpr ⟨hhex, Nat.lt_of_lt_of_le hlt (by decide)⟩

/-- A number in decimal without zeros in front is written in one way. -/
theorem isNumber_decimal_iff {most bound n : ℕ} {cs : List Char} (hbound : bound ≤ 10 ^ most)
    (hmost : 0 < most) :
    IsNumber 10 most bound false cs n ↔ cs = Nat.toDigits 10 n ∧ n < bound := by
  constructor
  · rintro ⟨ds, hdigits, rfl, hsome, -, hlt, hzeros⟩
    refine ⟨?_, hlt⟩
    obtain ⟨zeros, hpadded⟩ :=
      exists_zeros_map_digitChar (by decide) hdigits.map_toLower.2 hsome
    rw [hdigits.eq_of_decimal, hpadded]
    cases zeros with
    | zero => rfl
    | succ zeros =>
      have hhead : ds.head? = some 0 := by
        cases ds with
        | nil => exact absurd rfl hsome
        | cons d ds =>
          have hzero : Nat.digitChar d = '0' := (List.cons.inj hpadded).1
          rw [Nat.digitChar_eq_zero.mp hzero]
          rfl
      have hlength := congrArg List.length hpadded
      rw [List.length_map, List.length_append, List.length_replicate] at hlength
      have hpos := Nat.length_toDigits_pos (b := 10) (n := value 10 ds)
      have hone := hzeros rfl hhead
      omega
  · rintro ⟨rfl, hlt⟩
    exact isNumber_toDigits (by decide) (by decide) false hmost (Nat.lt_of_lt_of_le hlt hbound) hlt

/-- A number in hexadecimal is written in either case and behind zeros, as far as there is room. -/
theorem isNumber_hexadecimal_iff (most : ℕ) {n : ℕ} {cs : List Char} :
    IsNumber 16 most (16 ^ most) true cs n ↔ cs.length ≤ most ∧
      ∃ zeros, cs.map Char.toLower = List.replicate zeros '0' ++ Nat.toDigits 16 n := by
  constructor
  · rintro ⟨ds, hdigits, rfl, hsome, hmost, -, -⟩
    refine ⟨hdigits.length_eq ▸ hmost, ?_⟩
    obtain ⟨hlower, hlt⟩ := hdigits.map_toLower
    rw [hlower]
    exact exists_zeros_map_digitChar (by decide) hlt hsome
  · rintro ⟨hmost, zeros, hlower⟩
    obtain ⟨ds, hdigits, hvalue⟩ :=
      exists_digits_replicate (show 1 < 16 by decide) (by decide) zeros n
    rw [← hlower, digits_map_toLower] at hdigits
    have hlength := hdigits.length_eq
    refine ⟨ds, hdigits, hvalue, ?_, hlength ▸ hmost, ?_, fun hfalse ↦ absurd hfalse (by decide)⟩
    · rintro rfl
      have hlong := congrArg List.length hlower
      rw [List.length_map, List.length_append, hlength] at hlong
      have hpos := Nat.length_toDigits_pos (b := 16) (n := n)
      rw [List.length_nil] at hlong
      omega
    · rw [← hvalue]
      exact Nat.lt_of_lt_of_le (value_lt hdigits.map_toLower.2)
        (Nat.pow_le_pow_right (by decide) (hlength ▸ hmost))

end Gossip.Address
