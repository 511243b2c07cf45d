import Gossip.Proofs.Address.Digits

/-!
Which texts spell which addresses. An IPv4 address is spelled in one way, as it is written. An IPv6
address is spelled by its eight groups, each in hexadecimal of either case with or without zeros in
front, where the last two may be a dotted IPv4 address, and where a double colon may stand for one
or more zero groups. The parser takes exactly these texts.
-/

set_option autoImplicit false
set_option relaxedAutoImplicit false

namespace Gossip

theorem Ipv6.groups_inj {a b : Ipv6} : a.groups = b.groups ↔ a = b := by
  cases a
  cases b
  simp

namespace Address

/-! ### The grammar -/

/-- A text of at most four digits of either case, which are a group in hexadecimal behind zeros. -/
def SpellsGroup (cs : List Char) (g : UInt16) : Prop :=
  cs.length ≤ 4 ∧
    ∃ zeros, cs.map Char.toLower = List.replicate zeros '0' ++ hexadecimal g.toNat

/-- Groups with colons between them, the last two of which may be dotted. -/
inductive SpellsGroups : Bool → List Char → List UInt16 → Prop
  | last {cs : List Char} {g : UInt16} (hgroup : SpellsGroup cs g) : SpellsGroups false cs [g]
  | dotted (ip : Ipv4) : SpellsGroups true ip.chars [ip.highGroup, ip.lowGroup]
  | cons {cs text : List Char} {g : UInt16} {gs : List UInt16} {dotted : Bool}
      (hgroup : SpellsGroup cs g) (hrest : SpellsGroups dotted text gs) :
    SpellsGroups dotted (cs ++ ':' :: text) (g :: gs)

/-- What stands on one side of a double colon: nothing, or groups. -/
inductive SpellsSide : Bool → List Char → List UInt16 → Prop
  | empty : SpellsSide false [] []
  | groups {dotted : Bool} {cs : List Char} {gs : List UInt16}
      (hgroups : SpellsGroups dotted cs gs) : SpellsSide dotted cs gs

end Address

open Address

/-- All eight groups are spelled, or those on the two sides of a double colon, where only the last
groups of the text may be dotted. -/
inductive Ipv6.Spells : List Char → Ipv6 → Prop
  | full {cs : List Char} {ip : Ipv6} {dotted : Bool}
      (hgroups : SpellsGroups dotted cs ip.groups) : Spells cs ip
  | compressed {before after : List Char} {head tail : List UInt16} {ip : Ipv6} {dotted : Bool}
      {zeros : ℕ} (hhead : SpellsSide false before head) (htail : SpellsSide dotted after tail)
      (hzeros : 0 < zeros) (hgroups : ip.groups = head ++ List.replicate zeros 0 ++ tail) :
    Spells (before ++ ':' :: ':' :: after) ip

/-- A text spells an address. -/
def Ip.SpelledBy (ip : Ip) (text : String) : Prop :=
  match ip with
  | .v4 ip => text.toList = ip.chars
  | .v6 ip => Ipv6.Spells text.toList ip

theorem Ip.spelledBy_v4 {ip : Ipv4} {text : String} :
    (Ip.v4 ip).SpelledBy text ↔ text.toList = ip.chars := Iff.rfl

theorem Ip.spelledBy_v6 {ip : Ipv6} {text : String} :
    (Ip.v6 ip).SpelledBy text ↔ Ipv6.Spells text.toList ip := Iff.rfl

namespace Address

/-! ### Octets and groups -/

theorem char_eq_some {c : Char} {s rest : List Char} : char c s = some rest ↔ s = c :: rest := by
  unfold char
  cases s with
  | nil => simp
  | cons d s =>
    by_cases hd : d = c
    · simp [hd]
    · simp [hd]

theorem octet_eq_some {s rest : List Char} {o : UInt8} :
    octet s = some (o, rest) ↔ s = decimal o.toNat ++ rest ∧ Halts 10 rest := by
  unfold octet decimal
  rw [Option.map_eq_some_iff]
  constructor
  · rintro ⟨⟨n, rest'⟩, hn, ho⟩
    obtain ⟨rfl, rfl⟩ := Prod.mk.inj ho
    obtain ⟨cs, rfl, hnumber, hhalts⟩ := number_eq_some.mp hn
    obtain ⟨rfl, hlt⟩ := (isNumber_decimal_iff (by decide) (by decide)).mp hnumber
    rw [UInt8.toNat_ofNat_of_lt' hlt]
    exact ⟨rfl, hhalts⟩
  · rintro ⟨rfl, hhalts⟩
    refine ⟨(o.toNat, rest), number_eq_some.mpr ⟨_, rfl, ?_, hhalts⟩, by simp⟩
    exact (isNumber_decimal_iff (by decide) (by decide)).mpr ⟨rfl, o.toNat_lt⟩

theorem group_eq_some {s rest : List Char} {g : UInt16} :
    group s = some (g, rest) ↔ ∃ cs, s = cs ++ rest ∧ SpellsGroup cs g ∧ Halts 16 rest := by
  unfold group
  rw [Option.map_eq_some_iff]
  constructor
  · rintro ⟨⟨n, rest'⟩, hn, hg⟩
    obtain ⟨rfl, rfl⟩ := Prod.mk.inj hg
    obtain ⟨cs, rfl, hnumber, hhalts⟩ := number_eq_some.mp hn
    have hlt : n < 65536 := by
      obtain ⟨-, -, -, -, -, hlt, -⟩ := hnumber
      exact hlt
    refine ⟨cs, rfl, ?_, hhalts⟩
    unfold SpellsGroup hexadecimal
    rw [UInt16.toNat_ofNat_of_lt' hlt]
    exact (isNumber_hexadecimal_iff 4).mp hnumber
  · rintro ⟨cs, rfl, hgroup, hhalts⟩
    refine ⟨(g.toNat, rest), number_eq_some.mpr ⟨cs, rfl, ?_, hhalts⟩, by simp⟩
    exact (isNumber_hexadecimal_iff 4).mpr hgroup

theorem ipv4_eq_some {s rest : List Char} {ip : Ipv4} :
    ipv4 s = some (ip, rest) ↔ s = ip.chars ++ rest ∧ Halts 10 rest := by
  have hpoint (s : List Char) : Halts 10 ('.' :: s) := .cons (by decide) s
  unfold ipv4 Ipv4.chars
  simp only [Option.bind_eq_bind, Option.bind_eq_some_iff, Prod.exists, octet_eq_some, char_eq_some]
  constructor
  · rintro ⟨a, _, ⟨rfl, -⟩, _, rfl, b, _, ⟨rfl, -⟩, _, rfl, c, _, ⟨rfl, -⟩, _, rfl, d, _,
      ⟨rfl, hhalts⟩, hip⟩
    obtain ⟨rfl, rfl⟩ := Prod.mk.inj (Option.some.inj hip)
    exact ⟨by simp, hhalts⟩
  · rintro ⟨rfl, hhalts⟩
    exact ⟨ip.a, _, ⟨by simp, hpoint _⟩, _, rfl, ip.b, _, ⟨rfl, hpoint _⟩, _, rfl, ip.c, _,
      ⟨rfl, hpoint _⟩, _, rfl, ip.d, _, ⟨rfl, hhalts⟩, rfl⟩

theorem ipv4_eq_some_nil {s : List Char} {ip : Ipv4} : ipv4 s = some (ip, []) ↔ s = ip.chars := by
  rw [ipv4_eq_some, List.append_nil, and_iff_left halts_nil]

theorem SpellsGroup.exists_digits {cs : List Char} {g : UInt16} (h : SpellsGroup cs g) :
    cs ≠ [] ∧ ∃ ds, Digits 16 cs ds := by
  obtain ⟨ds, hdigits, -, hsome, -⟩ := (isNumber_hexadecimal_iff 4).mpr h
  refine ⟨?_, ds, hdigits⟩
  rintro rfl
  exact hsome (List.length_eq_zero_iff.mp hdigits.length_eq.symm)

/-! ### What groups end before -/

/-- Nothing, or a colon. -/
def Closed (s : List Char) : Prop := ∀ c ∈ s.head?, c = ':'

theorem closed_nil : Closed [] := fun _ hc ↦ absurd hc (by simp)

theorem closed_colon (s : List Char) : Closed (':' :: s) := by
  rintro _ ⟨⟩
  rfl

theorem Closed.halts {s : List Char} (h : Closed s) : Halts 10 s ∧ Halts 16 s := by
  constructor <;>
  · intro c hc
    rw [h c hc]
    decide

theorem digits_nil : ∃ ds, Digits 16 [] ds := ⟨[], .nil⟩

/-- Groups and their end are no IPv4 address, which has a point behind its first digits. -/
theorem ipv4_eq_none {cs rest : List Char} (hdigits : ∃ ds, Digits 16 cs ds)
    (hrest : Closed rest) : ipv4 (cs ++ rest) = none := by
  refine Option.eq_none_iff_forall_ne_some.mpr fun ⟨ip, after⟩ h ↦ ?_
  obtain ⟨ds, hdigits⟩ := hdigits
  obtain ⟨htext, -⟩ := ipv4_eq_some.mp h
  -- behind the digits of an IPv4 address stands a point, behind those of a group a colon or nothing
  let octets := decimal ip.b.toNat ++ '.' ::
    (decimal ip.c.toNat ++ '.' :: (decimal ip.d.toNat ++ after))
  have hpoint : ip.chars ++ after = decimal ip.a.toNat ++ '.' :: octets := by
    simp only [Ipv4.chars, List.append_assoc, List.cons_append, octets]
  have hhalts : Halts 16 ('.' :: octets) := .cons (by decide) octets
  obtain ⟨first, hfirst, -⟩ :
      ∃ ds, Digits 10 (decimal ip.a.toNat) ds ∧ value 10 ds = ip.a.toNat :=
    exists_digits_toDigits (by decide) (by decide) ip.a.toNat
  have hgroup := run_append hdigits hrest.halts.2
  have hoctet := run_append hfirst.of_decimal hhalts
  rw [htext, hpoint] at hgroup
  have hsame : rest = '.' :: octets := congrArg Prod.snd (hgroup.symm.trans hoctet)
  exact absurd (hrest '.' (by rw [hsame]; rfl)) (by decide)

theorem group_eq_none {s : List Char} (hs : Closed s) : group s = none := by
  refine Option.eq_none_iff_forall_ne_some.mpr fun ⟨g, rest⟩ h ↦ ?_
  obtain ⟨cs, rfl, hgroup, -⟩ := group_eq_some.mp h
  obtain ⟨hsome, ds, hdigits⟩ := hgroup.exists_digits
  cases cs with
  | nil => exact hsome rfl
  | cons c cs =>
    have hc : c = ':' := hs c rfl
    have hcolon : digit? 16 ':' = none := by decide
    cases hdigits with
    | cons hd _ =>
      rw [hc, hcolon] at hd
      exact absurd hd (by simp)

/-! ### Sequences of groups -/

/-- What stands in front of a group. -/
def lead (first : Bool) : List Char := if first then [] else [':']

theorem separated_eq_some {α : Type} {first : Bool} {parser : Parser α} {s : List Char}
    {r : α × List Char} :
    separated first parser s = some r ↔ ∃ t, s = lead first ++ t ∧ parser t = some r := by
  unfold separated lead
  cases first with
  | true => simp
  | false =>
    cases hchar : char ':' s with
    | none =>
      have hno (t : List Char) : s ≠ ':' :: t := fun h ↦
        absurd (hchar.symm.trans (char_eq_some.mpr h)) (by simp)
      simp [hno]
    | some t =>
      rw [char_eq_some] at hchar
      simp [hchar]

theorem separated_lead {α : Type} (first : Bool) (parser : Parser α) (s : List Char) :
    separated first parser (lead first ++ s) = parser s := by
  cases first <;> rfl

theorem separated_eq_none {α : Type} {first : Bool} {parser : Parser α} {s : List Char}
    (h : ∀ t, s = lead first ++ t → parser t = none) : separated first parser s = none := by
  refine Option.eq_none_iff_forall_ne_some.mpr fun r hr ↦ ?_
  obtain ⟨t, hs, ht⟩ := separated_eq_some.mp hr
  rw [h t hs] at ht
  exact absurd ht (by simp)

/-- No group is read where none begins. -/
theorem groups_of_closed {first : Bool} {s : List Char} (h : ∀ t, s = lead first ++ t → Closed t)
    (room : ℕ) : groups room first s = ([], false, s) := by
  cases room with
  | zero => rfl
  | succ room =>
    have hdotted : (if room = 0 then none else separated first ipv4 s) = none := by
      split
      · rfl
      · exact separated_eq_none fun t ht ↦ ipv4_eq_none digits_nil (h t ht)
    unfold groups
    rw [hdotted, separated_eq_none fun t ht ↦ group_eq_none (h t ht)]

/-- The end of a text, or a double colon. -/
def Ended (s : List Char) : Prop := s = [] ∨ ∃ t, s = ':' :: ':' :: t

theorem Ended.closed {s : List Char} (h : Ended s) : Closed s := by
  rcases h with rfl | ⟨t, rfl⟩
  · exact closed_nil
  · exact closed_colon _

theorem Ended.groups_eq {s : List Char} (h : Ended s) (room : ℕ) :
    groups room false s = ([], false, s) := by
  refine groups_of_closed (fun t ht ↦ ?_) room
  rcases h with rfl | ⟨t', rfl⟩
  · exact absurd ht (by simp [lead])
  · have htail : ':' :: t' = t := (List.cons.inj ht).2
    exact htail ▸ closed_colon t'

theorem groups_group {room : ℕ} {first : Bool} {cs rest : List Char} {g : UInt16}
    (hgroup : SpellsGroup cs g) (hrest : Closed rest) :
    groups (room + 1) first (lead first ++ (cs ++ rest)) =
      (g :: (groups room false rest).1, (groups room false rest).2) := by
  have hdigits := hgroup.exists_digits.2
  have hdotted : (if room = 0 then none
      else separated first ipv4 (lead first ++ (cs ++ rest))) = none := by
    split
    · rfl
    · rw [separated_lead]
      exact ipv4_eq_none hdigits hrest
  rw [groups, hdotted, separated_lead, group_eq_some.mpr ⟨cs, rfl, hgroup, hrest.halts.2⟩]

/-- Groups that are spelled are read, as far as there is room for them. -/
theorem groups_of_spells {dotted : Bool} {text : List Char} {gs : List UInt16}
    (hspells : SpellsGroups dotted text gs) {room : ℕ} (hroom : gs.length ≤ room) (first : Bool)
    {rest : List Char} (hrest : Ended rest) :
    groups room first (lead first ++ (text ++ rest)) = (gs, dotted, rest) := by
  induction hspells generalizing room first with
  | last hgroup =>
    obtain ⟨room, rfl⟩ := Nat.exists_eq_add_of_le' hroom
    rw [List.length_singleton, groups_group hgroup hrest.closed, hrest.groups_eq]
  | dotted ip =>
    obtain ⟨room, rfl⟩ := Nat.exists_eq_add_of_le' hroom
    show groups (room + 1 + 1) first _ = _
    rw [groups, if_neg (Nat.succ_ne_zero room), separated_lead,
      ipv4_eq_some.mpr ⟨rfl, hrest.closed.halts.1⟩]
  | @cons cs text g gs dotted hgroup hspells ih =>
    rw [List.length_cons] at hroom
    obtain ⟨room, rfl⟩ := Nat.exists_eq_add_of_le' hroom
    have hsplit : cs ++ ':' :: text ++ rest = cs ++ (':' :: (text ++ rest)) := by simp
    have hnext : groups (room + gs.length) false (':' :: (text ++ rest)) = (gs, dotted, rest) :=
      ih (Nat.le_add_left _ _) false
    rw [← Nat.add_assoc, hsplit, groups_group hgroup (closed_colon _), hnext]

theorem groups_of_side {dotted : Bool} {text : List Char} {gs : List UInt16}
    (hside : SpellsSide dotted text gs) {room : ℕ} (hroom : gs.length ≤ room) {rest : List Char}
    (hrest : Ended rest) : groups room true (text ++ rest) = (gs, dotted, rest) := by
  cases hside with
  | empty =>
    refine groups_of_closed (fun t ht ↦ ?_) room
    have hsame : rest = t := ht
    exact hsame ▸ hrest.closed
  | groups hgroups => exact groups_of_spells hgroups hroom true hrest

/-- Groups that are read are spelled. -/
theorem spells_of_groups {room : ℕ} {first dotted : Bool} {s rest : List Char} {gs : List UInt16}
    (h : groups room first s = (gs, dotted, rest)) :
    gs.length ≤ room ∧ (gs = [] ∧ dotted = false ∧ rest = s ∨
      ∃ text, SpellsGroups dotted text gs ∧ s = lead first ++ (text ++ rest)) := by
  induction room generalizing first s gs dotted rest with
  | zero =>
    obtain ⟨rfl, hrest⟩ := Prod.mk.inj h
    obtain ⟨rfl, rfl⟩ := Prod.mk.inj hrest
    exact ⟨Nat.le_refl _, Or.inl ⟨rfl, rfl, rfl⟩⟩
  | succ room ih =>
    unfold groups at h
    split at h
    next ip after hdotted =>
      obtain ⟨rfl, hrest⟩ := Prod.mk.inj h
      obtain ⟨rfl, rfl⟩ := Prod.mk.inj hrest
      split at hdotted
      · exact absurd hdotted (by simp)
      next hroom =>
        obtain ⟨t, rfl, ht⟩ := separated_eq_some.mp hdotted
        obtain ⟨rfl, -⟩ := ipv4_eq_some.mp ht
        exact ⟨Nat.succ_le_succ (Nat.pos_of_ne_zero hroom), Or.inr ⟨_, .dotted ip, rfl⟩⟩
    · split at h
      next g after hgroup =>
        obtain ⟨t, rfl, ht⟩ := separated_eq_some.mp hgroup
        obtain ⟨cs, rfl, hspells, -⟩ := group_eq_some.mp ht
        cases hmore : groups room false after with
        | mk more last =>
          obtain ⟨dotted', rest'⟩ := last
          rw [hmore] at h
          obtain ⟨rfl, hlast⟩ := Prod.mk.inj h
          obtain ⟨rfl, rfl⟩ := Prod.mk.inj hlast
          obtain ⟨hlength, hcases⟩ := ih hmore
          refine ⟨Nat.succ_le_succ hlength, Or.inr ?_⟩
          rcases hcases with ⟨rfl, rfl, rfl⟩ | ⟨text, htext, rfl⟩
          · exact ⟨cs, .last hspells, rfl⟩
          · exact ⟨cs ++ ':' :: text, .cons hspells htext, by simp [lead]⟩
      · obtain ⟨rfl, hrest⟩ := Prod.mk.inj h
        obtain ⟨rfl, rfl⟩ := Prod.mk.inj hrest
        exact ⟨Nat.zero_le _, Or.inl ⟨rfl, rfl, rfl⟩⟩

theorem side_of_groups {room : ℕ} {dotted : Bool} {s rest : List Char} {gs : List UInt16}
    (h : groups room true s = (gs, dotted, rest)) :
    gs.length ≤ room ∧ ∃ text, SpellsSide dotted text gs ∧ s = text ++ rest := by
  obtain ⟨hlength, hcases⟩ := spells_of_groups h
  refine ⟨hlength, ?_⟩
  rcases hcases with ⟨rfl, rfl, rfl⟩ | ⟨text, htext, rfl⟩
  · exact ⟨[], .empty, rfl⟩
  · exact ⟨text, .groups htext, rfl⟩

/-! ### Whole addresses -/

theorem ofList?_eq_some {gs : List UInt16} {ip : Ipv6} :
    Ipv6.ofList? gs = some ip ↔ gs = ip.groups := by
  unfold Ipv6.ofList?
  split
  next hlength => rw [Option.some.injEq, ← Ipv6.groups_inj]
  next hlength =>
    simp only [reduceCtorEq, false_iff]
    rintro rfl
    exact hlength ip.length_eq

theorem ipv6_of_spells {s : List Char} {ip : Ipv6} (h : Ipv6.Spells s ip) :
    ipv6 s = some (ip, []) := by
  cases h with
  | full hgroups =>
    have hhead := groups_of_side (.groups hgroups) (Nat.le_of_eq ip.length_eq) (.inl rfl)
    rw [List.append_nil] at hhead
    unfold ipv6
    simp only [hhead]
    rw [if_pos ip.length_eq, ofList?_eq_some.mpr rfl]
    rfl
  | @compressed before after head tail ip dotted zeros hhead htail hzeros hgroups =>
    have hlength := ip.length_eq
    rw [hgroups, List.length_append, List.length_append, List.length_replicate] at hlength
    have hfew : head.length ≠ 8 := by omega
    have hbefore : groups 8 true (before ++ ':' :: ':' :: after) =
        (head, false, ':' :: ':' :: after) :=
      groups_of_side hhead (by omega) (.inr ⟨after, rfl⟩)
    have hafter : groups (7 - head.length) true (after ++ []) = (tail, dotted, []) :=
      groups_of_side htail (by omega) (.inl rfl)
    have hmissing : 8 - head.length - tail.length = zeros := by omega
    rw [List.append_nil] at hafter
    unfold ipv6
    simp only [hbefore, char, if_true, hafter, hmissing]
    rw [if_neg hfew, ofList?_eq_some.mpr hgroups.symm]
    rfl

theorem spells_of_ipv6 {s : List Char} {ip : Ipv6} (h : ipv6 s = some (ip, [])) :
    Ipv6.Spells s ip := by
  unfold ipv6 at h
  generalize hhead : groups 8 true s = read at h
  obtain ⟨head, dotted, rest⟩ := read
  obtain ⟨hroom, before, hbefore, rfl⟩ := side_of_groups hhead
  dsimp only at h
  split at h
  next hfull =>
    obtain ⟨ip', hip, hrest⟩ := Option.map_eq_some_iff.mp h
    obtain ⟨rfl, rfl⟩ := Prod.mk.inj hrest
    have hsame : head = ip'.groups := ofList?_eq_some.mp hip
    rw [List.append_nil]
    cases hbefore with
    | empty => exact absurd hfull (by simp)
    | groups hgroups => exact .full (hsame ▸ hgroups)
  next hfew =>
    split at h
    · exact absurd h (by simp)
    next hplain =>
      split at h
      · exact absurd h (by simp)
      next behind hcolon =>
        split at h
        · exact absurd h (by simp)
        next after hcolons =>
          rw [char_eq_some] at hcolon hcolons
          subst hcolon hcolons
          generalize htail : groups (7 - head.length) true after = read at h
          obtain ⟨tail, dotted', rest⟩ := read
          obtain ⟨ip', hip, hrest⟩ := Option.map_eq_some_iff.mp h
          obtain ⟨rfl, rfl⟩ := Prod.mk.inj hrest
          obtain ⟨hless, text, htext, rfl⟩ := side_of_groups htail
          have hgroups : head ++ List.replicate (8 - head.length - tail.length) 0 ++ tail =
              ip'.groups := ofList?_eq_some.mp hip
          have hmissing : 0 < 8 - head.length - tail.length := by omega
          rw [Bool.not_eq_true] at hplain
          rw [List.append_nil]
          exact .compressed (hplain ▸ hbefore) htext hmissing hgroups.symm

theorem ipv6_eq_some {s : List Char} {ip : Ipv6} : ipv6 s = some (ip, []) ↔ Ipv6.Spells s ip :=
  ⟨spells_of_ipv6, ipv6_of_spells⟩

/-- Groups are no IPv4 address, unless they are two that are dotted. -/
theorem ipv4_spellsGroups {dotted : Bool} {text rest : List Char} {gs : List UInt16}
    (h : SpellsGroups dotted text gs) (hplain : dotted = true → gs.length ≠ 2)
    (hrest : Closed rest) : ipv4 (text ++ rest) = none := by
  cases h with
  | last hgroup => exact ipv4_eq_none hgroup.exists_digits.2 hrest
  | dotted ip => exact absurd rfl (hplain rfl)
  | cons hgroup hspells =>
    rw [List.append_assoc]
    exact ipv4_eq_none hgroup.exists_digits.2 (closed_colon _)

theorem ipv4_spells {s : List Char} {ip : Ipv6} (h : Ipv6.Spells s ip) : ipv4 s = none := by
  cases h with
  | full hgroups =>
    have hnone := ipv4_spellsGroups hgroups (fun _ ↦ by simp [ip.length_eq]) closed_nil
    rwa [List.append_nil] at hnone
  | compressed hhead =>
    cases hhead with
    | empty => exact ipv4_eq_none digits_nil (closed_colon _)
    | groups hgroups => exact ipv4_spellsGroups hgroups (by simp) (closed_colon _)

theorem whole_eq_some {α : Type} {parser : Parser α} {text : String} {a : α} :
    whole parser text = some a ↔ parser text.toList = some (a, []) := by
  unfold whole
  split
  next a' h => simp [h]
  next h =>
    simp only [reduceCtorEq, false_iff]
    exact fun ha ↦ h a ha

end Address

/-- The texts that are accepted for an address are those that spell it. -/
theorem Ip.parse?_eq_some {text : String} {ip : Ip} :
    Ip.parse? text = some ip ↔ ip.SpelledBy text := by
  unfold Ip.parse?
  rw [whole_eq_some, Address.ip]
  cases hv4 : ipv4 text.toList with
  | some read =>
    obtain ⟨four, rest⟩ := read
    cases ip with
    | v4 ip =>
      rw [Ip.spelledBy_v4, ← ipv4_eq_some_nil, hv4]
      simp
    | v6 ip =>
      simp only [Option.some.injEq, Prod.mk.injEq, reduceCtorEq, false_and, false_iff]
      intro hspells
      rw [ipv4_spells hspells] at hv4
      exact absurd hv4 (by simp)
  | none =>
    cases ip with
    | v4 ip =>
      rw [Ip.spelledBy_v4, ← ipv4_eq_some_nil, hv4]
      simp
    | v6 ip =>
      rw [Ip.spelledBy_v6, ← ipv6_eq_some]
      simp

end Gossip
