import Gossip.CommandLine
import Gossip.Proofs.Address.Spelling

/-!
Addresses as they are written. What is written for an address spells it: the groups that give way
to a double colon are zero, and a mapped address has its dotted form behind the group that marks
it. An address is therefore read back from its text, and the members that a command line makes of
addresses resolve to these addresses.
-/

set_option autoImplicit false
set_option relaxedAutoImplicit false

namespace Gossip

/-! ### Mapped addresses -/

namespace Ipv4

/-- An IPv4 address among the IPv6 addresses. -/
def mapped (ip : Ipv4) : Ipv6 := ⟨[0, 0, 0, 0, 0, 0xFFFF, ip.highGroup, ip.lowGroup], rfl⟩

/-- Two octets are the halves of the group that they form. -/
theorem group_of_octets {high low : UInt8} {g : UInt16} :
    (UInt8.ofNat (g.toNat / 256) = high ∧ UInt8.ofNat (g.toNat % 256) = low) ↔
      g = .ofNat (high.toNat * 256 + low.toNat) := by
  have hhigh := high.toNat_lt
  have hlow := low.toNat_lt
  have hg := g.toNat_lt
  rw [← UInt8.toNat_inj, ← UInt8.toNat_inj, ← UInt16.toNat_inj,
    UInt8.toNat_ofNat_of_lt' (show g.toNat / 256 < 256 by omega),
    UInt8.toNat_ofNat_of_lt' (show g.toNat % 256 < 256 by omega),
    UInt16.toNat_ofNat_of_lt' (show high.toNat * 256 + low.toNat < 65536 by omega)]
  omega

theorem ofGroups_eq {high low : UInt16} {ip : Ipv4} :
    ofGroups high low = ip ↔ high = ip.highGroup ∧ low = ip.lowGroup := by
  unfold highGroup lowGroup ofGroups
  rw [← group_of_octets, ← group_of_octets]
  cases ip
  simp only [Ipv4.mk.injEq]
  exact and_assoc.symm

end Ipv4

theorem Ipv6.mapped?_eq_some {ip : Ipv6} {v4 : Ipv4} : ip.mapped? = some v4 ↔ ip = v4.mapped := by
  rw [← Ipv6.groups_inj]
  unfold Ipv6.mapped? Ipv4.mapped
  split
  next high low hgroups =>
    rw [Option.some.injEq, Ipv4.ofGroups_eq, hgroups]
    simp
  next hother =>
    simp only [reduceCtorEq, false_iff]
    exact hother _ _

namespace Address

/-! ### Groups -/

theorem spellsGroup_hexadecimal (g : UInt16) : SpellsGroup (hexadecimal g.toNat) g :=
  (isNumber_hexadecimal_iff 4).mp
    (isNumber_toDigits (by decide) (by decide) true (by decide) g.toNat_lt g.toNat_lt)

theorem spells_joinGroups (g : UInt16) (gs : List UInt16) :
    SpellsGroups false (Ipv6.joinGroups (g :: gs)) (g :: gs) := by
  induction gs generalizing g with
  | nil =>
    have hlast : Ipv6.joinGroups [g] = hexadecimal g.toNat := List.append_nil _
    exact hlast ▸ .last (spellsGroup_hexadecimal g)
  | cons g' gs ih => exact .cons (spellsGroup_hexadecimal g) (ih g')

theorem side_joinGroups (gs : List UInt16) : SpellsSide false (Ipv6.joinGroups gs) gs := by
  cases gs with
  | nil => exact .empty
  | cons g gs => exact .groups (spells_joinGroups g gs)

/-! ### Runs of zeros -/

theorem replicate_zeroRun (groups : List UInt16) :
    groups = List.replicate (Ipv6.zeroRun groups) 0 ++ groups.drop (Ipv6.zeroRun groups) := by
  unfold Ipv6.zeroRun
  induction groups with
  | nil => rfl
  | cons g rest ih =>
    by_cases hg : g = 0
    · rw [List.takeWhile_cons_of_pos (by simpa using hg), List.length_cons, List.replicate_succ,
        List.drop_succ_cons, List.cons_append, ← ih, hg]
    · rw [List.takeWhile_cons_of_neg (by simpa using hg)]
      rfl

/-- The groups that a double colon takes the place of are zero. -/
theorem split_longestZeros (groups : List UInt16) :
    groups = groups.take (Ipv6.longestZeros groups).1 ++
      List.replicate (Ipv6.longestZeros groups).2 0 ++
      groups.drop ((Ipv6.longestZeros groups).1 + (Ipv6.longestZeros groups).2) := by
  induction groups with
  | nil => rfl
  | cons g rest ih =>
    unfold Ipv6.longestZeros
    dsimp only
    split
    · rw [List.take_zero, List.nil_append, Nat.zero_add]
      exact replicate_zeroRun (g :: rest)
    · rw [List.take_succ_cons, Nat.add_right_comm, List.drop_succ_cons, List.cons_append,
        List.cons_append, ← ih]

/-! ### Whole addresses -/

theorem spells_chars (ip : Ipv6) : Ipv6.Spells ip.chars ip := by
  unfold Ipv6.chars
  split
  next v4 hmapped =>
    obtain rfl := Ipv6.mapped?_eq_some.mp hmapped
    exact .compressed .empty (.groups (.cons (spellsGroup_hexadecimal 0xFFFF) (.dotted v4)))
      (show 0 < 5 by decide) rfl
  next hplain =>
    have hsplit := split_longestZeros ip.groups
    dsimp only
    split
    next hlong =>
      exact .compressed (side_joinGroups _) (side_joinGroups _) (Nat.lt_of_succ_lt hlong) hsplit
    next hshort =>
      obtain ⟨groups, length_eq⟩ := ip
      cases groups with
      | nil => exact absurd length_eq (by simp)
      | cons g gs => exact .full (spells_joinGroups g gs)

end Address

theorem Ip.spelledBy_display (ip : Ip) : ip.SpelledBy ip.display := by
  unfold Ip.SpelledBy Ip.display
  rw [String.toList_ofList]
  cases ip with
  | v4 ip => rfl
  | v6 ip => exact Address.spells_chars ip

theorem Ip.parse?_display (ip : Ip) : Ip.parse? ip.display = some ip :=
  Ip.parse?_eq_some.mpr ip.spelledBy_display

theorem resolve_eq_ok {text : String} {port : UInt16} {s : SocketAddress} :
    resolve text port = .ok s ↔ ∃ ip : Ip, ip.SpelledBy text ∧ s = { ip, port } := by
  unfold resolve
  simp only [← Ip.parse?_eq_some]
  split
  next ip hip => simp [hip, eq_comm]
  next hnone => simp [hnone]

theorem resolve_display (ip : Ip) (port : UInt16) :
    resolve ip.display port = .ok { ip, port } := by
  unfold resolve
  rw [Ip.parse?_display]

/-- What a command line tells survives its way through the text of a member: the node itself and
every peer resolve to the addresses that they were made from. A text that resolves may be replaced
by what is written for its address. -/
theorem CommandLine.addresses_survive_text :
    (∀ o : StartOptions, resolve o.self.addr o.self.port = .ok { ip := o.addr, port := o.port }) ∧
      (∀ peer : SocketAddress, resolve (seedMember peer).addr (seedMember peer).port =
        .ok { ip := peer.ip, port := peer.port }) ∧
      ∀ (text : String) (port : UInt16) (s : SocketAddress), resolve text port = .ok s →
        resolve s.ip.display port = .ok s := by
  refine ⟨fun o ↦ resolve_display o.addr o.port, fun peer ↦ resolve_display peer.ip peer.port,
    fun text port s h ↦ ?_⟩
  obtain ⟨ip, -, rfl⟩ := resolve_eq_ok.mp h
  exact resolve_display ip port

theorem CommandLine.address_survives_text_mapped :
    resolve "0:0::FFFF:a00:7" 8000 = .ok { ip := .v6 (Ipv4.mapped ⟨10, 0, 0, 7⟩), port := 8000 } ∧
      resolve (Ip.v6 (Ipv4.mapped ⟨10, 0, 0, 7⟩)).display 8000 =
        .ok { ip := .v6 (Ipv4.mapped ⟨10, 0, 0, 7⟩), port := 8000 } :=
  ⟨rfl, CommandLine.addresses_survive_text.2.2 "0:0::FFFF:a00:7" 8000 _ rfl⟩

end Gossip
