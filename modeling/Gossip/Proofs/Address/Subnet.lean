import Gossip.Proofs.Address.Display

/-!
Who shares a network with whom. A text denotes an IPv4 address if it spells that address or its
mapped form. Two texts share a network if they denote IPv4 addresses that agree under the mask, or
if neither denotes one. So the relation is an equivalence of all texts, and it does not see how an
address is spelled.
-/

set_option autoImplicit false
set_option relaxedAutoImplicit false

namespace Gossip

variable {mask ip : Ipv4} {a b text : String}

/-- A text spells an IPv4 address or its mapped form. -/
def Ipv4.DenotedBy (ip : Ipv4) (text : String) : Prop :=
  (Ip.v4 ip).SpelledBy text ∨ (Ip.v6 ip.mapped).SpelledBy text

theorem Ip.ipv4?_eq_some {address : Ip} :
    address.ipv4? = some ip ↔ address = .v4 ip ∨ address = .v6 ip.mapped := by
  cases address with
  | v4 other => simp [Ip.ipv4?]
  | v6 other => simp [Ip.ipv4?, Ipv6.mapped?_eq_some]

theorem Ipv4.denotedBy_iff : ip.DenotedBy text ↔ (Ip.parse? text).bind Ip.ipv4? = some ip := by
  unfold Ipv4.DenotedBy
  rw [← Ip.parse?_eq_some, ← Ip.parse?_eq_some]
  cases Ip.parse? text with
  | none => simp
  | some address => simp [Ip.ipv4?_eq_some]

/-- The part of the address in a text that a mask keeps, if it is an IPv4 address. -/
def network (mask : Ipv4) (text : String) : Option Ipv4 :=
  ((Ip.parse? text).bind Ip.ipv4?).map (·.masked mask)

theorem network_eq_some {net : Ipv4} :
    network mask text = some net ↔ ∃ ip : Ipv4, ip.DenotedBy text ∧ ip.masked mask = net := by
  simp only [Ipv4.denotedBy_iff]
  exact Option.map_eq_some_iff

theorem network_of_denotedBy (h : ip.DenotedBy text) :
    network mask text = some (ip.masked mask) :=
  network_eq_some.mpr ⟨ip, h, rfl⟩

theorem network_eq_none : network mask text = none ↔ ∀ ip : Ipv4, ¬ip.DenotedBy text := by
  simp only [Ipv4.denotedBy_iff]
  exact Option.map_eq_none_iff.trans Option.eq_none_iff_forall_ne_some

theorem sameSubnet_eq_decide (mask : Ipv4) (a b : String) :
    sameSubnet mask a b = decide (network mask a = network mask b) := by
  unfold sameSubnet network
  cases (Ip.parse? a).bind Ip.ipv4? <;> cases (Ip.parse? b).bind Ip.ipv4? <;> simp

theorem equivalence_sameSubnet (mask : Ipv4) :
    Equivalence fun a b ↦ sameSubnet mask a b = true := by
  simp only [sameSubnet_eq_decide, decide_eq_true_eq]
  exact InvImage.equivalence _ (network mask) eq_equivalence

/-- Two texts share a network if they denote IPv4 addresses that agree under the mask, or if neither
denotes one. -/
theorem sameSubnet_iff : sameSubnet mask a b = true ↔
    (∃ x y : Ipv4, x.DenotedBy a ∧ y.DenotedBy b ∧ x.masked mask = y.masked mask) ∨
      (∀ x : Ipv4, ¬x.DenotedBy a) ∧ ∀ y : Ipv4, ¬y.DenotedBy b := by
  rw [sameSubnet_eq_decide, decide_eq_true_eq]
  constructor
  · intro hsame
    cases hb : network mask b with
    | some net =>
      obtain ⟨x, hx, hxnet⟩ := network_eq_some.mp (hsame.trans hb)
      obtain ⟨y, hy, hynet⟩ := network_eq_some.mp hb
      exact .inl ⟨x, y, hx, hy, hxnet.trans hynet.symm⟩
    | none => exact .inr ⟨network_eq_none.mp (hsame.trans hb), network_eq_none.mp hb⟩
  · rintro (⟨x, y, hx, hy, hmasked⟩ | ⟨ha, hb⟩)
    · rw [network_of_denotedBy hx, network_of_denotedBy hy, hmasked]
    · rw [network_eq_none.mpr ha, network_eq_none.mpr hb]

/-- To share a network is an equivalence of texts, whatever they spell, and depends only on the IPv4
addresses that they denote. So a text may be replaced on either side by any other text that denotes
the same address. -/
theorem subnets_ignore_spelling (mask : Ipv4) :
    Equivalence (fun a b ↦ sameSubnet mask a b = true) ∧
      (∀ a b, sameSubnet mask a b = true ↔
        (∃ x y : Ipv4, x.DenotedBy a ∧ y.DenotedBy b ∧ x.masked mask = y.masked mask) ∨
          (∀ x : Ipv4, ¬x.DenotedBy a) ∧ ∀ y : Ipv4, ¬y.DenotedBy b) ∧
      ∀ (ip : Ipv4) (a b other : String), ip.DenotedBy a → ip.DenotedBy b →
        sameSubnet mask a other = sameSubnet mask b other ∧
          sameSubnet mask other a = sameSubnet mask other b := by
  refine ⟨equivalence_sameSubnet mask, fun a b ↦ sameSubnet_iff, fun ip a b other ha hb ↦ ?_⟩
  simp only [sameSubnet_eq_decide, network_of_denotedBy ha, network_of_denotedBy hb, and_self]

theorem subnet_ignores_spelling_of_mapped :
    (Ip.v4 ⟨10, 0, 0, 7⟩).SpelledBy "10.0.0.7" ∧
      (Ip.v6 (Ipv4.mapped ⟨10, 0, 0, 7⟩)).SpelledBy "0:0::FfFf:0a00:7" ∧
      sameSubnet ⟨255, 255, 255, 0⟩ "10.0.0.7" "10.0.0.1" =
        sameSubnet ⟨255, 255, 255, 0⟩ "0:0::FfFf:0a00:7" "10.0.0.1" ∧
      sameSubnet ⟨255, 255, 255, 0⟩ "0:0::FfFf:0a00:7" "10.0.0.1" = true := by
  have hfour : (Ip.v4 ⟨10, 0, 0, 7⟩).SpelledBy "10.0.0.7" := Ip.parse?_eq_some.mp rfl
  have hsix : (Ip.v6 (Ipv4.mapped ⟨10, 0, 0, 7⟩)).SpelledBy "0:0::FfFf:0a00:7" :=
    Ip.parse?_eq_some.mp rfl
  have hsame := (subnets_ignore_spelling ⟨255, 255, 255, 0⟩).2.2 ⟨10, 0, 0, 7⟩ "10.0.0.7"
    "0:0::FfFf:0a00:7" "10.0.0.1" (.inl hfour) (.inr hsix)
  exact ⟨hfour, hsix, hsame.1, by decide⟩

end Gossip
