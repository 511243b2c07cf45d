import Gossip.Member

/-!
Keys tell peers apart. The digits of a port hold no colon, so the last colon of a key stands in
front of the port, and what stands in front of that colon is the address, whatever it looks like.
-/

set_option autoImplicit false
set_option relaxedAutoImplicit false

namespace Gossip

theorem append_cons_inj_of_notMem_right {α : Type} {x : α} {l l' d d' : List α} (hd : x ∉ d)
    (hd' : x ∉ d') (h : l ++ x :: d = l' ++ x :: d') : l = l' ∧ d = d' := by
  rcases List.append_eq_append_iff.mp h with ⟨a, rfl, hright⟩ | ⟨a, rfl, hright⟩
  · cases a with
    | nil => simpa using hright
    | cons first rest =>
      obtain ⟨-, hrest⟩ := List.cons.inj hright
      exact absurd (by rw [hrest]; simp) hd
  · cases a with
    | nil => simpa [eq_comm] using hright
    | cons first rest =>
      obtain ⟨-, hrest⟩ := List.cons.inj hright
      exact absurd (by rw [hrest]; simp) hd'

theorem peerKey_injective (addr : String) {port port' : UInt16}
    (h : peerKey addr port = peerKey addr port') : port = port' := by
  have hdigits : Nat.toDigits 10 port.toNat = Nat.toDigits 10 port'.toNat := by
    have hlists := congrArg String.toList h
    simpa [peerKey] using hlists
  rw [← UInt16.toNat_inj, ← Nat.ofDigitChars_ten_toDigits (n := port.toNat), hdigits,
    Nat.ofDigitChars_ten_toDigits]

/-- The last colon of a key stands in front of the port. -/
theorem peerKey_eq_iff {addr addr' : String} {port port' : UInt16} :
    peerKey addr port = peerKey addr' port' ↔ addr = addr' ∧ port = port' := by
  constructor
  · intro h
    have hcolon (p : UInt16) : ':' ∉ Nat.toDigits 10 p.toNat := fun hmem ↦
      absurd (Nat.isDigit_of_mem_toDigits (by decide) (by decide) hmem) (by decide)
    have hlists : addr.toList ++ ':' :: Nat.toDigits 10 port.toNat =
        addr'.toList ++ ':' :: Nat.toDigits 10 port'.toNat := by
      have hlists := congrArg String.toList h
      simpa [peerKey] using hlists
    obtain ⟨haddr, -⟩ := append_cons_inj_of_notMem_right (hcolon port) (hcolon port') hlists
    obtain rfl := String.toList_injective haddr
    exact ⟨rfl, peerKey_injective addr h⟩
  · rintro ⟨rfl, rfl⟩
    rfl

theorem Member.key_eq_iff {m other : Member} : m.key = other.key ↔ m.SamePeer other :=
  peerKey_eq_iff

end Gossip
