import Gossip.Base64

/-!
Every payload is read back from its text form: full groups of three bytes one after the other,
and a last group of one or two bytes from its padded form.
-/

set_option autoImplicit false
set_option relaxedAutoImplicit false

namespace Gossip.Base64

theorem value?_symbol : ∀ n < 64, value? (symbol n) = some n := by decide

theorem value?_pad : value? '=' = none := by decide

theorem symbol_ne_pad {n : Nat} (h : n < 64) : symbol n ≠ '=' := by
  intro heq
  have hvalue := value?_symbol n h
  rw [heq, value?_pad] at hvalue
  exact absurd hvalue (by simp)

/-! ### One group of characters -/

section Group

variable (a b c : UInt8)

theorem three?_symbol :
    three? (symbol (a.toNat / 4)) (symbol (a.toNat % 4 * 16 + b.toNat / 16))
      (symbol (b.toNat % 16 * 4 + c.toNat / 64)) (symbol (c.toNat % 64)) = some (a, b, c) := by
  have ha := a.toNat_lt
  have hb := b.toNat_lt
  have hc := c.toNat_lt
  have hfirst : a.toNat / 4 * 4 + (a.toNat % 4 * 16 + b.toNat / 16) / 16 = a.toNat := by omega
  have hsecond : (a.toNat % 4 * 16 + b.toNat / 16) % 16 * 16 +
      (b.toNat % 16 * 4 + c.toNat / 64) / 4 = b.toNat := by omega
  have hthird : (b.toNat % 16 * 4 + c.toNat / 64) % 4 * 64 + c.toNat % 64 = c.toNat := by omega
  unfold three?
  rw [value?_symbol _ (by omega), value?_symbol _ (by omega), value?_symbol _ (by omega),
    value?_symbol _ (by omega)]
  simp only [hfirst, hsecond, hthird, UInt8.ofNat_toNat]

theorem two?_symbol :
    two? (symbol (a.toNat / 4)) (symbol (a.toNat % 4 * 16 + b.toNat / 16))
      (symbol (b.toNat % 16 * 4)) = some [a, b] := by
  have ha := a.toNat_lt
  have hb := b.toNat_lt
  have hfirst : a.toNat / 4 * 4 + (a.toNat % 4 * 16 + b.toNat / 16) / 16 = a.toNat := by omega
  have hsecond : (a.toNat % 4 * 16 + b.toNat / 16) % 16 * 16 + b.toNat % 16 * 4 / 4 =
      b.toNat := by omega
  unfold two?
  rw [value?_symbol _ (by omega), value?_symbol _ (by omega), value?_symbol _ (by omega)]
  simp only [Nat.mul_mod_left, hfirst, hsecond, UInt8.ofNat_toNat, ↓reduceIte]

theorem one?_symbol :
    one? (symbol (a.toNat / 4)) (symbol (a.toNat % 4 * 16)) = some [a] := by
  have ha := a.toNat_lt
  have hfirst : a.toNat / 4 * 4 + a.toNat % 4 * 16 / 16 = a.toNat := by omega
  unfold one?
  rw [value?_symbol _ (by omega), value?_symbol _ (by omega)]
  simp only [Nat.mul_mod_left, hfirst, UInt8.ofNat_toNat, ↓reduceIte]

end Group

theorem three?_pad (w x y : Char) : three? w x y '=' = none := by
  unfold three?
  rw [value?_pad]
  cases value? w <;> cases value? x <;> cases value? y <;> rfl

/-- What holds of a payload that is a last group, or none, and stays so with a full group in front,
holds of every payload. -/
@[elab_as_elim]
theorem payload_induction {motive : Bytes → Prop} (nil : motive []) (one : ∀ a, motive [a])
    (two : ∀ a b, motive [a, b])
    (group : ∀ a b c rest, motive rest → motive (a :: b :: c :: rest)) :
    ∀ payload, motive payload
  | [] => nil
  | [a] => one a
  | [a, b] => two a b
  | a :: b :: c :: rest => group a b c rest (payload_induction nil one two group rest)

theorem bytesFrom_symbols (read payload : Bytes) :
    bytesFrom read (symbols payload) = some (read.reverse ++ payload) := by
  induction payload using payload_induction generalizing read with
  | nil => simp [symbols, bytesFrom]
  | one a => simp [symbols, bytesFrom, three?_pad, one?_symbol]
  | two a b =>
    have hb := b.toNat_lt
    have hlast : symbol (b.toNat % 16 * 4) ≠ '=' := symbol_ne_pad (by omega)
    simp [symbols, bytesFrom, three?_pad, two?_symbol, hlast]
  | group a b c rest ih =>
    rw [symbols, bytesFrom, three?_symbol]
    simp [ih]

/-- The text form of a payload is read as that payload. -/
theorem decode?_encode (payload : Bytes) : decode? (encode payload) = some payload := by
  unfold decode? encode
  rw [String.toList_ofList, bytesFrom_symbols, List.reverse_nil, List.nil_append]

end Gossip.Base64
