import Gossip.Proofs.Base64
import Mathlib.Algebra.Ring.Nat
import Mathlib.Tactic.ByContra
import Mathlib.Tactic.SplitIfs

/-!
Every payload has one text form. The bytes of a group determine its characters, once the bits that
the last group leaves over are known to be zero, so what is read as a payload is what is written for
it. A text is turned down exactly if it has a flaw: a last group that is not full, a foreign
character, padding that other characters follow or that is too long, or bits left over that are not
zero. A written form is characters of the alphabet and then padding, which leaves no room for a
flaw; and where none is, every character that a group needs is there.
-/

set_option autoImplicit false
set_option relaxedAutoImplicit false

namespace Gossip.Base64

/-! ### The alphabet -/

/-- The characters that stand for six bits, in the order of their values. -/
def alphabet : List Char :=
  "ABCDEFGHIJKLMNOPQRSTUVWXYZabcdefghijklmnopqrstuvwxyz0123456789+/".toList

theorem alphabet_eq_map : alphabet = (List.range 64).map symbol := by decide

theorem getElem?_alphabet_iff {c : Char} {n : Nat} :
    alphabet[n]? = some c ↔ n < 64 ∧ symbol n = c := by
  rw [alphabet_eq_map, List.getElem?_map, Option.map_eq_some_iff]
  constructor
  · rintro ⟨m, hm, hc⟩
    obtain ⟨hlt, hm⟩ := List.getElem?_eq_some_iff.mp hm
    rw [List.length_range] at hlt
    rw [List.getElem_range] at hm
    exact ⟨hlt, hm ▸ hc⟩
  · rintro ⟨hn, hc⟩
    exact ⟨n, List.getElem?_range hn, hc⟩

theorem value?_eq_some_iff {c : Char} {n : Nat} :
    value? c = some n ↔ n < 64 ∧ symbol n = c := by
  constructor
  · intro h
    have hchar (k : Nat) (hk : k = c.toNat) : Char.ofNat k = c := by rw [hk, Char.ofNat_toNat]
    unfold value? at h
    dsimp only at h
    split_ifs at h with hupper hlower hdigit hplus hslash
    · obtain rfl := Option.some.inj h
      refine ⟨by omega, ?_⟩
      rw [symbol, if_pos (by omega)]
      exact hchar _ (by omega)
    · obtain rfl := Option.some.inj h
      refine ⟨by omega, ?_⟩
      rw [symbol, if_neg (by omega), if_pos (by omega)]
      exact hchar _ (by omega)
    · obtain rfl := Option.some.inj h
      refine ⟨by omega, ?_⟩
      rw [symbol, if_neg (by omega), if_neg (by omega), if_pos (by omega)]
      exact hchar _ (by omega)
    · obtain rfl := Option.some.inj h
      exact ⟨by decide, hplus.symm⟩
    · obtain rfl := Option.some.inj h
      exact ⟨by decide, hslash.symm⟩
  · rintro ⟨hn, rfl⟩
    exact value?_symbol n hn

theorem value?_eq_some_iff_getElem? {c : Char} {n : Nat} :
    value? c = some n ↔ alphabet[n]? = some c :=
  value?_eq_some_iff.trans getElem?_alphabet_iff.symm

theorem exists_value?_iff {c : Char} : (∃ n, value? c = some n) ↔ c ∈ alphabet := by
  simp only [value?_eq_some_iff_getElem?, List.mem_iff_getElem?]

theorem symbol_mem_alphabet {n : Nat} (h : n < 64) : symbol n ∈ alphabet :=
  exists_value?_iff.mp ⟨n, value?_symbol n h⟩

theorem pad_notMem_alphabet : '=' ∉ alphabet := by
  rw [← exists_value?_iff, value?_pad]
  simp

theorem eq_of_getElem?_alphabet {m n : Nat} (hm : m < 64) (h : alphabet[n]? = some (symbol m)) :
    n = m := by
  rw [← value?_eq_some_iff_getElem?, value?_symbol m hm] at h
  exact (Option.some.inj h).symm

/-! ### What is read is what is written -/

-- A byte that is put together from two parts falls into the same parts again.
section Parts

variable {high low unit : Nat}

theorem toNat_ofNat_div (hlow : low < unit) (h : high * unit + low < UInt8.size) :
    (UInt8.ofNat (high * unit + low)).toNat / unit = high := by
  rw [UInt8.toNat_ofNat_of_lt' h, Nat.add_comm, Nat.add_mul_div_right _ _ (by omega),
    Nat.div_eq_of_lt hlow, Nat.zero_add]

theorem toNat_ofNat_mod (hlow : low < unit) (h : high * unit + low < UInt8.size) :
    (UInt8.ofNat (high * unit + low)).toNat % unit = low := by
  rw [UInt8.toNat_ofNat_of_lt' h, Nat.mul_add_mod_of_lt hlow]

end Parts

theorem symbols_of_three? {w x y z : Char} {a b c : UInt8} (h : three? w x y z = some (a, b, c))
    (rest : Bytes) : symbols (a :: b :: c :: rest) = w :: x :: y :: z :: symbols rest := by
  unfold three? at h
  split at h
  next p q r s hw hx hy hz =>
    obtain ⟨hp, rfl⟩ := value?_eq_some_iff.mp hw
    obtain ⟨hq, rfl⟩ := value?_eq_some_iff.mp hx
    obtain ⟨hr, rfl⟩ := value?_eq_some_iff.mp hy
    obtain ⟨hs, rfl⟩ := value?_eq_some_iff.mp hz
    simp only [Option.some.injEq, Prod.mk.injEq] at h
    obtain ⟨rfl, rfl, rfl⟩ := h
    have hsize : UInt8.size = 256 := rfl
    rw [symbols, toNat_ofNat_div (by omega) (by omega), toNat_ofNat_mod (by omega) (by omega),
      toNat_ofNat_div (by omega) (by omega), toNat_ofNat_mod (by omega) (by omega),
      toNat_ofNat_div (by omega) (by omega), toNat_ofNat_mod (by omega) (by omega),
      Nat.div_add_mod', Nat.div_add_mod']
  next => exact absurd h (by simp)

theorem symbols_of_two? {w x y : Char} {bytes : Bytes} (h : two? w x y = some bytes) :
    symbols bytes = [w, x, y, '='] := by
  unfold two? at h
  split at h
  next p q r hw hx hy =>
    obtain ⟨hp, rfl⟩ := value?_eq_some_iff.mp hw
    obtain ⟨hq, rfl⟩ := value?_eq_some_iff.mp hx
    obtain ⟨hr, rfl⟩ := value?_eq_some_iff.mp hy
    split at h
    next hbits =>
      obtain rfl := Option.some.inj h
      have hsize : UInt8.size = 256 := rfl
      rw [symbols, toNat_ofNat_div (by omega) (by omega), toNat_ofNat_mod (by omega) (by omega),
        toNat_ofNat_div (by omega) (by omega), toNat_ofNat_mod (by omega) (by omega),
        Nat.div_add_mod', Nat.div_mul_cancel (Nat.dvd_of_mod_eq_zero hbits)]
    next => exact absurd h (by simp)
  next => exact absurd h (by simp)

theorem symbols_of_one? {w x : Char} {bytes : Bytes} (h : one? w x = some bytes) :
    symbols bytes = [w, x, '=', '='] := by
  unfold one? at h
  split at h
  next p q hw hx =>
    obtain ⟨hp, rfl⟩ := value?_eq_some_iff.mp hw
    obtain ⟨hq, rfl⟩ := value?_eq_some_iff.mp hx
    split at h
    next hbits =>
      obtain rfl := Option.some.inj h
      have hsize : UInt8.size = 256 := rfl
      rw [symbols, toNat_ofNat_div (by omega) (by omega), toNat_ofNat_mod (by omega) (by omega),
        Nat.div_mul_cancel (Nat.dvd_of_mod_eq_zero hbits)]
    next => exact absurd h (by simp)
  next => exact absurd h (by simp)

/-- What holds of a text of fewer than four characters, and stays so with a full group in front,
holds of every text. -/
@[elab_as_elim]
theorem text_induction {motive : List Char → Prop} (nil : motive []) (one : ∀ w, motive [w])
    (two : ∀ w x, motive [w, x]) (three : ∀ w x y, motive [w, x, y])
    (group : ∀ w x y z rest, motive rest → motive (w :: x :: y :: z :: rest)) :
    ∀ chars, motive chars
  | [] => nil
  | [w] => one w
  | [w, x] => two w x
  | [w, x, y] => three w x y
  | w :: x :: y :: z :: rest => group w x y z rest (text_induction nil one two three group rest)

theorem exists_symbols_of_bytesFrom {read bytes : Bytes} {chars : List Char}
    (h : bytesFrom read chars = some bytes) :
    ∃ payload, bytes = read.reverse ++ payload ∧ chars = symbols payload := by
  induction chars using text_induction generalizing read with
  | nil => exact ⟨[], by simpa [bytesFrom] using h.symm, rfl⟩
  | one | two | three => exact absurd h (by simp [bytesFrom])
  | group w x y z rest ih =>
    rw [bytesFrom] at h
    cases hgroup : three? w x y z with
    | some group =>
      obtain ⟨a, b, c⟩ := group
      rw [hgroup] at h
      obtain ⟨payload, rfl, rfl⟩ := ih h
      exact ⟨a :: b :: c :: payload, by simp, (symbols_of_three? hgroup payload).symm⟩
    | none =>
      simp only [hgroup] at h
      split at h
      next hlast =>
        obtain ⟨rfl, rfl⟩ := hlast
        obtain ⟨payload, hpayload, rfl⟩ := Option.map_eq_some_iff.mp h
        refine ⟨payload, rfl, ?_⟩
        split at hpayload
        next hy => rw [hy, symbols_of_one? hpayload]
        next hy => exact (symbols_of_two? hpayload).symm
      next => exact absurd h (by simp)

/-- A text is read as a payload exactly if it is the one that is written for it. -/
theorem decode?_eq_some_iff {text : String} {payload : Bytes} :
    decode? text = some payload ↔ text = encode payload := by
  constructor
  · intro h
    obtain ⟨written, rfl, hchars⟩ := exists_symbols_of_bytesFrom h
    rw [encode, ← hchars, String.ofList_toList]
  · rintro rfl
    exact decode?_encode payload

/-! ### Flaws -/

/-- What can be wrong with a text that ought to be the form of a payload. -/
inductive Flawed (text : List Char) : Prop
  /-- The last group is not full. -/
  | unfilled (h : text.length % 4 ≠ 0)
  /-- A character is neither of the alphabet nor padding. -/
  | foreign {c : Char} (hmem : c ∈ text) (hpad : c ≠ '=') (h : c ∉ alphabet)
  /-- Padding stands in front of another character. -/
  | paddedWithin {c : Char} {rest : List Char} (hpad : c ≠ '=') (h : '=' :: c :: rest <:+ text)
  /-- There is more padding than a group can have. -/
  | overpadded (h : ['=', '=', '='] <:+ text)
  /-- Each padding character leaves two bits over, and they are not all zero. -/
  | leftOver {c : Char} {n : Nat} (pads : Nat) (hvalue : alphabet[n]? = some c)
      (h : c :: List.replicate pads '=' <:+ text) (hbits : n % 4 ^ pads ≠ 0)

/-! ### Written forms have no flaw -/

/-- Characters of the alphabet that padding may follow: they make up full groups with it, and the
bits that it leaves over are zero. -/
structure Sound (body : List Char) (pads : Nat) : Prop where
  mem_alphabet : ∀ c ∈ body, c ∈ alphabet
  filled : (body.length + pads) % 4 = 0
  pads_le : pads ≤ 2
  bits_zero : ∀ c n, body.getLast? = some c → alphabet[n]? = some c → n % 4 ^ pads = 0

/-- A last character whose value leaves only zeros over. -/
theorem sound_concat {front : List Char} {n pads : Nat} (hfront : ∀ c ∈ front, c ∈ alphabet)
    (hn : n < 64) (hfilled : (front.length + 1 + pads) % 4 = 0) (hpads : pads ≤ 2)
    (hbits : n % 4 ^ pads = 0) : Sound (front ++ [symbol n]) pads where
  mem_alphabet := by
    refine List.forall_mem_append.mpr ⟨hfront, ?_⟩
    simpa using symbol_mem_alphabet hn
  filled := by rwa [List.length_append, List.length_singleton]
  pads_le := hpads
  bits_zero := by
    intro c m hlast hvalue
    rw [List.getLast?_concat, Option.some.injEq] at hlast
    subst hlast
    rwa [eq_of_getElem?_alphabet hn hvalue]

namespace Sound

variable {body : List Char} {pads : Nat}

theorem pad_notMem (h : Sound body pads) : '=' ∉ body :=
  fun hmem ↦ pad_notMem_alphabet (h.mem_alphabet _ hmem)

/-- A full group in front of others. -/
theorem cons_group (h : Sound body pads) {w x y z : Char}
    (hgroup : ∀ c ∈ [w, x, y, z], c ∈ alphabet) : Sound (w :: x :: y :: z :: body) pads where
  mem_alphabet := List.forall_mem_append.mpr ⟨hgroup, h.mem_alphabet⟩
  filled := by
    have hfilled := h.filled
    simp only [List.length_cons]
    omega
  pads_le := h.pads_le
  bits_zero := by
    intro c n hlast hvalue
    cases body with
    | nil =>
      -- without characters there is no padding either, and no bit is left over
      have hpads : pads = 0 := by
        have hfilled := h.filled
        have hle := h.pads_le
        rw [List.length_nil] at hfilled
        omega
      rw [hpads, Nat.pow_zero, Nat.mod_one]
    | cons b body => exact h.bits_zero c n (by simpa [List.getLast?_cons] using hlast) hvalue

end Sound

/-- What stands behind padding. -/
theorem replicate_of_pad_suffix {body tail : List Char} {pads : Nat} (hbody : '=' ∉ body)
    (h : '=' :: tail <:+ body ++ List.replicate pads '=') :
    tail.length < pads ∧ tail = List.replicate tail.length '=' := by
  induction body with
  | nil =>
    obtain ⟨hlength, htail⟩ := List.suffix_replicate_iff.mp h
    exact ⟨hlength, (List.cons.inj htail).2⟩
  | cons b body ih =>
    rw [List.mem_cons, not_or] at hbody
    obtain ⟨hb, hbody⟩ := hbody
    rw [List.cons_append, List.suffix_cons_iff] at h
    rcases h with heq | h
    · exact absurd (List.cons.inj heq).1 hb
    · exact ih hbody h

/-- What stands in front of the padding. -/
theorem getLast?_of_suffix {body : List Char} {c : Char} {run pads : Nat} (hbody : '=' ∉ body)
    (hc : c ≠ '=') (h : c :: List.replicate run '=' <:+ body ++ List.replicate pads '=') :
    run = pads ∧ body.getLast? = some c := by
  induction body with
  | nil =>
    obtain ⟨-, heq⟩ := List.suffix_replicate_iff.mp h
    exact absurd (List.cons.inj heq).1 hc
  | cons b body ih =>
    rw [List.mem_cons, not_or] at hbody
    obtain ⟨-, hbody⟩ := hbody
    rw [List.cons_append, List.suffix_cons_iff] at h
    rcases h with heq | h
    · obtain ⟨rfl, hrun⟩ := List.cons.inj heq
      cases body with
      | nil =>
        have hlength := congrArg List.length hrun
        simp only [List.length_replicate, List.nil_append] at hlength
        exact ⟨hlength, rfl⟩
      | cons d body =>
        have hmem : d ∈ List.replicate run '=' := by
          rw [hrun]
          exact List.mem_append_left _ List.mem_cons_self
        have hd := List.eq_of_mem_replicate hmem
        exact absurd (hd ▸ List.mem_cons_self) hbody
    · obtain ⟨hrun, hlast⟩ := ih hbody h
      exact ⟨hrun, by rw [List.getLast?_cons, hlast, Option.getD_some]⟩

theorem Sound.not_flawed {body : List Char} {pads : Nat} (h : Sound body pads) :
    ¬Flawed (body ++ List.replicate pads '=') := by
  intro hflaw
  cases hflaw with
  | unfilled hlength =>
    rw [List.length_append, List.length_replicate] at hlength
    exact hlength h.filled
  | foreign hmem hpad hforeign =>
    rcases List.mem_append.mp hmem with hmem | hmem
    · exact hforeign (h.mem_alphabet _ hmem)
    · exact hpad (List.eq_of_mem_replicate hmem)
  | paddedWithin hpad hsuffix =>
    obtain ⟨-, htail⟩ := replicate_of_pad_suffix h.pad_notMem hsuffix
    exact hpad (List.eq_of_mem_replicate (htail ▸ List.mem_cons_self))
  | overpadded hsuffix =>
    obtain ⟨hlength, -⟩ := replicate_of_pad_suffix h.pad_notMem hsuffix
    exact absurd h.pads_le (Nat.not_le.mpr hlength)
  | @leftOver c n run hvalue hsuffix hbits =>
    have hpad : c ≠ '=' := fun heq ↦ pad_notMem_alphabet (heq ▸ List.mem_of_getElem? hvalue)
    obtain ⟨rfl, hlast⟩ := getLast?_of_suffix h.pad_notMem hpad hsuffix
    exact hbits (h.bits_zero _ _ hlast hvalue)

theorem exists_sound_symbols (payload : Bytes) :
    ∃ body pads, symbols payload = body ++ List.replicate pads '=' ∧ Sound body pads := by
  induction payload using payload_induction with
  | nil => exact ⟨[], 0, rfl, ⟨by simp, rfl, by simp, by simp⟩⟩
  | one a =>
    have ha := a.toNat_lt
    refine ⟨[symbol (a.toNat / 4)] ++ [symbol (a.toNat % 4 * 16)], 2, rfl, ?_⟩
    refine sound_concat ?_ (by omega) (by simp) (by omega) (by omega)
    simpa using symbol_mem_alphabet (n := a.toNat / 4) (by omega)
  | two a b =>
    have ha := a.toNat_lt
    have hb := b.toNat_lt
    refine ⟨[symbol (a.toNat / 4), symbol (a.toNat % 4 * 16 + b.toNat / 16)] ++
      [symbol (b.toNat % 16 * 4)], 1, rfl, ?_⟩
    refine sound_concat ?_ (by omega) (by simp) (by omega) (by omega)
    simp only [List.forall_mem_cons]
    exact ⟨symbol_mem_alphabet (by omega), symbol_mem_alphabet (by omega), by simp⟩
  | group a b c rest ih =>
    have ha := a.toNat_lt
    have hb := b.toNat_lt
    have hc := c.toNat_lt
    obtain ⟨body, pads, hsymbols, hsound⟩ := ih
    rw [symbols, hsymbols]
    refine ⟨_ :: _ :: _ :: _ :: body, pads, rfl, hsound.cons_group ?_⟩
    simp only [List.forall_mem_cons]
    exact ⟨symbol_mem_alphabet (by omega), symbol_mem_alphabet (by omega),
      symbol_mem_alphabet (by omega), symbol_mem_alphabet (by omega), by simp⟩

/-! ### Texts without a flaw are read -/

/-- In a text without flaws, padding is followed by at most one character, which is padding. -/
theorem padding_ends (front : List Char) {rest : List Char}
    (h : ¬Flawed (front ++ '=' :: rest)) : rest = [] ∨ rest = ['='] := by
  induction rest generalizing front with
  | nil => exact Or.inl rfl
  | cons c rest ih =>
    have hc : c = '=' := by
      by_contra hc
      exact h (.paddedWithin hc (List.suffix_append front _))
    subst hc
    rcases ih (front ++ ['=']) (by simpa using h) with rfl | rfl
    · exact Or.inr rfl
    · exact absurd (.overpadded (List.suffix_append front _)) h

theorem Flawed.cons_group {rest : List Char} (h : Flawed rest) (w x y z : Char) :
    Flawed (w :: x :: y :: z :: rest) := by
  have hsuffix : rest <:+ w :: x :: y :: z :: rest := ⟨[w, x, y, z], rfl⟩
  cases h with
  | unfilled h => exact .unfilled (by simp only [List.length_cons]; omega)
  | foreign hmem hpad h => exact .foreign (hsuffix.mem hmem) hpad h
  | paddedWithin hpad h => exact .paddedWithin hpad (h.trans hsuffix)
  | overpadded h => exact .overpadded (h.trans hsuffix)
  | leftOver pads hvalue h hbits => exact .leftOver pads hvalue (h.trans hsuffix) hbits

theorem exists_value?_of_ne_pad {chars : List Char} (h : ¬Flawed chars) {c : Char}
    (hmem : c ∈ chars) (hpad : c ≠ '=') : ∃ n, value? c = some n := by
  rw [exists_value?_iff]
  by_contra hforeign
  exact h (.foreign hmem hpad hforeign)

/-- A character that more than a last padding character follows is one of the alphabet. -/
theorem exists_value?_of_followed (front : List Char) {rest : List Char} {c : Char}
    (h : ¬Flawed (front ++ c :: rest)) (hnil : rest ≠ []) (hone : rest ≠ ['=']) :
    ∃ n, value? c = some n := by
  refine exists_value?_of_ne_pad h (by simp) ?_
  rintro rfl
  rcases padding_ends front h with hrest | hrest
  · exact hnil hrest
  · exact hone hrest

theorem exists_one? {w x : Char} (h : ¬Flawed [w, x, '=', '=']) :
    ∃ bytes, one? w x = some bytes := by
  obtain ⟨p, hp⟩ := exists_value?_of_followed [] h (by simp) (by simp)
  obtain ⟨q, hq⟩ := exists_value?_of_followed [w] h (by simp) (by simp)
  have hbits : q % 16 = 0 := by
    by_contra hbits
    exact h (.leftOver 2 (value?_eq_some_iff_getElem?.mp hq) ⟨[w], rfl⟩ hbits)
  unfold one?
  rw [hp, hq]
  exact ⟨_, if_pos hbits⟩

theorem exists_two? {w x y : Char} (h : ¬Flawed [w, x, y, '=']) (hy : y ≠ '=') :
    ∃ bytes, two? w x y = some bytes := by
  obtain ⟨p, hp⟩ := exists_value?_of_followed [] h (by simp) (by simp)
  obtain ⟨q, hq⟩ := exists_value?_of_followed [w] h (by simp) (by simp)
  obtain ⟨r, hr⟩ := exists_value?_of_ne_pad h (by simp) hy
  have hbits : r % 4 = 0 := by
    by_contra hbits
    exact h (.leftOver 1 (value?_eq_some_iff_getElem?.mp hr) ⟨[w, x], rfl⟩ hbits)
  unfold two?
  rw [hp, hq, hr]
  exact ⟨_, if_pos hbits⟩

theorem exists_three? {w x y z : Char} {rest : List Char} (h : ¬Flawed (w :: x :: y :: z :: rest))
    (hlast : ¬(rest = [] ∧ z = '=')) : ∃ bytes, three? w x y z = some bytes := by
  have hz : z ≠ '=' := by
    rintro rfl
    rcases padding_ends [w, x, y] h with rfl | rfl
    · exact hlast ⟨rfl, rfl⟩
    · exact h (.unfilled (by simp))
  obtain ⟨p, hp⟩ := exists_value?_of_followed [] h (by simp) (by simp)
  obtain ⟨q, hq⟩ := exists_value?_of_followed [w] h (by simp) (by simp)
  obtain ⟨r, hr⟩ := exists_value?_of_followed [w, x] h (by simp) (by simp [hz])
  obtain ⟨s, hs⟩ := exists_value?_of_ne_pad h (by simp) hz
  unfold three?
  rw [hp, hq, hr, hs]
  exact ⟨_, rfl⟩

theorem flawed_of_bytesFrom {read : Bytes} {chars : List Char} (h : bytesFrom read chars = none) :
    Flawed chars := by
  induction chars using text_induction generalizing read with
  | nil => exact absurd h (by simp [bytesFrom])
  | one | two | three => exact .unfilled (by simp)
  | group w x y z rest ih =>
    rw [bytesFrom] at h
    cases hgroup : three? w x y z with
    | some group =>
      rw [hgroup] at h
      exact (ih h).cons_group w x y z
    | none =>
      simp only [hgroup] at h
      by_contra hflaw
      split at h
      next hlast =>
        obtain ⟨rfl, rfl⟩ := hlast
        rw [Option.map_eq_none_iff] at h
        split at h
        next hy =>
          subst hy
          obtain ⟨bytes, hbytes⟩ := exists_one? hflaw
          exact Option.some_ne_none _ (hbytes.symm.trans h)
        next hy =>
          obtain ⟨bytes, hbytes⟩ := exists_two? hflaw hy
          exact Option.some_ne_none _ (hbytes.symm.trans h)
      next hlast =>
        -- nothing but a full group can stand here, so one of its characters has to be at fault
        obtain ⟨bytes, hbytes⟩ := exists_three? hflaw hlast
        exact Option.some_ne_none _ (hbytes.symm.trans hgroup)

/-- A text is turned down exactly if it has a flaw. -/
theorem decode?_eq_none_iff {text : String} : decode? text = none ↔ Flawed text.toList := by
  constructor
  · exact flawed_of_bytesFrom
  · intro hflaw
    by_contra hread
    obtain ⟨payload, hpayload⟩ := Option.ne_none_iff_exists'.mp hread
    obtain ⟨body, pads, hsymbols, hsound⟩ := exists_sound_symbols payload
    rw [decode?_eq_some_iff.mp hpayload, encode, String.toList_ofList, hsymbols] at hflaw
    exact hsound.not_flawed hflaw

end Gossip.Base64
