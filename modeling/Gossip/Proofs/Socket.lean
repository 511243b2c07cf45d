import Gossip.Socket

/-!
What sockets pass on. A datagram and a stream are passed on exactly as they have come if they are
shorter than the packet size, and refused as oversized otherwise; it does not matter in which pieces
a stream comes. Nothing that has been cut is passed on, and both draw the same line, as long as
there can be a buffer of the packet size; beyond that a socket for datagrams ends the program.
-/

set_option autoImplicit false
set_option relaxedAutoImplicit false

namespace Gossip.Socket

/-- Nothing is passed on of a datagram but the whole of it. -/
theorem receiveDatagram_eq (size : Nat) (datagram : Bytes) :
    receiveDatagram size datagram =
      if size ≤ datagram.length then .error (.oversized size size) else .ok datagram := by
  unfold receiveDatagram
  dsimp only
  rw [List.length_take]
  by_cases hlong : size ≤ datagram.length
  · rw [if_pos hlong, Nat.min_eq_left hlong, if_pos (Nat.le_refl size)]
  · rw [if_neg hlong, if_neg (by omega), List.take_of_length_le (by omega)]

/-- What is gathered is the front of the stream, in whatever pieces it comes. -/
theorem gather_eq (room : Nat) (pieces : List Bytes) :
    gather room pieces = pieces.flatten.take room := by
  induction pieces generalizing room with
  | nil => exact List.take_nil.symm
  | cons piece rest ih => rw [gather, ih, List.flatten_cons, List.take_append]

/-- Assumes: a byte more than the packet size can be counted, and the stream ends in time. -/
theorem readStream_eq {size : UInt64} (hsize : size.toNat + 1 < UInt64.size) (peer : String)
    (pieces : List Bytes) :
    readStream size peer { pieces } =
      if size.toNat ≤ pieces.flatten.length then
        .error (.oversized (min (size.toNat + 1) pieces.flatten.length) size.toNat)
      else if pieces.flatten = [] then
        .error (.transport ("Connection from " ++ peer ++ " closed without data"))
      else .ok pieces.flatten := by
  have hcounts : ¬UInt64.size ≤ size.toNat + 1 := Nat.not_le.mpr hsize
  unfold readStream
  rw [if_neg hcounts]
  dsimp only
  rw [if_neg (by simp), gather_eq, List.length_take]
  by_cases hlong : size.toNat ≤ pieces.flatten.length
  · rw [if_pos hlong, if_pos (by omega)]
  · rw [if_neg hlong, if_neg (by omega), List.take_of_length_le (by omega)]

/-- A unit is passed on under a packet size, whether it comes as a datagram or as a stream that ends
in time. -/
structure Passes (size : UInt64) (unit : Bytes) : Prop where
  datagram : receiveDatagram size.toNat unit = .ok unit
  stream : size.toNat + 1 < UInt64.size → ∀ peer pieces, pieces.flatten = unit →
    readStream size peer { pieces } = .ok unit

theorem passes_iff {size : UInt64} {unit : Bytes} (hunit : unit ≠ []) :
    Passes size unit ↔ unit.length < size.toNat := by
  refine ⟨fun hpasses ↦ ?_, fun hshort ↦ ⟨?_, fun hsize peer pieces hpieces ↦ ?_⟩⟩
  · refine Nat.not_le.mp fun hlong ↦ ?_
    have hdatagram := hpasses.datagram
    rw [receiveDatagram_eq, if_pos hlong] at hdatagram
    exact absurd hdatagram (by simp)
  · rw [receiveDatagram_eq, if_neg (Nat.not_le.mpr hshort)]
  · rw [readStream_eq hsize, hpieces, if_neg (Nat.not_le.mpr hshort), if_neg hunit]

/-! ### The line between units that pass and units that do not -/

/-- What becomes of a unit that has come in under a packet size. It is passed on as it is or refused
with an error, which does not end the program; and unless it is empty, it is passed on exactly if it
is shorter than the packet size. -/
structure Judges (size : UInt64) (unit : Bytes) (answer : Except Error Bytes) : Prop where
  whole_or_refused : answer = .ok unit ∨ ∃ error, answer = .error error ∧ error ≠ .overflow
  accepts_iff : unit ≠ [] → (answer = .ok unit ↔ unit.length < size.toNat)

theorem judges_receiveDatagram (size : UInt64) (unit : Bytes) :
    Judges size unit (receiveDatagram size.toNat unit) := by
  rw [receiveDatagram_eq]
  by_cases hlong : size.toNat ≤ unit.length
  · rw [if_pos hlong]
    exact ⟨.inr ⟨_, rfl, by simp⟩, fun _ ↦ by simp [hlong]⟩
  · rw [if_neg hlong]
    exact ⟨.inl rfl, fun _ ↦ by simp [Nat.not_le.mp hlong]⟩

theorem judges_readStream {size : UInt64} (hsize : size.toNat + 1 < UInt64.size) (peer : String)
    (pieces : List Bytes) : Judges size pieces.flatten (readStream size peer { pieces }) := by
  rw [readStream_eq hsize]
  by_cases hlong : size.toNat ≤ pieces.flatten.length
  · rw [if_pos hlong]
    exact ⟨.inr ⟨_, rfl, by simp⟩, fun _ ↦ by simp only [Nat.not_lt.mpr hlong]; simp⟩
  · rw [if_neg hlong]
    by_cases hempty : pieces.flatten = []
    · rw [if_pos hempty]
      exact ⟨.inr ⟨_, rfl, by simp⟩, fun hsome ↦ absurd hempty hsome⟩
    · rw [if_neg hempty]
      exact ⟨.inl rfl, fun _ ↦ by simp only [Nat.not_le.mp hlong]⟩

/-- Assumes: a packet size to which a byte can be added. A unit that comes as a stream, in whatever
pieces, is never passed on in part, and neither is one that comes as a datagram. Both pass on the
same units, except that no datagram is received under a packet size that no buffer can have: that
ends the program. -/
theorem receivers_draw_one_line {size : UInt64} (hsize : size.toNat + 1 < UInt64.size)
    (unit : Bytes) :
    (∀ peer pieces, pieces.flatten = unit → Judges size unit (readStream size peer { pieces })) ∧
      (size.toNat ≤ bufferLimit → Judges size unit (receive size unit)) ∧
      (bufferLimit < size.toNat → receive size unit = .error .overflow) := by
  refine ⟨?_, fun hbuffer ↦ ?_, fun hbeyond ↦ ?_⟩
  · rintro peer pieces rfl
    exact judges_readStream hsize peer pieces
  · unfold receive
    rw [if_neg (Nat.not_lt.mpr hbuffer)]
    exact judges_receiveDatagram size unit
  · unfold receive
    rw [if_pos hbeyond]

/-- A unit of one byte under the packet size passes, and one of the packet size does not. -/
theorem receivers_draw_one_line_at_64 :
    ((64 : UInt64).toNat + 1 < UInt64.size ∧ (64 : UInt64).toNat ≤ bufferLimit) ∧
      (receive 64 (List.replicate 63 0x78) = .ok (List.replicate 63 0x78) ∧
        ∀ peer, readStream 64 peer ⟨[List.replicate 40 0x78, List.replicate 23 0x78], true⟩ =
          .ok (List.replicate 63 0x78)) ∧
      receive 64 (List.replicate 64 0x78) ≠ .ok (List.replicate 64 0x78) := by
  have hsize : (64 : UInt64).toNat + 1 < UInt64.size := by decide
  have hbuffer : (64 : UInt64).toNat ≤ bufferLimit := by decide
  have hpass := receivers_draw_one_line hsize (List.replicate 63 0x78)
  have hfull := receivers_draw_one_line hsize (List.replicate 64 0x78)
  refine ⟨⟨hsize, hbuffer⟩, ⟨?_, fun peer ↦ ?_⟩, ?_⟩
  · exact ((hpass.2.1 hbuffer).accepts_iff (by decide)).mpr (by decide)
  · exact ((hpass.1 peer _ (by decide)).accepts_iff (by decide)).mpr (by decide)
  · exact fun h ↦ absurd (((hfull.2.1 hbuffer).accepts_iff (by decide)).mp h) (by decide)

/-- Under a packet size of 2^63 not even one byte is received. -/
theorem no_datagram_beyond_buffers :
    64 ≤ (0x8000000000000000 : UInt64).toNat ∧
      (0x8000000000000000 : UInt64).toNat + 1 < UInt64.size ∧
      ¬Judges 0x8000000000000000 [0x78] (receive 0x8000000000000000 [0x78]) := by
  refine ⟨by decide, by decide, fun hjudges ↦ ?_⟩
  have hends : receive 0x8000000000000000 [0x78] = .error .overflow := if_pos (by decide)
  have haccepted := (hjudges.accepts_iff (by decide)).mpr (by decide)
  rw [hends] at haccepted
  exact absurd haccepted (by simp)

end Gossip.Socket
