import Gossip.Agent
import Mathlib.Data.Nat.Notation

/-!
What listening comes to. A listener takes the first of the arrivals, in their order: units go behind
those that are queued, and failures go nowhere. It stops when nothing is left, when its allowance is
used up, with a unit in its hand that does not fit, or after a failure that makes it pause. If
nobody takes from the queue, it ends with the first unit.
-/

set_option autoImplicit false
set_option relaxedAutoImplicit false

namespace Gossip

/-- The unit that has arrived, if it is one. -/
def Arrival.unit? : Arrival → Option Bytes
  | .unit bytes => some bytes
  | .failure _ => none

/-- What a listener tells of an arrival. -/
def Arrival.event? : Arrival → Option Event
  | .unit _ => none
  | .failure error => some (.failed error)

/-- Whether a listener pauses after an arrival. -/
def Arrival.pauses : Arrival → Bool
  | .unit _ => false
  | .failure error => error.pauses

namespace Intake

/-- How listening ends: the arrival that it ends with, if there is one, and what has become of the
listener then. -/
inductive Ends (room : Option ℕ) (now : ℕ) (queue : List Bytes) (rest : List Arrival)
    (unfinished : Bool) : List Arrival → Option Listener → Prop
  | read (h : unfinished = true ∨ rest = []) : Ends room now queue rest unfinished [] (some {})
  | full {capacity : ℕ} (unit : Bytes) (hroom : room = some capacity)
      (h : capacity ≤ queue.length) :
      Ends room now queue rest unfinished [.unit unit] (some { held := some unit })
  | pause (error : Error) (h : error.pauses = true) :
      Ends room now queue rest unfinished [.failure error]
        (some { pause := some (now + receivePause) })
  | unattended (unit : Bytes) (hroom : room = none) :
      Ends room now queue rest unfinished [.unit unit] none

section Ends

variable {room : Option ℕ} {now : ℕ} {queue : List Bytes} {rest last : List Arrival}
  {unfinished : Bool} {after : Option Listener}

/-- Nobody holds a unit back and pauses. -/
theorem Ends.pause_eq_none (h : Ends room now queue rest unfinished last after)
    {listener : Listener} (hafter : listener ∈ after) (hheld : listener.held ≠ none) :
    listener.pause = none := by
  obtain rfl := hafter
  cases h with
  | read | full => rfl
  | pause => exact absurd rfl hheld

/-- A listener ends only if nobody takes from the queue. -/
theorem Ends.isSome (h : Ends room now queue rest unfinished last after) (hroom : room ≠ none) :
    after.isSome = true := by
  cases h with
  | read | full | pause => rfl
  | unattended _ hnone => exact absurd hnone hroom

/-- What the listener ends with it holds back, if it is a unit and somebody takes from the queue. -/
theorem Ends.held_eq (h : Ends room now queue rest unfinished last after) (hroom : room ≠ none) :
    (after.bind Listener.held).toList = last.filterMap Arrival.unit? := by
  cases h with
  | read | full | pause => rfl
  | unattended _ hnone => exact absurd hnone hroom

/-- After a failure that makes it pause the listener pauses. -/
theorem Ends.pause_of_pauses (h : Ends room now queue rest unfinished last after)
    {arrival : Arrival} (harrival : arrival ∈ last) (hpauses : arrival.pauses = true) :
    after = some { pause := some (now + receivePause) } := by
  cases h with
  | pause => rfl
  | read => exact absurd harrival List.not_mem_nil
  | full unit | unattended unit =>
    obtain rfl := List.mem_singleton.mp harrival
    exact absurd hpauses Bool.false_ne_true

/-- It pauses after no other arrival. -/
theorem Ends.exists_of_pause (h : Ends room now queue rest unfinished last after)
    {listener : Listener} (hafter : listener ∈ after) {t : ℕ} (ht : t ∈ listener.pause) :
    ∃ arrival, last = [arrival] ∧ arrival.pauses = true ∧ t = now + receivePause := by
  obtain rfl := hafter
  cases h with
  | pause error hpauses => exact ⟨_, rfl, hpauses, (Option.some.inj ht).symm⟩
  | read | full => exact absurd ht (Option.not_mem_none _)

end Ends

/-- What has come of listening to some arrivals after which it went on, and to the one with which it
ended. -/
structure Takes (room : Option ℕ) (now : ℕ) (arrivals : List Arrival) (queue : List Bytes)
    (passed last : List Arrival) (intake : Intake) : Prop where
  split : arrivals = passed ++ (last ++ intake.rest)
  smooth : ∀ arrival ∈ passed, arrival.pauses = false
  queue_eq : intake.queue = queue ++ passed.filterMap Arrival.unit?
  fits : ∀ capacity, room = some capacity → queue.length ≤ capacity →
    intake.queue.length ≤ capacity
  unattended : room = none → passed.filterMap Arrival.unit? = []
  /-- It tells of all failures among the arrivals that it takes. -/
  told : intake.events = (passed ++ last).filterMap Arrival.event?
  ends : Ends room now intake.queue intake.rest intake.unfinished last intake.listener

variable {room : Option ℕ} {now : ℕ} {rest : List Arrival} {queue : List Bytes}
  {passed last : List Arrival} {intake : Intake}

/-- Listening that ends at once has passed nothing. -/
theorem Takes.of_ends {arrivals : List Arrival} (hsplit : arrivals = last ++ intake.rest)
    (hqueue : intake.queue = queue) (htold : intake.events = last.filterMap Arrival.event?)
    (h : Ends room now intake.queue intake.rest intake.unfinished last intake.listener) :
    Takes room now arrivals queue [] last intake where
  split := hsplit
  smooth := List.forall_mem_nil _
  queue_eq := hqueue.trans (List.append_nil _).symm
  fits := fun _ _ hfits ↦ hqueue ▸ hfits
  unattended := fun _ ↦ rfl
  told := htold
  ends := h

/-- A unit that fits goes behind those that are queued. -/
theorem Takes.unit {capacity : ℕ} {bytes : Bytes} (hfits : queue.length < capacity)
    (h : Takes (some capacity) now rest (queue ++ [bytes]) passed last intake) :
    Takes (some capacity) now (.unit bytes :: rest) queue (.unit bytes :: passed) last intake where
  split := congrArg _ h.split
  smooth := List.forall_mem_cons.mpr ⟨rfl, h.smooth⟩
  queue_eq := h.queue_eq.trans (List.append_assoc ..)
  fits := by
    rintro _ ⟨rfl⟩ -
    exact h.fits _ rfl (by rw [List.length_append, List.length_singleton]; exact hfits)
  unattended := fun hroom ↦ absurd hroom (Option.some_ne_none _)
  told := h.told
  ends := h.ends

/-- A failure after which listening goes on leaves no trace but that it is told of. -/
theorem Takes.failure {error : Error} (hpauses : ¬error.pauses = true)
    (h : Takes room now rest queue passed last intake) :
    Takes room now (.failure error :: rest) queue (.failure error :: passed) last
      { intake with events := .failed error :: intake.events } where
  split := congrArg _ h.split
  smooth := List.forall_mem_cons.mpr ⟨Bool.eq_false_iff.mpr hpauses, h.smooth⟩
  queue_eq := h.queue_eq
  fits := h.fits
  unattended := h.unattended
  told := congrArg _ h.told
  ends := h.ends

/-- Only the last arrival can make the listener pause. -/
theorem Takes.pairwise {arrivals : List Arrival}
    (h : Takes room now arrivals queue passed last intake) :
    (passed ++ last).Pairwise fun first _ ↦ first.pauses = false := by
  have hlast : last.Pairwise fun first _ ↦ first.pauses = false := by
    obtain ⟨after, _, _, _, _⟩ := intake
    cases h.ends <;> simp
  refine List.pairwise_append.mpr ⟨?_, hlast, fun first hfirst _ _ ↦ h.smooth first hfirst⟩
  exact List.pairwise_of_forall_mem_list fun first hfirst _ _ ↦ h.smooth first hfirst

/-- What is in the queue, in hand or left was there before, or has come with an arrival taken. -/
theorem Takes.length_le {arrivals : List Arrival}
    (h : Takes room now arrivals queue passed last intake) :
    arrivals.length = passed.length + last.length + intake.rest.length ∧
      intake.queue.length ≤ queue.length + passed.length ∧
      (intake.listener.bind Listener.held).toList.length ≤ last.length := by
  refine ⟨?_, ?_, ?_⟩
  · rw [h.split, List.length_append, List.length_append, Nat.add_assoc]
  · rw [h.queue_eq, List.length_append]
    exact Nat.add_le_add_left (List.length_filterMap_le _ _) _
  · obtain ⟨after, _, _, _, _⟩ := intake
    cases h.ends <;> simp

end Intake

open Intake in
/-- Listening takes the first of the arrivals. -/
theorem exists_takes_listen (room : Option ℕ) (now allowance : ℕ) (arrivals : List Arrival)
    (queue : List Bytes) : ∃ passed last,
      Takes room now arrivals queue passed last (listen room now allowance arrivals queue) := by
  induction arrivals generalizing allowance queue with
  | nil =>
    unfold listen
    exact ⟨[], [], .of_ends rfl rfl rfl (.read (.inr rfl))⟩
  | cons arrival rest ih =>
    cases arrival with
    | unit bytes =>
      unfold listen
      split
      next => exact ⟨[], [], .of_ends rfl rfl rfl (.read (.inl rfl))⟩
      next =>
        cases room with
        | none => exact ⟨[], [.unit bytes], .of_ends rfl rfl rfl (.unattended bytes rfl)⟩
        | some capacity =>
          dsimp only
          split
          next hfits =>
            obtain ⟨passed, last, h⟩ := ih (allowance - unitCost) (queue ++ [bytes])
            exact ⟨_, last, h.unit hfits⟩
          next hfull =>
            have hfull := Nat.not_lt.mp hfull
            exact ⟨[], [.unit bytes], .of_ends rfl rfl rfl (.full bytes rfl hfull)⟩
    | failure error =>
      unfold listen
      split
      next => exact ⟨[], [], .of_ends rfl rfl rfl (.read (.inl rfl))⟩
      next =>
        split
        next hpauses => exact ⟨[], [.failure error], .of_ends rfl rfl rfl (.pause error hpauses)⟩
        next hpauses =>
          obtain ⟨passed, last, h⟩ := ih (allowance - failureCost) queue
          exact ⟨_, last, h.failure hpauses⟩

/-- A turn gets over the first of the arrivals. -/
theorem length_rest_listen_lt (room : Option ℕ) (now : ℕ) (arrival : Arrival)
    (arrivals : List Arrival) (queue : List Bytes) :
    (listen room now turnAllowance (arrival :: arrivals) queue).rest.length <
      (arrival :: arrivals).length := by
  have hle (allowance : ℕ) (queue : List Bytes) :
      (listen room now allowance arrivals queue).rest.length ≤ arrivals.length := by
    obtain ⟨passed, last, h⟩ := exists_takes_listen room now allowance arrivals queue
    exact h.length_le.1 ▸ Nat.le_add_left _ _
  refine Nat.lt_succ_of_le ?_
  unfold listen
  cases arrival with
  | unit bytes =>
    dsimp only
    rw [if_neg (by decide)]
    split
    · exact Nat.le_refl _
    · split
      · exact hle _ _
      · exact Nat.le_refl _
  | failure error =>
    dsimp only
    rw [if_neg (by decide)]
    split
    · exact Nat.le_refl _
    · exact hle _ _

end Gossip
