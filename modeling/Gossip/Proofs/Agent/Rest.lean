import Gossip.Proofs.Agent.Order
import Mathlib.Algebra.Order.BigOperators.Group.List
import Mathlib.Algebra.Order.Ring.Nat

/-!
Tasks come to rest. What is left to do is measured by a number: every ready task has a turn to take,
every arrival may wake two tasks and fill the listener's hand, every unit in hand may wake one, and
every pulse that is behind may beat once for each nanosecond. A turn of an agent in order makes the
number smaller, since nobody is woken in vain.
-/

set_option autoImplicit false
set_option relaxedAutoImplicit false

namespace Gossip

theorem length_readyWith_le (ready : List Task) (task : Task) :
    (readyWith ready task).length ≤ ready.length + 1 := by
  unfold readyWith
  split
  · exact Nat.le_succ _
  · rw [List.length_append, List.length_singleton]

theorem Intake.length_readyAfter_le (intake : Intake) (ready : List Task) :
    (intake.readyAfter ready).length ≤ ready.length + 2 := by
  have hconsumer := length_readyWith_le ready .consumer
  unfold readyAfter
  dsimp only
  split <;> split <;> grind [length_readyWith_le]

namespace Agent

/-- The unit that the listener holds back. -/
def held (agent : Agent) : List Bytes := (agent.listener.bind Listener.held).toList

theorem held_eq (agent : Agent) {listener : Listener} (hlistener : listener ∈ agent.listener) :
    agent.held = listener.held.toList := by
  rw [held, hlistener]
  rfl

/-- How far pulses are behind. -/
def lag (pulses : List Pulse) (timer : ℕ) : ℕ := (pulses.map fun pulse ↦ timer + 1 - pulse.due).sum

/-- What is left to do. -/
def work (agent : Agent) : ℕ :=
  agent.ready.length + 4 * agent.arrivals.length + 2 * agent.held.length + agent.queue.length +
    lag agent.pulses agent.timer

namespace Orderly

variable {agent : Agent} {awake : List Task}

/-- A task that could go on is not woken twice. -/
theorem length_readyWith {task other : Task} (h : agent.Orderly (task :: agent.ready))
    (hne : other ≠ task) (hwanted : agent.Wanted other) :
    (readyWith agent.ready other).length = agent.ready.length :=
  congrArg List.length (if_pos (h.mem_ready hne hwanted))

/-- A listener that finds nothing puts down what it holds, and wakes the consumer only if there was
nothing queued before. -/
theorem work_resume_of_nil (h : agent.Orderly (.listener :: agent.ready)) {listener : Listener}
    (hlistener : listener ∈ agent.listener) (harrivals : agent.arrivals = []) :
    (agent.resume listener.held.toList).1.work ≤ agent.work := by
  have hheld := agent.held_eq hlistener
  have hready : (Intake.readyAfter { queue := agent.queue ++ listener.held.toList, rest := [] }
      agent.ready).length ≤ agent.ready.length + listener.held.toList.length := by
    unfold Intake.readyAfter
    dsimp only
    rw [if_neg Bool.false_ne_true]
    split
    · exact Nat.le_add_right _ _
    next hqueue =>
      cases hunit : listener.held with
      | some unit => exact length_readyWith_le _ _
      | none =>
        rw [hunit, Option.toList_none, List.append_nil] at hqueue
        have hwanted : agent.Wanted .consumer := hqueue
        exact (h.length_readyWith (by simp) hwanted).le
  rw [resume_eq, harrivals, listen]
  unfold work
  rw [hheld]
  simp only [Agent.held, Option.bind_some, Option.toList_none, List.length_nil, List.length_append,
    harrivals] at hready ⊢
  omega

/-- A listener that finds something gets over it, and that makes up for all that it wakes. -/
theorem work_resume_of_cons {listener : Listener} {arrival : Arrival} {rest : List Arrival}
    (hlistener : listener ∈ agent.listener) (harrivals : agent.arrivals = arrival :: rest) :
    (agent.resume listener.held.toList).1.work ≤ agent.work := by
  have hheld := agent.held_eq hlistener
  have hprogress := length_rest_listen_lt agent.room agent.timer arrival rest
    (agent.queue ++ listener.held.toList)
  obtain ⟨passed, last, htakes⟩ := exists_takes_listen agent.room agent.timer turnAllowance
    agent.arrivals (agent.queue ++ listener.held.toList)
  rw [← harrivals] at hprogress
  rw [resume_eq]
  generalize listen agent.room agent.timer turnAllowance agent.arrivals _ = intake
    at htakes hprogress
  obtain ⟨harrived, hqueued, hkept⟩ := htakes.length_le
  have hready := intake.length_readyAfter_le agent.ready
  rw [List.length_append] at hqueued
  unfold work
  rw [hheld]
  simp only [Agent.held]
  omega

theorem work_listenerTurn (h : agent.Orderly (.listener :: agent.ready)) :
    agent.listenerTurn.1.work ≤ agent.work := by
  rcases agent.listenerTurn_cases with ⟨hafter, -⟩ | ⟨hafter, -⟩ | ⟨listener, hlistener, hafter, -⟩
  · rw [hafter]
  · rw [hafter]
    simp [work, Agent.held]
  · rw [hafter]
    cases harrivals : agent.arrivals with
    | nil => exact h.work_resume_of_nil hlistener harrivals
    | cons arrival rest => exact work_resume_of_cons hlistener harrivals

/-- A consumer that wakes the listener has taken something from the queue, or the listener was awake
already. -/
theorem work_consumerTurn {ω : Type} (link : Link ω) (clock : Option Moment) (w : ω)
    (h : agent.Orderly (.consumer :: agent.ready)) :
    (agent.consumerTurn link clock w).1.work ≤ agent.work := by
  rcases agent.consumerTurn_cases link clock w with ⟨hafter, -⟩ |
    ⟨-, node, consuming, hafter, -⟩
  · rw [hafter]
  · rw [hafter]
    have hready : (if (agent.listener.bind Listener.held).isSome = true
        then readyWith agent.ready .listener else agent.ready).length ≤
          agent.ready.length + agent.queue.length := by
      split
      next hheld =>
        cases hqueue : agent.queue with
        | cons unit rest =>
          have hwoken := length_readyWith_le agent.ready .listener
          rw [List.length_cons]
          omega
        | nil =>
          obtain ⟨unit, hheld⟩ := Option.isSome_iff_exists.mp hheld
          obtain ⟨⟨_, pause⟩, hlistener, rfl⟩ := Option.bind_eq_some_iff.mp hheld
          obtain rfl := h.holds _ hlistener (Option.some_ne_none unit)
          have hwanted : agent.Wanted .listener := ⟨_, hlistener, hqueue⟩
          exact (h.length_readyWith (by simp) hwanted).le
      · exact Nat.le_add_right _ _
    simp only [work, Agent.held, List.length_nil]
    omega

/-- To put off a pulse that is due lessens the lag. -/
theorem lag_putOff_lt (h : agent.Orderly awake) {pulse : Pulse}
    (hpulse : pulse ∈ agent.pulses) (hdue : pulse.due ≤ agent.timer) {due : ℕ}
    (hlater : pulse.due < due) :
    lag (putOff agent.pulses pulse.generation due) agent.timer < lag agent.pulses agent.timer := by
  unfold lag putOff
  rw [List.map_map]
  refine List.sum_lt_sum _ _ (fun other hother ↦ ?_) ⟨pulse, hpulse, ?_⟩
  · dsimp only [Function.comp]
    split
    next hgeneration =>
      exact h.eq_of_generation_eq hpulse hother hgeneration ▸ Nat.sub_le_sub_left hlater.le _
    · exact le_rfl
  · dsimp only [Function.comp]
    rw [if_pos rfl]
    exact Nat.sub_lt_sub_left (Nat.lt_succ_of_le hdue) hlater

theorem lt_nextBeat (h : agent.Orderly awake) (due : ℕ) :
    due < nextBeat agent.node.settings.cycle.nanos due agent.timer := by
  have hpace := h.pace
  have hwait : 0 < longestWait := by decide
  unfold nextBeat
  split <;> omega

theorem work_pulseTurn {ω : Type} (link : Link ω) (clock : Option Moment) (generation : ℕ) (w : ω)
    (h : agent.Orderly awake) :
    (agent.pulseTurn link clock generation w).1.work ≤ agent.work := by
  rcases agent.pulseTurn_cases link clock generation w with ⟨hafter, -⟩ |
    ⟨-, -, hafter, -⟩ | ⟨pulse, hpulse, node, hafter, -, -, -, hdue⟩
  · rw [hafter]
  · rw [hafter]
    have hlag : lag (agent.dropPulse generation).pulses agent.timer ≤
        lag agent.pulses agent.timer :=
      (List.filter_sublist.map _).sum_le_sum fun _ _ ↦ Nat.zero_le _
    exact Nat.add_le_add_left hlag _
  · rw [hafter]
    obtain rfl : pulse.generation = generation := by simpa using List.find?_some hpulse
    have hlag := h.lag_putOff_lt (List.mem_of_find?_eq_some hpulse) hdue (h.lt_nextBeat pulse.due)
    have hwoken := length_readyWith_le agent.ready (.pulse pulse.generation)
    unfold work
    dsimp only [Agent.held] at hlag ⊢
    split <;> omega

/-- A turn makes up for all that it wakes. -/
theorem work_turn {ω : Type} (link : Link ω) (clock : Option Moment) {task : Task} (w : ω)
    (h : agent.Orderly (task :: agent.ready)) :
    (agent.turn link clock task w).1.work ≤ agent.work := by
  cases task with
  | listener => exact h.work_listenerTurn
  | consumer => exact h.work_consumerTurn link clock w
  | pulse generation => exact h.work_pulseTurn link clock generation w

end Orderly

variable {ω : Type} (link : Link ω)

/-- At rest, turns change nothing. -/
theorem undergoAll_turns_of_rest (clocks : List (Option Moment)) {agent : Agent}
    (h : agent.ready = []) (w : ω) : undergoAll link (clocks.map .turn) agent w = (agent, w) := by
  induction clocks with
  | nil => rfl
  | cons clock rest ih =>
    have hturn : agent.undergo link (.turn clock) w = (agent, w) := by
      simp only [undergo, step?, h]
    rw [List.map_cons, undergoAll, hturn]
    exact ih

/-- The tasks of an agent in order come to rest, after as many turns as there is work to do. -/
theorem ready_eq_nil_of_work_le {agent : Agent} (h : agent.Orderly agent.ready)
    (clocks : List (Option Moment)) (w : ω) (hwork : agent.work ≤ clocks.length) :
    (undergoAll link (clocks.map .turn) agent w).1.ready = [] := by
  induction clocks generalizing agent w with
  | nil =>
    have hready : agent.ready.length ≤ 0 := le_trans (by unfold work; omega) hwork
    exact List.eq_nil_of_length_eq_zero (Nat.le_zero.mp hready)
  | cons clock rest ih =>
    cases hready : agent.ready with
    | nil => rw [undergoAll_turns_of_rest link _ hready, hready]
    | cons task ready =>
      rw [List.map_cons]
      refine ih (h.undergo link (.turn clock) w) _ ?_
      rw [hready] at h
      have hturn := (h.withReady ready).work_turn link clock w
      have hspent : { agent with ready }.work + 1 = agent.work := by
        unfold work Agent.held
        rw [hready, List.length_cons]
        dsimp only
        omega
      rw [List.length_cons] at hwork
      simp only [undergo, step?, hready]
      omega

end Agent

end Gossip
