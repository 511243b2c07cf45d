import Gossip.Offload
import Gossip.Proofs.Agent.Rest

/-!
What comes in is handled. The listener and the consumer of a joined node hand every unit on, through
a queue that holds only so many: the listener waits with one in its hand while the queue is full,
and pauses after some failures. Nothing is lost, doubled or passed by on this way, whatever arrives
and however the node is stopped and started meanwhile; and nothing gets stuck, since the two wake
each other whenever one waits for the other.
-/

set_option autoImplicit false
set_option relaxedAutoImplicit false

namespace Gossip

/-- What arrives with an occurrence. -/
def Occurrence.arrival? : Occurrence → Option Arrival
  | .arrive arrival => some arrival
  | _ => none

/-- The unit that an operation handles. -/
def Operation.unit? : Operation → Option Bytes
  | .handle _ unit => some unit
  | _ => none

/-- The unit that the consumer tells that it has handled. -/
def Event.unit? : Event → Option Bytes
  | .handled unit => some unit
  | _ => none

namespace Agent

variable {ω : Type} (link : Link ω)

/-- The time until which the listener pauses. -/
def pauseEnd (agent : Agent) : ℕ := ((agent.listener.bind Listener.pause).getD 0)

/-- What an agent has read to become another, with the time on the timer. -/
def reads (agent after : Agent) : List (ℕ × Arrival) :=
  (agent.arrivals.take (agent.arrivals.length - after.arrivals.length)).map (agent.timer, ·)

/-- What is read in a run. -/
def readings : List Occurrence → Agent → ω → List (ℕ × Arrival)
  | [], _, _ => []
  | occurrence :: rest, agent, w =>
    let (after, w) := agent.undergo link occurrence w
    agent.reads after ++ readings rest after w

/-- What has become of all that has arrived: what has been read of it and when, and the units that
have been handled. -/
structure Receives (agent : Agent) (arrivals : List Arrival) (read : List (ℕ × Arrival))
    (handled : List Bytes) : Prop where
  joined : agent.joined = true
  /-- Arrivals are read once, in the order in which they came. -/
  arrived : read.map Prod.snd ++ agent.arrivals = arrivals
  /-- The units among them, and these alone, are handled once, in the same order, or are queued, or
  held back. -/
  kept : handled ++ (agent.queue ++ agent.held) = read.filterMap (·.2.unit?)
  /-- What follows a failure that asks for a pause is read after the pause. -/
  spaced : read.Pairwise fun first second ↦
    first.2.pauses = true → first.1 + receivePause ≤ second.1
  past : ∀ arrival ∈ read, arrival.1 ≤ agent.timer
  awaited : ∀ arrival ∈ read, arrival.2.pauses = true →
    arrival.1 + receivePause ≤ max agent.timer agent.pauseEnd
  /-- The listener pauses only after such a failure, and not for longer. -/
  pausing : ∀ listener ∈ agent.listener, ∀ t ∈ listener.pause,
    ∃ last ∈ read.getLast?, last.2.pauses = true ∧ t = last.1 + receivePause

/-- The units that a run handles. -/
structure Handles (occurrences : List Occurrence) (agent : Agent) (w : ω) (units : List Bytes) :
    Prop where
  /-- The consumer tells of them. -/
  told : (eventsAll link occurrences agent w).filterMap Event.unit? = units
  /-- They are what the node handles among all that it does. -/
  handled : (deeds link occurrences agent w).filterMap Operation.unit? = units
  /-- Nothing but what the node does has made it, and the world, what they are. -/
  performed : (Node.performAll link (deeds link occurrences agent w) agent.node w).2 =
    ((undergoAll link occurrences agent w).1.node, (undergoAll link occurrences agent w).2)

theorem Handles.of_eq {occurrences : List Occurrence} {agent : Agent} {w : ω}
    {units others : List Bytes} (h : Handles link occurrences agent w units)
    (heq : units = others) : Handles link occurrences agent w others :=
  heq ▸ h

/-! ### One occurrence -/

theorem reads_of_append {agent after : Agent} {taken : List Arrival}
    (h : agent.arrivals = taken ++ after.arrivals) :
    agent.reads after = taken.map (agent.timer, ·) := by
  unfold reads
  rw [h, List.length_append, Nat.add_sub_cancel, List.take_left]

theorem reads_of_length_le {agent after : Agent}
    (h : agent.arrivals.length ≤ after.arrivals.length) : agent.reads after = [] := by
  unfold reads
  rw [Nat.sub_eq_zero_of_le h, List.take_zero, List.map_nil]

namespace Receives

variable {agent : Agent} {arrivals : List Arrival} {read : List (ℕ × Arrival)}
  {handled : List Bytes}

/-- A listener that reads on puts units into the queue, and what does not fit into its hand. -/
theorem resume (h : agent.Receives arrivals read handled)
    (hconsuming : agent.consuming = true) {listener : Listener}
    (hlistener : listener ∈ agent.listener) (hpause : listener.pause.getD 0 ≤ agent.timer) :
    (agent.resume listener.held.toList).1.Receives arrivals
      (read ++ agent.reads (agent.resume listener.held.toList).1) handled := by
  have hheld := agent.held_eq hlistener
  have hend : agent.pauseEnd ≤ agent.timer := by
    rw [pauseEnd, hlistener]
    exact hpause
  obtain ⟨passed, last, htakes⟩ := exists_takes_listen agent.room agent.timer turnAllowance
    agent.arrivals (agent.queue ++ listener.held.toList)
  rw [resume_eq]
  generalize listen agent.room agent.timer turnAllowance agent.arrivals _ = intake at htakes
  have hsplit : agent.arrivals = passed ++ last ++ intake.rest :=
    htakes.split.trans (List.append_assoc _ _ _).symm
  have hroom : agent.room ≠ none := by simp [room, hconsuming]
  rw [reads_of_append hsplit]
  exact
    { joined := h.joined
      arrived := by
        rw [List.map_append, List.map_map, ← h.arrived, hsplit, ← List.append_assoc]
        simp
      kept := by
        rw [List.filterMap_append, ← h.kept, List.filterMap_map, Agent.held,
          htakes.ends.held_eq hroom, htakes.queue_eq, hheld]
        simp
      spaced := by
        refine List.pairwise_append.mpr ⟨h.spaced, ?_, fun first hfirst second hsecond hpauses ↦ ?_⟩
        · refine List.pairwise_map.mpr (htakes.pairwise.imp fun hsmooth hpauses ↦ ?_)
          exact absurd hpauses (by simp [hsmooth])
        · obtain ⟨arrival, -, rfl⟩ := List.mem_map.mp hsecond
          exact (h.awaited first hfirst hpauses).trans (max_le le_rfl hend)
      past := by
        refine List.forall_mem_append.mpr ⟨h.past, List.forall_mem_map.mpr fun _ _ ↦ le_rfl⟩
      awaited := by
        refine List.forall_mem_append.mpr ⟨fun first hfirst hpauses ↦ ?_,
          List.forall_mem_map.mpr fun arrival harrival hpauses ↦ ?_⟩
        · exact ((h.awaited first hfirst hpauses).trans (max_le le_rfl hend)).trans
            (le_max_left _ _)
        · rcases List.mem_append.mp harrival with hpassed | hlast
          · exact absurd hpauses (by simp [htakes.smooth arrival hpassed])
          · have hafter := htakes.ends.pause_of_pauses hlast hpauses
            exact le_max_of_le_right (by simp [pauseEnd, hafter])
      pausing := by
        intro listener hlistener t ht
        obtain ⟨arrival, rfl, hpauses, ht⟩ := htakes.ends.exists_of_pause hlistener ht
        exact ⟨(agent.timer, arrival), by simp, hpauses, ht⟩ }

/-- Arrivals, units and times are none of the business of what touches neither the queue nor the
listener. -/
theorem frame (h : agent.Receives arrivals read handled) {after : Agent}
    (hjoined : after.joined = true) (harrivals : after.arrivals = agent.arrivals)
    (hqueue : after.queue = agent.queue) (hlistener : after.listener = agent.listener)
    (htimer : agent.timer ≤ after.timer) :
    after.Receives arrivals (read ++ agent.reads after) handled := by
  rw [reads_of_length_le (harrivals ▸ Nat.le_refl _), List.append_nil]
  exact
    { joined := hjoined
      arrived := harrivals ▸ h.arrived
      kept := by
        rw [Agent.held, hqueue, hlistener]
        exact h.kept
      spaced := h.spaced
      past := fun arrival harrival ↦ (h.past arrival harrival).trans htimer
      awaited := fun arrival harrival hpauses ↦ by
        rw [pauseEnd, hlistener]
        exact (h.awaited arrival harrival hpauses).trans (max_le_max_right _ htimer)
      pausing := hlistener ▸ h.pausing }

theorem arrive (h : agent.Receives arrivals read handled) (arrival : Arrival) :
    (agent.arrive arrival).Receives (arrivals ++ [arrival])
      (read ++ agent.reads (agent.arrive arrival)) handled := by
  rw [arrive_eq, reads_of_length_le (by simp), List.append_nil]
  exact
    { h with
      arrived := by
        rw [← h.arrived, List.append_assoc] }

theorem listenerTurn (h : agent.Receives arrivals read handled)
    (hconsuming : agent.consuming = true) :
    agent.listenerTurn.1.Receives arrivals (read ++ agent.reads agent.listenerTurn.1) handled := by
  rcases agent.listenerTurn_cases with ⟨hafter, -⟩ | ⟨-, hended⟩ |
    ⟨listener, hlistener, hafter, hpause, -⟩
  · rw [hafter]
    exact h.frame h.joined rfl rfl rfl le_rfl
  · exact absurd hended (by simp [hconsuming])
  · rw [hafter]
    exact h.resume hconsuming hlistener hpause

/-- A consumer handles what is queued, and leaves it to the listener what that holds back. -/
theorem consumerTurn (h : agent.Receives arrivals read handled)
    (hconsuming : agent.consuming = true) (clock : Option Moment) (w : ω) :
    (agent.consumerTurn link clock w).1.Receives arrivals
      (read ++ agent.reads (agent.consumerTurn link clock w).1) (handled ++ agent.queue) := by
  rcases agent.consumerTurn_cases link clock w with ⟨-, hended⟩ | ⟨-, node, consuming, hafter, -⟩
  · exact absurd hended (by simp [hconsuming])
  · rw [hafter, reads_of_length_le (by simp), List.append_nil]
    exact
      { h with
        kept := by
          rw [← h.kept, List.append_assoc]
          rfl }

end Receives

/-! ### Units that are handled -/

/-- While the clock can be read, all units that are queued are reached. -/
theorem reached_some (node : Node) (moment : Moment) (units : List Bytes) :
    node.reached (some moment) units = units := by
  induction units with
  | nil => rfl
  | cons unit rest ih => exact congrArg (unit :: ·) ih

/-- A pulse handles nothing. -/
theorem filterMap_unit?_pulse (agent : Agent) (clock : Option Moment) (generation : ℕ) :
    (agent.taskOperations clock (.pulse generation)).filterMap Operation.unit? = [] := by
  unfold taskOperations
  cases clock with
  | none => rfl
  | some moment =>
    dsimp only
    split <;> rfl

/-- A consumer handles what is queued. -/
theorem filterMap_unit?_consumer {agent : Agent} (hconsuming : agent.consuming = true)
    (moment : Moment) :
    (agent.taskOperations (some moment) .consumer).filterMap Operation.unit? = agent.queue := by
  unfold taskOperations
  dsimp only
  rw [if_pos hconsuming, reached_some, List.filterMap_map]
  exact List.filterMap_some

/-- While the clock can be read, a task tells of the units that it handles. -/
theorem filterMap_unit?_turn (agent : Agent) (moment : Moment) (task : Task) (w : ω) :
    (agent.turn link (some moment) task w).2.2.filterMap Event.unit? =
      (agent.taskOperations (some moment) task).filterMap Operation.unit? := by
  cases task with
  | listener =>
    refine List.filterMap_eq_nil_iff.mpr fun event hevent ↦ ?_
    obtain ⟨_, rfl⟩ := exists_error_of_mem_listenerTurn agent hevent
    rfl
  | consumer =>
    change (agent.consumerTurn link (some moment) w).2.2.filterMap Event.unit? = _
    cases hconsuming : agent.consuming with
    | false => simp [consumerTurn, taskOperations, hconsuming]
    | true =>
      have hthrough : agent.queue.filter (agent.node.letsThrough (some moment)) = agent.queue :=
        List.filter_eq_self.mpr fun _ _ ↦ rfl
      rw [filterMap_unit?_consumer hconsuming, events_consumerTurn link _ hconsuming,
        reached_some, hthrough, List.filterMap_map]
      exact List.filterMap_some
  | pulse generation =>
    rw [filterMap_unit?_pulse]
    change (agent.pulseTurn link (some moment) generation w).2.2.filterMap Event.unit? = []
    cases hbeats : agent.beats generation with
    | false => rw [(pulseTurn_of_rests link (some moment) (.inr hbeats) w).2]; rfl
    | true => rw [(pulseTurn_of_beats link hbeats moment w).2]; rfl

theorem filterMap_unit?_events (agent : Agent) {occurrence : Occurrence}
    (hclock : occurrence.ReadsClock) (w : ω) :
    (agent.events link occurrence w).filterMap Event.unit? =
      (agent.operations occurrence).filterMap Operation.unit? := by
  cases occurrence with
  | turn clock =>
    obtain ⟨moment, rfl⟩ := Option.isSome_iff_exists.mp hclock
    unfold events step? operations
    cases agent.ready with
    | nil => rfl
    | cons task ready => exact filterMap_unit?_turn link { agent with ready } moment task w
  | join | start | stop | shutdown | publish | set | nodes | peers | status | arrive | advance =>
    rfl

/-- While the clock can be read, a run handles the units that the consumer tells of. -/
theorem handles_told {occurrences : List Occurrence}
    (hclock : ∀ occurrence ∈ occurrences, occurrence.ReadsClock) (agent : Agent) (w : ω) :
    Handles link occurrences agent w
      ((eventsAll link occurrences agent w).filterMap Event.unit?) where
  told := rfl
  handled := by
    induction occurrences generalizing agent w with
    | nil => rfl
    | cons occurrence rest ih =>
      obtain ⟨hfirst, hrest⟩ := List.forall_mem_cons.mp hclock
      rw [deeds, eventsAll, List.filterMap_append, List.filterMap_append,
        filterMap_unit?_events link agent hfirst w, ih hrest]
  performed := performAll_deeds link occurrences agent w

/-! ### Runs -/

namespace Receives

variable {agent : Agent} {arrivals : List Arrival} {read : List (ℕ × Arrival)}
  {handled : List Bytes}

theorem turn (h : agent.Receives arrivals read handled) (hconsuming : agent.consuming = true)
    (moment : Moment) (task : Task) (w : ω) :
    (agent.turn link (some moment) task w).1.Receives arrivals
      (read ++ agent.reads (agent.turn link (some moment) task w).1)
      (handled ++ (agent.taskOperations (some moment) task).filterMap Operation.unit?) := by
  cases task with
  | listener => exact (List.append_nil handled).symm ▸ h.listenerTurn hconsuming
  | consumer =>
    rw [filterMap_unit?_consumer hconsuming]
    exact h.consumerTurn link hconsuming (some moment) w
  | pulse generation =>
    rw [filterMap_unit?_pulse, List.append_nil]
    change (agent.pulseTurn link (some moment) generation w).1.Receives arrivals
      (read ++ agent.reads (agent.pulseTurn link (some moment) generation w).1) handled
    rcases agent.pulseTurn_cases link (some moment) generation w with ⟨hafter, -⟩ |
      ⟨_, -, hafter, -⟩ | ⟨_, -, _, hafter, -⟩ <;>
      rw [hafter] <;> exact h.frame h.joined rfl rfl rfl le_rfl

/-- Nothing is lost by what happens to a node that stays. Assumes: it is no shutdown, and the clock
can be read. -/
theorem undergo (h : agent.Receives arrivals read handled) (hconsuming : agent.consuming = true)
    {occurrence : Occurrence} (hclock : occurrence.ReadsClock) (hstays : occurrence ≠ .shutdown)
    (w : ω) : (agent.undergo link occurrence w).1.Receives
      (arrivals ++ occurrence.arrival?.toList)
      (read ++ agent.reads (agent.undergo link occurrence w).1)
      (handled ++ (agent.operations occurrence).filterMap Operation.unit?) := by
  cases occurrence with
  | shutdown => exact absurd rfl hstays
  | arrive arrival =>
    have hafter := h.arrive arrival
    rwa [← List.append_nil handled] at hafter
  | join =>
    simp only [Agent.undergo, join_of_joined h.joined, operations, Occurrence.arrival?,
      List.filterMap_nil, List.append_nil, Option.toList_none]
    exact h.frame h.joined rfl rfl rfl le_rfl
  | start =>
    simp only [Agent.undergo, operations, Occurrence.arrival?, List.filterMap_nil, List.append_nil,
      Option.toList_none]
    cases hstart : agent.start with
    | error _ => exact h.frame h.joined rfl rfl rfl le_rfl
    | ok after =>
      obtain ⟨-, -, rfl⟩ := start_eq_ok hstart
      exact h.frame h.joined rfl rfl rfl le_rfl
  | stop =>
    simp only [Agent.undergo, operations, Occurrence.arrival?, List.filterMap_nil, List.append_nil,
      Option.toList_none]
    cases hrunning : agent.running with
    | false =>
      rw [stop_of_not_running hrunning]
      exact h.frame h.joined rfl rfl rfl le_rfl
    | true =>
      obtain ⟨ready, hstop, -⟩ := stop_of_running hrunning
      rw [hstop]
      exact h.frame h.joined rfl rfl rfl le_rfl
  | publish | set | nodes | peers | status =>
    simp only [operations, Occurrence.arrival?, Option.toList_none, List.append_nil,
      List.filterMap_cons, List.filterMap_nil, Operation.unit?]
    exact h.frame h.joined rfl rfl rfl le_rfl
  | advance nanos =>
    obtain ⟨ready, hadvance, -⟩ := agent.advance_eq nanos
    simp only [Agent.undergo, hadvance, operations, Occurrence.arrival?, List.filterMap_nil,
      List.append_nil, Option.toList_none]
    exact h.frame h.joined rfl rfl rfl (Nat.le_add_right _ _)
  | turn clock =>
    obtain ⟨moment, rfl⟩ := Option.isSome_iff_exists.mp hclock
    rw [show (Occurrence.turn (some moment)).arrival? = none from rfl, Option.toList_none,
      List.append_nil]
    cases hready : agent.ready with
    | nil =>
      simp only [Agent.undergo, step?, operations, hready, List.head?_nil, Option.map_none,
        Option.getD_none, List.filterMap_nil, List.append_nil]
      exact h.frame h.joined rfl rfl rfl le_rfl
    | cons task ready =>
      have hpopped : { agent with ready }.Receives arrivals read handled := { h with }
      simp only [Agent.undergo, step?, operations, hready, List.head?_cons, Option.map_some,
        Option.getD_some]
      exact hpopped.turn link hconsuming moment task w

/-- Nothing is lost in a run. -/
theorem undergoAll (h : agent.Receives arrivals read handled) (horder : agent.Orderly agent.ready)
    (hstaffed : agent.Staffed) {occurrences : List Occurrence}
    (hclock : ∀ occurrence ∈ occurrences, occurrence.ReadsClock)
    (hstays : .shutdown ∉ occurrences) (w : ω) :
    (undergoAll link occurrences agent w).1.Receives
      (arrivals ++ occurrences.filterMap Occurrence.arrival?)
      (read ++ readings link occurrences agent w)
      (handled ++ (deeds link occurrences agent w).filterMap Operation.unit?) := by
  induction occurrences generalizing agent arrivals read handled w with
  | nil =>
    simpa only [readings, deeds, Agent.undergoAll, List.filterMap_nil, List.append_nil] using h
  | cons occurrence rest ih =>
    obtain ⟨hfirst, hrest⟩ := List.forall_mem_cons.mp hclock
    obtain ⟨hne, hstays⟩ := not_or.mp (List.mem_cons.not.mp hstays)
    have hafter := h.undergo link (hstaffed.attended h.joined).2 hfirst (Ne.symm hne) w
    have hrun := ih hafter (horder.undergo link occurrence w)
      (hstaffed.undergo link hfirst w horder) hrest hstays (agent.undergo link occurrence w).2
    have harrivals : (occurrence :: rest).filterMap Occurrence.arrival? =
        occurrence.arrival?.toList ++ rest.filterMap Occurrence.arrival? := by
      rw [List.filterMap_cons]
      cases occurrence.arrival? <;> rfl
    rw [List.append_assoc, ← harrivals, List.append_assoc, List.append_assoc,
      ← List.filterMap_append] at hrun
    exact hrun

/-- What a node has received once it has joined: nothing yet. -/
theorem of_join {before : Agent} (horder : before.Orderly before.ready)
    (hjoin : before.join = .ok agent) : agent.Receives agent.arrivals [] [] := by
  obtain ⟨hjoined, -, hstart⟩ := join_eq_ok hjoin
  obtain ⟨-, -, rfl⟩ := start_eq_ok hstart
  have hqueue : before.queue = [] := horder.drained (horder.outside hjoined).2
  exact
    { joined := rfl
      arrived := rfl
      kept := by simp [Agent.held, admitted, hqueue]
      spaced := .nil
      past := List.forall_mem_nil _
      awaited := List.forall_mem_nil _
      pausing := by
        rintro _ ⟨rfl⟩ t ht
        exact absurd ht (Option.not_mem_none _) }

/-! ### At rest -/

/-- At rest, nothing is queued or held back, and nothing waits to be read unless a pause has not
passed. -/
theorem at_rest (h : agent.Receives arrivals read handled) (horder : agent.Orderly [])
    (hstaffed : agent.Staffed) : agent.queue = [] ∧ agent.held = [] ∧
      (agent.arrivals = [] ∨ ∃ last ∈ read.getLast?, last.2.pauses = true ∧
        agent.timer < last.1 + receivePause) := by
  have hrest (task : Task) : ¬agent.Wanted task := fun hwanted ↦
    List.not_mem_nil (horder.wanted task hwanted)
  have hqueue : agent.queue = [] := not_not.mp (hrest .consumer)
  obtain ⟨listener, hlistener⟩ := Option.isSome_iff_exists.mp (hstaffed.attended h.joined).1
  have hasleep : ¬listener.Wanted agent.timer agent.queue agent.arrivals := fun hwanted ↦
    hrest .listener ⟨listener, hlistener, hwanted⟩
  have hheld := agent.held_eq hlistener
  rw [hheld]
  obtain ⟨held, pause⟩ := listener
  cases pause with
  | some t =>
    have hnone : held = none := by
      by_contra hsome
      exact absurd (horder.holds _ hlistener hsome) (by simp)
    obtain ⟨last, hlast, hpauses, rfl⟩ := h.pausing _ hlistener t rfl
    exact ⟨hqueue, by rw [hnone]; rfl, .inr ⟨last, hlast, hpauses, Nat.not_le.mp hasleep⟩⟩
  | none =>
    cases held with
    | some unit => exact absurd hqueue hasleep
    | none => exact ⟨hqueue, rfl, .inl (not_not.mp hasleep)⟩

end Receives

/-! ### Waiting -/

/-- A pause passes, and then tasks take turns. -/
def wait (moments : List Moment) : List Occurrence :=
  .advance receivePause :: (moments.map some).map .turn

/-- Whether the tasks have come to rest after each of some waits. -/
def RestsEach : List (List Moment) → Agent → ω → Prop
  | [], _, _ => True
  | moments :: rest, agent, w =>
    let run := undergoAll link (wait moments) agent w
    run.1.ready = [] ∧ RestsEach rest run.1 run.2

theorem eq_of_mem_wait {moments : List Moment} {occurrence : Occurrence}
    (h : occurrence ∈ wait moments) :
    occurrence = .advance receivePause ∨ ∃ moment, occurrence = .turn (some moment) := by
  rcases List.mem_cons.mp h with rfl | hturn
  · exact .inl rfl
  · obtain ⟨_, hmoment, rfl⟩ := List.mem_map.mp hturn
    obtain ⟨moment, -, rfl⟩ := List.mem_map.mp hmoment
    exact .inr ⟨moment, rfl⟩

theorem readsClock_wait (moments : List Moment) :
    ∀ occurrence ∈ wait moments, occurrence.ReadsClock := by
  intro occurrence hoccurrence
  obtain rfl | ⟨moment, rfl⟩ := eq_of_mem_wait hoccurrence
  · trivial
  · rfl

theorem shutdown_notMem_wait (moments : List Moment) : .shutdown ∉ wait moments :=
  fun hmem ↦ (eq_of_mem_wait hmem).elim nofun nofun

/-- The tasks of an agent in order can be waited for, as often as one likes. -/
theorem exists_restsEach (moment : Moment) {agent : Agent} (horder : agent.Orderly agent.ready)
    (count : ℕ) (w : ω) :
    ∃ waits : List (List Moment), waits.length = count ∧ RestsEach link waits agent w := by
  induction count generalizing agent w with
  | zero => exact ⟨[], rfl, trivial⟩
  | succ count ih =>
    have hadvanced := horder.undergo link (.advance receivePause) w
    let moments := List.replicate (agent.undergo link (.advance receivePause) w).1.work moment
    have hrest : (undergoAll link (wait moments) agent w).1.ready = [] :=
      ready_eq_nil_of_work_le link hadvanced _ _ (by simp [moments])
    obtain ⟨waits, hlength, hrests⟩ := ih (horder.undergoAll link (wait moments) w)
      (undergoAll link (wait moments) agent w).2
    exact ⟨moments :: waits, congrArg (· + 1) hlength, hrest, hrests⟩

/-- Nothing arrives in a wait. -/
theorem filterMap_arrival?_wait (moments : List Moment) :
    (wait moments).filterMap Occurrence.arrival? = [] := by
  refine List.filterMap_eq_nil_iff.mpr fun occurrence hoccurrence ↦ ?_
  obtain rfl | ⟨moment, rfl⟩ := eq_of_mem_wait hoccurrence <;> rfl

/-- No time passes in turns. -/
theorem timer_undergoAll_turns (clocks : List (Option Moment)) (agent : Agent) (w : ω) :
    (undergoAll link (clocks.map .turn) agent w).1.timer = agent.timer := by
  induction clocks generalizing agent w with
  | nil => rfl
  | cons clock rest ih =>
    refine (ih _ _).trans ?_
    cases hready : agent.ready with
    | nil => simp only [step?, hready]
    | cons task ready =>
      simp only [step?, hready]
      exact (turn_frame link clock { agent with ready } task w).2.2

theorem timer_undergoAll_wait (moments : List Moment) (agent : Agent) (w : ω) :
    (undergoAll link (wait moments) agent w).1.timer = agent.timer + receivePause := by
  obtain ⟨_, hadvance, -⟩ := agent.advance_eq receivePause
  exact (timer_undergoAll_turns link _ _ _).trans (congrArg timer hadvance)

namespace Receives

variable {agent : Agent} {arrivals : List Arrival} {read : List (ℕ × Arrival)}
  {handled : List Bytes}

/-- Nothing is lost in a wait, and nothing arrives. -/
theorem wait (h : agent.Receives arrivals read handled) (horder : agent.Orderly agent.ready)
    (hstaffed : agent.Staffed) (moments : List Moment) (w : ω) :
    (Agent.undergoAll link (Agent.wait moments) agent w).1.Receives arrivals
      (read ++ readings link (Agent.wait moments) agent w)
      (handled ++ (deeds link (Agent.wait moments) agent w).filterMap Operation.unit?) := by
  have hafter := h.undergoAll link horder hstaffed (readsClock_wait moments)
    (shutdown_notMem_wait moments) w
  rwa [filterMap_arrival?_wait, List.append_nil] at hafter

/-- When the tasks rest after a wait, something more has been read, or nothing is left. -/
theorem progress (h : agent.Receives arrivals read handled) (horder : agent.Orderly agent.ready)
    (hstaffed : agent.Staffed) (moments : List Moment) (w : ω)
    (hrest : (Agent.undergoAll link (Agent.wait moments) agent w).1.ready = []) :
    (Agent.undergoAll link (Agent.wait moments) agent w).1.arrivals = [] ∨
      (Agent.undergoAll link (Agent.wait moments) agent w).1.arrivals.length <
        agent.arrivals.length := by
  have htimer := timer_undergoAll_wait link moments agent w
  have hafter := h.wait link horder hstaffed moments w
  obtain ⟨-, -, hcalm⟩ := hafter.at_rest (hrest ▸ horder.undergoAll link _ w)
    (hstaffed.undergoAll link (readsClock_wait moments) w horder)
  refine hcalm.imp_right fun ⟨last, hlast, _, hpauses⟩ ↦ ?_
  have harrived := hafter.arrived.trans h.arrived.symm
  rw [List.map_append, List.append_assoc, List.append_cancel_left_eq] at harrived
  cases hnew : readings link (Agent.wait moments) agent w with
  | cons first new =>
    rw [← harrived, hnew, List.length_append, List.length_map, List.length_cons]
    omega
  | nil =>
    -- The listener would still pause after what it had read before, but that is too long ago.
    rw [hnew, List.append_nil] at hlast
    have hpast := h.past last (List.mem_of_getLast? hlast)
    omega

/-- If nothing more arrives, all that has arrived has got through after so many waits. -/
theorem empty_of_waits (h : agent.Receives arrivals read handled)
    (horder : agent.Orderly agent.ready) (hstaffed : agent.Staffed) (waits : List (List Moment))
    (w : ω) (henough : agent.arrivals.length < waits.length)
    (hrests : RestsEach link waits agent w) :
    handled ++ (deeds link (waits.flatMap Agent.wait) agent w).filterMap Operation.unit? =
      arrivals.filterMap Arrival.unit? := by
  induction waits generalizing agent read handled w with
  | nil => exact absurd henough (Nat.not_lt_zero _)
  | cons moments rest ih =>
    obtain ⟨hrest, hrests⟩ := hrests
    have hafter := h.wait link horder hstaffed moments w
    have horder' := horder.undergoAll link (Agent.wait moments) w
    have hstaffed' := hstaffed.undergoAll link (readsClock_wait moments) w horder
    have hprogress := h.progress link horder hstaffed moments w hrest
    rw [List.flatMap_cons, deeds_append, List.filterMap_append, ← List.append_assoc]
    cases rest with
    | cons next rest =>
      refine ih hafter horder' hstaffed' _ ?_ hrests
      rcases hprogress with hnone | hless
      · rw [hnone]
        exact Nat.succ_pos _
      · exact lt_of_lt_of_le hless (Nat.le_of_lt_succ henough)
    | nil =>
      have hnone : (Agent.undergoAll link (Agent.wait moments) agent w).1.arrivals = [] := by
        refine hprogress.resolve_right fun hless ↦ ?_
        rw [List.length_singleton] at henough
        omega
      obtain ⟨hqueue, hheld, -⟩ := hafter.at_rest (hrest ▸ horder') hstaffed'
      have hkept := hafter.kept
      rw [hqueue, hheld, List.append_nil, List.append_nil] at hkept
      rw [hkept, ← hafter.arrived, hnone, List.append_nil, List.filterMap_map]
      exact List.append_nil _

end Receives

/-! ### All that arrives -/

/-- Assumes: the node has been built and, after anything that has happened to it, joined. Then it
stays, however it is stopped and started, while units and failures of any kind arrive and the clock
can be read; time passes and tasks take turns as they like.

What the consumer tells that it has handled is what the node has handled among all that it has done,
and nothing else has made the node, and the world, what they are. Arrivals are read once each and in
their order, nothing within the pause after a failure that asks for one; the units among them, and
nothing else, are handled once each and in the same order, but for those that are queued, no more
than fit, and the one that is held back. The tasks that do this do not end. They come to rest, and then all units
that were read have been handled, and all has been read but what follows a failure whose pause has
not passed. One can wait as often as one likes for a pause to pass and the tasks to rest. After more
such waits than there are arrivals left, without a further one, exactly the units that have arrived
have been handled, in the order of their arrival. -/
theorem handles_all_that_arrives {self : Member} {settings : Settings} {offload : Bool}
    {built : Instant} {node : Node} (hbuild : Node.build self settings offload built = .ok node)
    (earlier : List Occurrence) (w : ω) {joined : Agent}
    (hjoin : (undergoAll link earlier { node } w).1.join = .ok joined) (later : List Occurrence)
    (hclock : ∀ occurrence ∈ later, occurrence.ReadsClock) (hstays : .shutdown ∉ later) :
    let w := (undergoAll link earlier { node } w).2
    let run := undergoAll link later joined w
    let arrived := joined.arrivals ++ later.filterMap Occurrence.arrival?
    let read := readings link later joined w
    let handled := (eventsAll link later joined w).filterMap Event.unit?
    Handles link later joined w handled ∧
    run.1.Receives arrived read handled ∧
    run.1.queue.length ≤ run.1.capacity ∧
    (run.1.listener.isSome = true ∧ run.1.consuming = true) ∧
    (∃ enough, ∀ clocks : List (Option Moment), enough ≤ clocks.length →
      (undergoAll link (clocks.map .turn) run.1 run.2).1.ready = []) ∧
    (run.1.ready = [] → handled = read.filterMap (·.2.unit?) ∧
      (run.1.arrivals = [] ∨ ∃ last ∈ read.getLast?, last.2.pauses = true ∧
        run.1.timer < last.1 + receivePause)) ∧
    (∀ count, ∃ waits : List (List Moment), waits.length = count ∧
      RestsEach link waits run.1 run.2) ∧
    ∀ waits : List (List Moment), run.1.arrivals.length < waits.length →
      RestsEach link waits run.1 run.2 →
      Handles link (later ++ waits.flatMap wait) joined w (arrived.filterMap Arrival.unit?) := by
  have horder : Orderly { node } [] := .of_build hbuild
  have hbefore := horder.undergoAll link earlier w
  generalize undergoAll link earlier { node } w = before at hjoin hbefore
  obtain ⟨before, w⟩ := before
  have hstaffed : joined.Staffed := Staffed.join hbefore hjoin
  have hstart := hbefore.join hjoin
  have hreceives := (Receives.of_join hbefore hjoin).undergoAll link hstart hstaffed hclock hstays w
  have horder' := hstart.undergoAll link later w
  have hstaffed' := hstaffed.undergoAll link hclock w hstart
  have hhandles := handles_told link hclock joined w
  rw [List.nil_append, List.nil_append, hhandles.handled] at hreceives
  refine ⟨hhandles, hreceives, horder'.fits, hstaffed'.attended hreceives.joined,
    ⟨_, fun clocks hwork ↦ ready_eq_nil_of_work_le link horder' clocks _ hwork⟩, fun hrest ↦ ?_,
    fun count ↦ exists_restsEach link (.plain built) horder' count _,
    fun waits henough hrests ↦ ?_⟩
  · obtain ⟨hqueue, hheld, harrivals⟩ := hreceives.at_rest (hrest ▸ horder') hstaffed'
    have hkept := hreceives.kept
    rw [hqueue, hheld, List.append_nil, List.append_nil] at hkept
    exact ⟨hkept, harrivals⟩
  · have hwaits : ∀ occurrence ∈ later ++ waits.flatMap wait, occurrence.ReadsClock :=
      List.forall_mem_append.mpr ⟨hclock, List.forall_mem_flatMap.mpr fun moments _ ↦
        readsClock_wait moments⟩
    have hall := handles_told link hwaits joined w
    have hunits := hreceives.empty_of_waits link horder' hstaffed' waits _ henough hrests
    rw [← hhandles.handled, ← List.filterMap_append, ← deeds_append] at hunits
    exact hall.of_eq link (hall.handled.symm.trans hunits)

end Agent

/-- A member whose queue holds one unit. -/
def narrow : Member := { addr := "10.0.0.1", port := 1 }

/-- The clock when it was built. -/
def opening : Moment := .plain (.ofParts 1700000000 0)

/-- The answer of another member that holds a version. -/
def reply (version : Int64) : Bytes :=
  Packet.encode ⟨"", .swapResponse ⟨{ addr := "10.0.0.2", port := 1 }, .ofData [1] version⟩⟩

/-- Its tasks take some turns. -/
def someTurns : List Occurrence := List.replicate 8 (.turn (some opening))

/-- A unit that is no packet, an answer and two failures come in, after the second of which the
listener pauses. The node is stopped, another answer comes in, the node is started again, and the
pause passes. -/
def trickling : List Occurrence :=
  [.arrive (.unit [1]), .arrive (.failure (.oversized 9 8)), .arrive (.unit (reply 5)),
    .arrive (.failure (.transport "down"))] ++ someTurns ++
  [.stop, .arrive (.unit (reply 7))] ++ someTurns ++ [.start] ++ someTurns ++
  [.advance receivePause] ++ someTurns

/-- All three units have been handled, in their order, and the node stores the version of the last
answer. -/
theorem handles_all_that_trickles :
    ∃ node joined, Node.build narrow { buffer := 1 } false opening.now = .ok node ∧
      ({ node } : Agent).join = .ok joined ∧
      (∀ occurrence ∈ trickling, occurrence.ReadsClock) ∧ .shutdown ∉ trickling ∧
      Agent.Handles Offload.link trickling joined {} [[1], reply 5, reply 7] ∧
      (Agent.undergoAll Offload.link trickling joined {}).1.node.metadata.version = 7 := by
  have hbuild : Node.build narrow { buffer := 1 } false opening.now = .ok _ := rfl
  have hclock : ∀ occurrence ∈ trickling, occurrence.ReadsClock := by
    simp [trickling, someTurns, Occurrence.ReadsClock]
  have hstays : .shutdown ∉ trickling := by simp [trickling, someTurns]
  have hall := Agent.handles_all_that_arrives Offload.link hbuild [] {} rfl trickling hclock hstays
  obtain ⟨hhandles, -, -, -, -, hrest, -⟩ := hall
  obtain ⟨hhandled, -⟩ := hrest (by decide +kernel)
  exact ⟨_, _, hbuild, rfl, hclock, hstays,
    hhandles.of_eq _ (hhandled.trans (by decide +kernel)), by decide +kernel⟩

end Gossip
