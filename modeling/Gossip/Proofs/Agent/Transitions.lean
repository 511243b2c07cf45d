import Gossip.Proofs.Agent
import Gossip.Proofs.Agent.Intake

/-!
What calls and turns do, each in one piece. Waking a task changes nothing but who is ready; a call
that succeeds finds the node as it asks for, and changes a few fields; a task whose turn it is stays
asleep, or ends, or goes on. Whatever else is to be said about an agent follows from these cases. In
its turn a listener tells of failures, a consumer of the units that get through, and a pulse of a
beat that the node does.
-/

set_option autoImplicit false
set_option relaxedAutoImplicit false

namespace Gossip

/-! ### Waking -/

/-- The ready tasks once another has been woken. -/
def readyWith (ready : List Task) (task : Task) : List Task :=
  if task ∈ ready then ready else ready ++ [task]

@[simp] theorem mem_readyWith {ready : List Task} {task other : Task} :
    other ∈ readyWith ready task ↔ other ∈ ready ∨ other = task := by
  unfold readyWith
  split
  next h => exact ⟨Or.inl, fun hor ↦ hor.elim id fun heq ↦ heq ▸ h⟩
  · rw [List.mem_append, List.mem_singleton]

/-- Whoever is ready stays ready, whether another is woken or not. -/
theorem mem_ite_readyWith {ready : List Task} {task other : Task} (h : other ∈ ready) (p : Prop)
    [Decidable p] : other ∈ if p then readyWith ready task else ready := by
  split
  · exact mem_readyWith.mpr (.inl h)
  · exact h

/-- The ready tasks once somebody has listened. -/
def Intake.readyAfter (intake : Intake) (ready : List Task) : List Task :=
  let ready := if intake.queue = [] then ready else readyWith ready .consumer
  if intake.unfinished then readyWith ready .listener else ready

theorem Intake.mem_readyAfter {intake : Intake} {ready : List Task} {task : Task} :
    task ∈ intake.readyAfter ready ↔ task ∈ ready ∨ (task = .consumer ∧ intake.queue ≠ []) ∨
      (task = .listener ∧ intake.unfinished = true) := by
  unfold readyAfter
  dsimp only
  split <;> split <;> simp_all [or_assoc]

namespace Agent

theorem wake_eq (agent : Agent) (task : Task) :
    agent.wake task = { agent with ready := readyWith agent.ready task } := by
  unfold wake readyWith
  split <;> rfl

/-- Waking one task after the other changes nothing but who is ready. -/
theorem foldl_wake_eq {α : Type} (task : α → Task) (due : List α) (agent : Agent) :
    ∃ ready, due.foldl (fun agent a ↦ agent.wake (task a)) agent = { agent with ready } ∧
      ∀ other, other ∈ ready ↔ other ∈ agent.ready ∨ ∃ a ∈ due, task a = other := by
  induction due generalizing agent with
  | nil => exact ⟨agent.ready, rfl, by simp⟩
  | cons a rest ih =>
    obtain ⟨ready, hfold, hmem⟩ := ih (agent.wake (task a))
    refine ⟨ready, hfold.trans (by rw [wake_eq]), fun other ↦ ?_⟩
    rw [hmem, wake_eq, mem_readyWith, or_assoc, List.exists_mem_cons_iff, @eq_comm _ other]

/-! ### Calls -/

theorem start_eq_ok {agent after : Agent} (h : agent.start = .ok after) :
    agent.joined = true ∧ agent.running = false ∧ after =
      { agent with
        running := true
        generation := agent.generation + 1
        pulses := agent.pulses ++ [{ generation := agent.generation + 1, due := agent.timer }]
        ready := readyWith agent.ready (.pulse (agent.generation + 1)) } := by
  unfold start at h
  split at h
  · exact absurd h (by simp)
  next hjoined =>
    split at h
    · exact absurd h (by simp)
    next hrunning =>
      obtain rfl := Except.ok.inj h
      exact ⟨not_not.mp hjoined, Bool.eq_false_iff.mpr hrunning, wake_eq _ _⟩

/-- The agent of a node that has joined, before its first pulse. -/
def admitted (agent : Agent) : Agent :=
  { agent with
    joined := true
    listener := some {}
    consuming := true
    ready := readyWith (readyWith agent.ready .listener) .consumer }

theorem join_eq_ok {agent after : Agent} (h : agent.join = .ok after) :
    agent.joined = false ∧ agent.capacity ≤ queueLimit ∧ agent.admitted.start = .ok after := by
  unfold join at h
  split at h
  · exact absurd h (by simp)
  next hjoined =>
    split at h
    · exact absurd h (by simp)
    next hroom =>
      refine ⟨Bool.eq_false_iff.mpr hjoined, Nat.not_lt.mp hroom, ?_⟩
      dsimp only at h
      rwa [wake_eq, wake_eq] at h

theorem join_of_joined {agent : Agent} (h : agent.joined = true) :
    agent.join = .error .alreadyRunning := by
  unfold join
  rw [if_pos h]

theorem stop_of_not_running {agent : Agent} (h : agent.running = false) : agent.stop = agent := by
  rw [stop, if_neg (by simp [h])]

theorem stop_of_running {agent : Agent} (h : agent.running = true) : ∃ ready,
    agent.stop =
      { agent with
        running := false
        generation := agent.generation + 1
        pulses := agent.pulses.map ({ · with told := true })
        ready } ∧
    ∀ other, other ∈ ready ↔
      other ∈ agent.ready ∨ ∃ pulse ∈ agent.pulses, Task.pulse pulse.generation = other := by
  rw [stop, if_pos h]
  exact foldl_wake_eq (fun pulse : Pulse ↦ .pulse pulse.generation) _ _

theorem running_stop (agent : Agent) : agent.stop.running = false := by
  cases h : agent.running with
  | false => exact (congrArg running (stop_of_not_running h)).trans h
  | true =>
    obtain ⟨_, hstop, -⟩ := stop_of_running h
    exact congrArg running hstop

/-! ### What comes in, and time that passes -/

/-- A task whose time has come is woken. -/
theorem mem_dueTasks {agent : Agent} {task : Task}
    (h : (∃ listener t, agent.listener = some listener ∧ listener.pause = some t ∧
        t ≤ agent.timer ∧ task = .listener) ∨
      ∃ pulse ∈ agent.pulses, pulse.due ≤ agent.timer ∧ task = .pulse pulse.generation) :
    task ∈ agent.dueTasks := by
  unfold dueTasks
  dsimp only
  simp only [List.mem_map, List.mem_mergeSort, List.mem_append, List.mem_filterMap]
  rcases h with ⟨⟨held, _⟩, t, hlistener, rfl, ht, rfl⟩ | ⟨pulse, hpulse, hdue, rfl⟩
  · refine ⟨(t, .listener), .inl ?_, rfl⟩
    rw [hlistener]
    dsimp only
    rw [if_pos ht]
    exact List.mem_singleton_self _
  · exact ⟨(pulse.due, _), .inr ⟨pulse, hpulse, if_pos hdue⟩, rfl⟩

theorem arrive_eq (agent : Agent) (arrival : Arrival) :
    agent.arrive arrival =
      { agent with
        arrivals := agent.arrivals ++ [arrival]
        ready := if agent.listener.isSome then readyWith agent.ready .listener
          else agent.ready } := by
  unfold arrive
  dsimp only
  split
  · rw [wake_eq]
  · rfl

theorem advance_eq (agent : Agent) (nanos : ℕ) : ∃ ready,
    agent.advance nanos = { agent with timer := agent.timer + nanos, ready } ∧
      ∀ other, other ∈ ready ↔
        other ∈ agent.ready ∨ other ∈ { agent with timer := agent.timer + nanos }.dueTasks := by
  obtain ⟨ready, hfold, hready⟩ := foldl_wake_eq id
    { agent with timer := agent.timer + nanos }.dueTasks { agent with timer := agent.timer + nanos }
  exact ⟨ready, hfold, fun other ↦ (hready other).trans (or_congr_right exists_eq_right)⟩

/-! ### Turns -/

/-- A listener that reads on takes over what listening comes to, and wakes the consumer if something
is queued, and itself if it would go on. -/
theorem resume_eq (agent : Agent) (held : List Bytes) :
    let intake := listen agent.room agent.timer turnAllowance agent.arrivals (agent.queue ++ held)
    (agent.resume held).1 =
      { agent with
        listener := intake.listener
        queue := intake.queue
        arrivals := intake.rest
        ready := intake.readyAfter agent.ready } := by
  unfold resume Intake.readyAfter
  simp only [wake_eq]
  split <;> split <;> rfl

/-- A listener stays asleep, or ends because nobody takes from the queue, or reads on. -/
theorem listenerTurn_cases (agent : Agent) :
    (agent.listenerTurn.1 = agent ∧ ∀ listener ∈ agent.listener,
      agent.timer < listener.pause.getD 0 ∨
        listener.held ≠ none ∧ agent.capacity ≤ agent.queue.length) ∨
    (agent.listenerTurn.1 = { agent with listener := none } ∧ agent.consuming = false) ∨
    ∃ listener ∈ agent.listener, agent.listenerTurn.1 = (agent.resume listener.held.toList).1 ∧
      listener.pause.getD 0 ≤ agent.timer ∧
      (listener.held ≠ none → agent.consuming = true ∧ agent.queue.length < agent.capacity) := by
  unfold listenerTurn
  split
  next hnone => exact .inl ⟨rfl, fun _ hsome ↦ absurd (hnone.symm.trans hsome) (by simp)⟩
  next listener hlistener =>
    have heq {other : Listener} (hother : other ∈ agent.listener) : other = listener :=
      Option.some.inj (hother.symm.trans hlistener)
    split
    next hpause => exact .inl ⟨rfl, fun other hother ↦ .inl (heq hother ▸ hpause)⟩
    next hpause =>
      split
      next hheld =>
        refine .inr (.inr ⟨listener, hlistener, by rw [hheld]; rfl, Nat.not_lt.mp hpause, ?_⟩)
        exact fun hsome ↦ absurd hheld hsome
      next unit hheld =>
        split
        next hconsuming => exact .inr (.inl ⟨rfl, hconsuming⟩)
        next hconsuming =>
          split
          next hfull =>
            refine .inl ⟨rfl, fun other hother ↦ .inr ⟨?_, hfull⟩⟩
            rw [heq hother, hheld]
            exact Option.some_ne_none unit
          next hroom =>
            refine .inr (.inr ⟨listener, hlistener, by rw [hheld]; rfl, Nat.not_lt.mp hpause, ?_⟩)
            exact fun _ ↦ ⟨Bool.of_not_eq_false hconsuming, Nat.not_le.mp hroom⟩

/-- While the clock can be read, every unit gets through. -/
theorem fst_handleAll {ω : Type} (link : Link ω) (moment : Moment) (node : Node)
    (units : List Bytes) (w : ω) : (handleAll link (some moment) node units w).1 = true := by
  induction units generalizing node w with
  | nil => rfl
  | cons unit rest ih => exact ih _ _

/-- A consumer takes nothing if it has ended, and everything that is queued else. -/
theorem consumerTurn_cases {ω : Type} (link : Link ω) (clock : Option Moment) (agent : Agent)
    (w : ω) :
    ((agent.consumerTurn link clock w).1 = agent ∧ agent.consuming = false) ∨
    agent.consuming = true ∧ ∃ node consuming, (agent.consumerTurn link clock w).1 =
        { agent with
          node
          consuming
          queue := []
          ready := if (agent.listener.bind Listener.held).isSome
            then readyWith agent.ready .listener else agent.ready } ∧
      node.settings = agent.node.settings ∧ (clock.isSome = true → consuming = true) := by
  unfold consumerTurn
  split
  next hconsuming =>
    refine .inr ⟨hconsuming, ?_⟩
    have hsettings := agent.node.settings_performAll link
      ((agent.node.reached clock agent.queue).map (.handle clock)) w
    rw [performAll_reached] at hsettings
    have hthrough : clock.isSome = true →
        (handleAll link clock agent.node agent.queue w).1 = true := by
      intro hclock
      obtain ⟨moment, rfl⟩ := Option.isSome_iff_exists.mp hclock
      exact fst_handleAll link moment _ _ _
    generalize handleAll link clock agent.node agent.queue w = handled at hsettings hthrough
    obtain ⟨consuming, node, w', events⟩ := handled
    refine ⟨node, consuming, ?_, hsettings, hthrough⟩
    dsimp only
    split
    next heq =>
      rw [wake_eq, heq]
      rfl
    next hother =>
      rw [if_neg]
      rintro hheld
      obtain ⟨unit, hheld⟩ := Option.isSome_iff_exists.mp hheld
      obtain ⟨⟨held, pause⟩, hlistener, rfl⟩ := Option.bind_eq_some_iff.mp hheld
      exact hother unit pause hlistener
  next hconsuming => exact .inl ⟨rfl, Bool.eq_false_iff.mpr hconsuming⟩

/-- The pulses when the one of a generation has been put off. -/
def putOff (pulses : List Pulse) (generation due : ℕ) : List Pulse :=
  pulses.map fun pulse ↦ if pulse.generation = generation then { pulse with due } else pulse

theorem map_generation_putOff (pulses : List Pulse) (generation due : ℕ) :
    (putOff pulses generation due).map Pulse.generation = pulses.map Pulse.generation := by
  unfold putOff
  rw [List.map_map]
  exact List.map_congr_left fun pulse _ ↦ by dsimp only [Function.comp]; split <;> rfl

theorem forall_mem_putOff {pulses : List Pulse} {generation due : ℕ} {p : Pulse → Prop} :
    (∀ pulse ∈ putOff pulses generation due, p pulse) ↔ ∀ pulse ∈ pulses,
      p (if pulse.generation = generation then { pulse with due } else pulse) :=
  List.forall_mem_map

/-- A pulse stays asleep, or ends, or beats and is put off. -/
theorem pulseTurn_cases {ω : Type} (link : Link ω) (clock : Option Moment) (agent : Agent)
    (generation : ℕ) (w : ω) :
    ((agent.pulseTurn link clock generation w).1 = agent ∧
      ∀ pulse ∈ agent.pulses.find? (·.generation = generation),
        pulse.told = false ∧ agent.timer < pulse.due) ∨
    (∃ pulse ∈ agent.pulses.find? (·.generation = generation),
      (agent.pulseTurn link clock generation w).1 = agent.dropPulse generation ∧
        (pulse.told = true ∨ generation ≠ agent.generation ∨ clock = none)) ∨
    ∃ pulse ∈ agent.pulses.find? (·.generation = generation), ∃ node,
      let due := nextBeat agent.node.settings.cycle.nanos pulse.due agent.timer
      (agent.pulseTurn link clock generation w).1 =
        { agent with
          node
          pulses := putOff agent.pulses generation due
          ready := if due ≤ agent.timer then readyWith agent.ready (.pulse generation)
            else agent.ready } ∧
      node.settings = agent.node.settings ∧ pulse.told = false ∧ generation = agent.generation ∧
        pulse.due ≤ agent.timer := by
  unfold pulseTurn
  split
  next hnone => exact .inl ⟨rfl, fun _ hsome ↦ absurd (hnone.symm.trans hsome) (by simp)⟩
  next pulse hpulse =>
    split
    next hends => exact .inr (.inl ⟨pulse, hpulse, rfl, hends.imp_right .inl⟩)
    next hgoes =>
      obtain ⟨htold, hgeneration⟩ := not_or.mp hgoes
      split
      next hlate =>
        refine .inl ⟨rfl, fun other hother ↦ ?_⟩
        obtain rfl := Option.some.inj (hother.symm.trans hpulse)
        exact ⟨Bool.eq_false_iff.mpr htold, hlate⟩
      next hdue =>
        split
        · exact .inr (.inl ⟨pulse, hpulse, rfl, .inr (.inr rfl)⟩)
        next moment =>
          have hsettings := agent.node.settings_perform link (.beat moment) w
          refine .inr (.inr ⟨pulse, hpulse, (agent.node.beat link moment w).1, ?_, hsettings,
            Bool.eq_false_iff.mpr htold, not_not.mp hgeneration, Nat.not_lt.mp hdue⟩)
          dsimp only
          split
          · rw [wake_eq]
            rfl
          · rfl

/-! ### What turns tell -/

/-- A listener tells of failures only. -/
theorem exists_error_of_mem_listenerTurn (agent : Agent) {event : Event}
    (h : event ∈ agent.listenerTurn.2) : ∃ error, event = .failed error := by
  have hresume {held : List Bytes} (h : event ∈ (agent.resume held).2) :
      ∃ error, event = .failed error := by
    obtain ⟨passed, last, htakes⟩ := exists_takes_listen agent.room agent.timer turnAllowance
      agent.arrivals (agent.queue ++ held)
    have hmem : event ∈ (passed ++ last).filterMap Arrival.event? := htakes.told ▸ h
    obtain ⟨arrival, -, htold⟩ := List.mem_filterMap.mp hmem
    cases arrival with
    | unit => exact absurd htold (by simp [Arrival.event?])
    | failure error => exact ⟨error, (Option.some.inj htold).symm⟩
  unfold listenerTurn at h
  split at h
  · exact absurd h List.not_mem_nil
  · split at h
    · exact absurd h List.not_mem_nil
    · split at h
      · exact hresume h
      · split at h
        · exact absurd h List.not_mem_nil
        · split at h
          · exact absurd h List.not_mem_nil
          · exact hresume h

/-- A consumer tells of the units that get through. -/
theorem events_consumerTurn {ω : Type} (link : Link ω) (clock : Option Moment) {agent : Agent}
    (hconsuming : agent.consuming = true) (w : ω) :
    (agent.consumerTurn link clock w).2.2 =
      ((agent.node.reached clock agent.queue).filter (agent.node.letsThrough clock)).map
        .handled := by
  unfold consumerTurn
  rw [if_pos hconsuming, ← events_handleAll link clock agent.node agent.queue w]
  dsimp only
  split <;> rfl

/-- A beat is told of only by a pulse that makes its node beat. -/
theorem exists_beat_of_mem_turn {ω : Type} {link : Link ω} {clock : Option Moment} {agent : Agent}
    {task : Task} {w : ω} (h : .beat ∈ (agent.turn link clock task w).2.2) :
    ∃ moment, .beat moment ∈ agent.taskOperations clock task := by
  cases task with
  | listener =>
    obtain ⟨_, hfailed⟩ := exists_error_of_mem_listenerTurn agent h
    exact absurd hfailed (by simp)
  | consumer =>
    change .beat ∈ (agent.consumerTurn link clock w).2.2 at h
    cases hconsuming : agent.consuming with
    | false =>
      rw [consumerTurn, if_neg (by simp [hconsuming])] at h
      exact absurd h List.not_mem_nil
    | true =>
      rw [events_consumerTurn link clock hconsuming] at h
      obtain ⟨_, -, hhandled⟩ := List.mem_map.mp h
      exact absurd hhandled (by simp)
  | pulse generation =>
    change .beat ∈ (agent.pulseTurn link clock generation w).2.2 at h
    have hgoes : ¬(clock = none ∨ agent.beats generation = false) := fun hrests ↦ by
      rw [(pulseTurn_of_rests link clock hrests w).2] at h
      exact List.not_mem_nil h
    obtain ⟨hclock, hbeats⟩ := not_or.mp hgoes
    obtain ⟨moment, rfl⟩ := Option.ne_none_iff_exists'.mp hclock
    refine ⟨moment, ?_⟩
    unfold taskOperations
    dsimp only
    rw [if_pos (Bool.of_not_eq_false hbeats)]
    exact List.mem_singleton_self _

/-- A beat is told of only where the node beats. -/
theorem exists_beat_of_mem_events {ω : Type} {link : Link ω} {agent : Agent}
    {occurrence : Occurrence} {w : ω} (h : .beat ∈ agent.events link occurrence w) :
    ∃ moment, .beat moment ∈ agent.operations occurrence := by
  cases occurrence with
  | turn clock =>
    unfold events step? at h
    unfold operations
    cases hready : agent.ready with
    | nil => simp [hready] at h
    | cons task ready =>
      simp only [hready] at h
      obtain ⟨moment, hbeat⟩ := exists_beat_of_mem_turn h
      exact ⟨moment, hbeat⟩
  | join | start | stop | shutdown | publish | set | nodes | peers | status | arrive | advance =>
    exact absurd h List.not_mem_nil

/-- Turns touch neither the flags nor the timer. -/
theorem turn_frame {ω : Type} (link : Link ω) (clock : Option Moment) (agent : Agent) (task : Task)
    (w : ω) :
    let after := (agent.turn link clock task w).1
    after.joined = agent.joined ∧ after.running = agent.running ∧ after.timer = agent.timer := by
  cases task with
  | listener =>
    change agent.listenerTurn.1.joined = _ ∧ agent.listenerTurn.1.running = _ ∧
      agent.listenerTurn.1.timer = _
    rcases agent.listenerTurn_cases with ⟨hafter, -⟩ | ⟨hafter, -⟩ | ⟨_, -, hafter, -⟩ <;>
      rw [hafter]
    · exact ⟨rfl, rfl, rfl⟩
    · exact ⟨rfl, rfl, rfl⟩
    · rw [resume_eq]
      exact ⟨rfl, rfl, rfl⟩
  | consumer =>
    change (agent.consumerTurn link clock w).1.joined = _ ∧
      (agent.consumerTurn link clock w).1.running = _ ∧
      (agent.consumerTurn link clock w).1.timer = _
    rcases agent.consumerTurn_cases link clock w with ⟨hafter, -⟩ | ⟨-, _, _, hafter, -⟩ <;>
      rw [hafter] <;> exact ⟨rfl, rfl, rfl⟩
  | pulse generation =>
    change (agent.pulseTurn link clock generation w).1.joined = _ ∧
      (agent.pulseTurn link clock generation w).1.running = _ ∧
      (agent.pulseTurn link clock generation w).1.timer = _
    rcases agent.pulseTurn_cases link clock generation w with ⟨hafter, -⟩ | ⟨_, -, hafter, -⟩ |
      ⟨_, -, _, hafter, -⟩ <;> rw [hafter] <;> exact ⟨rfl, rfl, rfl⟩

end Agent

end Gossip
