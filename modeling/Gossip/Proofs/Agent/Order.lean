import Gossip.Proofs.Agent.Transitions
import Gossip.Proofs.Construction

/-!
Agents in order. A task that could go on is among the ready ones: nobody sleeps through what it
waits for. Only a joined node has tasks that listen and consume, no queue holds more than it can,
and of the pulses only the current one, while the node runs, has not been told to stop. All this
holds after any occurrences. While the clock can be read, moreover, no task ends by itself: a joined
node is attended, and a running one has its pulse.
-/

set_option autoImplicit false
set_option relaxedAutoImplicit false

namespace Gossip

/-! ### What tasks wait for -/

/-- Whether a listener could go on: its pause is over, there is room for what it holds back, or
something has arrived. -/
def Listener.Wanted (timer : ℕ) (queue : List Bytes) (arrivals : List Arrival) : Listener → Prop
  | { pause := some t, .. } => t ≤ timer
  | { held := some _, pause := none } => queue = []
  | { held := none, pause := none } => arrivals ≠ []

/-- A listener has stopped because it could not go on, or because its turn was over. -/
theorem Intake.Ends.unfinished_of_wanted {room : Option ℕ} {now : ℕ} {queue : List Bytes}
    {rest last : List Arrival} {unfinished : Bool} {after : Option Listener}
    (h : Ends room now queue rest unfinished last after)
    (hroom : ∀ capacity ∈ room, 0 < capacity) {listener : Listener} (hafter : listener ∈ after)
    (hwanted : listener.Wanted now queue rest) : unfinished = true := by
  obtain rfl := hafter
  cases h with
  | read h => exact h.resolve_right hwanted
  | full unit hcapacity hfull =>
    have hqueue : queue = [] := hwanted
    rw [hqueue] at hfull
    exact absurd (hroom _ hcapacity) (Nat.not_lt.mpr hfull)
  | pause =>
    have hpause : now + receivePause ≤ now := hwanted
    exact absurd hpause (Nat.not_le.mpr (Nat.lt_add_of_pos_right (by decide)))

namespace Agent

/-- Whether a task could go on. -/
def Wanted (agent : Agent) : Task → Prop
  | .listener => ∃ listener, agent.listener = some listener ∧
      listener.Wanted agent.timer agent.queue agent.arrivals
  | .consumer => agent.queue ≠ []
  | .pulse generation => ∃ pulse ∈ agent.pulses, pulse.generation = generation ∧
      (pulse.told = true ∨ pulse.due ≤ agent.timer)

/-- An agent is in order if all tasks that could go on are among some, and the rest of it is as it
should be. -/
structure Orderly (agent : Agent) (awake : List Task) : Prop where
  wanted : ∀ task, agent.Wanted task → task ∈ awake
  room : 0 < agent.capacity
  pace : 0 < agent.node.settings.cycle.nanos
  running : agent.running = true → agent.joined = true
  outside : agent.joined = false → agent.listener = none ∧ agent.consuming = false
  drained : agent.consuming = false → agent.queue = []
  fits : agent.queue.length ≤ agent.capacity
  /-- The listener holds nothing back while it pauses, and else only what does not fit. -/
  holds : ∀ listener ∈ agent.listener, listener.held ≠ none → listener.pause = none
  distinct : (agent.pulses.map Pulse.generation).Nodup
  past : ∀ pulse ∈ agent.pulses, pulse.generation ≤ agent.generation
  current : ∀ pulse ∈ agent.pulses, pulse.told = false →
    agent.running = true ∧ pulse.generation = agent.generation

namespace Orderly

variable {agent : Agent} {awake : List Task}

/-- Who is ready says nothing about what tasks wait for. -/
theorem withReady (h : agent.Orderly awake) (ready : List Task) :
    { agent with ready }.Orderly awake :=
  ⟨h.wanted, h.room, h.pace, h.running, h.outside, h.drained, h.fits, h.holds, h.distinct, h.past,
    h.current⟩

theorem pos_of_room (h : agent.Orderly awake) : ∀ capacity ∈ agent.room, 0 < capacity := by
  unfold Agent.room
  intro capacity hcapacity
  split at hcapacity
  · obtain rfl := Option.some.inj hcapacity
    exact h.room
  · exact absurd hcapacity (Option.not_mem_none _)

/-- What the node does in its stores is none of the tasks' business. -/
theorem withNode (h : agent.Orderly awake) {node : Node}
    (hsettings : node.settings = agent.node.settings) : { agent with node }.Orderly awake where
  __ := h
  room := by
    unfold capacity
    rw [hsettings]
    exact h.room
  pace := hsettings ▸ h.pace
  fits := by
    unfold capacity
    rw [hsettings]
    exact h.fits

/-! ### Calls -/

theorem start {after : Agent} (h : agent.Orderly agent.ready) (hstart : agent.start = .ok after) :
    after.Orderly after.ready := by
  obtain ⟨hjoined, hrunning, rfl⟩ := start_eq_ok hstart
  exact
    { h with
      wanted := by
        rintro (_ | _ | generation) hwanted
        · exact mem_readyWith.mpr (.inl (h.wanted .listener hwanted))
        · exact mem_readyWith.mpr (.inl (h.wanted .consumer hwanted))
        · obtain ⟨pulse, hpulse, rfl, hdue⟩ := hwanted
          rcases List.mem_append.mp hpulse with hold | hnew
          · exact mem_readyWith.mpr (.inl (h.wanted (.pulse _) ⟨pulse, hold, rfl, hdue⟩))
          · obtain rfl := List.mem_singleton.mp hnew
            exact mem_readyWith.mpr (.inr rfl)
      running := fun _ ↦ hjoined
      distinct := by
        rw [List.map_append, List.nodup_append]
        refine ⟨h.distinct, List.nodup_singleton _, fun _ hold _ hnew ↦ ?_⟩
        obtain ⟨pulse, hpulse, rfl⟩ := List.mem_map.mp hold
        obtain rfl := List.mem_singleton.mp hnew
        exact Nat.ne_of_lt (Nat.lt_succ_of_le (h.past pulse hpulse))
      past := by
        refine List.forall_mem_append.mpr ⟨fun pulse hpulse ↦ ?_, by simp⟩
        exact Nat.le_succ_of_le (h.past pulse hpulse)
      current := by
        refine List.forall_mem_append.mpr ⟨fun pulse hpulse htold ↦ ?_, by simp⟩
        exact absurd (h.current pulse hpulse htold).1 (by simp [hrunning]) }

theorem admitted (h : agent.Orderly agent.ready) (hjoined : agent.joined = false) :
    agent.admitted.Orderly agent.admitted.ready :=
  { h with
    wanted := by
      rintro (_ | _ | generation) hwanted
      · simp [Agent.admitted]
      · simp [Agent.admitted]
      · simp only [Agent.admitted, mem_readyWith]
        exact .inl (.inl (h.wanted (.pulse generation) hwanted))
    running := fun _ ↦ rfl
    outside := fun hout ↦ absurd hout (by simp [Agent.admitted])
    drained := fun _ ↦ h.drained (h.outside hjoined).2
    holds := fun _ hlistener hheld ↦ by
      obtain rfl := Option.some.inj hlistener
      exact absurd rfl hheld }

theorem join {after : Agent} (h : agent.Orderly agent.ready) (hjoin : agent.join = .ok after) :
    after.Orderly after.ready :=
  have ⟨hjoined, _, hstart⟩ := join_eq_ok hjoin
  (h.admitted hjoined).start hstart

theorem stop (h : agent.Orderly agent.ready) : agent.stop.Orderly agent.stop.ready := by
  cases hrunning : agent.running with
  | false => rwa [stop_of_not_running hrunning]
  | true =>
    obtain ⟨ready, hstop, hready⟩ := stop_of_running hrunning
    rw [hstop]
    exact
      { h with
        wanted := by
          rintro (_ | _ | generation) hwanted
          · exact (hready _).mpr (.inl (h.wanted .listener hwanted))
          · exact (hready _).mpr (.inl (h.wanted .consumer hwanted))
          · obtain ⟨pulse, hpulse, rfl, -⟩ := hwanted
            obtain ⟨pulse, hold, rfl⟩ := List.mem_map.mp hpulse
            exact (hready _).mpr (.inr ⟨pulse, hold, rfl⟩)
        running := fun hfalse ↦ absurd hfalse Bool.false_ne_true
        distinct := by rw [List.map_map]; exact h.distinct
        past := by
          refine List.forall_mem_map.mpr fun pulse hpulse ↦ ?_
          exact Nat.le_succ_of_le (h.past pulse hpulse)
        current := List.forall_mem_map.mpr fun _ _ htold ↦ absurd htold (by simp) }

theorem shutdown (h : agent.Orderly agent.ready) :
    agent.shutdown.Orderly agent.shutdown.ready := by
  unfold Agent.shutdown
  have hstop := h.stop
  have hrunning := agent.running_stop
  generalize agent.stop = stopped at hstop hrunning
  dsimp only
  split
  · exact
      { hstop with
        wanted := by
          rintro (_ | _ | generation) hwanted
          · exact absurd hwanted.choose_spec.1 (by simp)
          · exact absurd rfl hwanted
          · exact hstop.wanted (.pulse generation) hwanted
        running := fun htrue ↦ absurd htrue (by simp [hrunning])
        outside := fun _ ↦ ⟨rfl, rfl⟩
        drained := fun _ ↦ rfl
        fits := Nat.zero_le _
        holds := fun _ hlistener ↦ absurd hlistener (by simp) }
  · exact hstop

/-! ### What comes in, and time that passes -/

theorem arrive (h : agent.Orderly agent.ready) (arrival : Arrival) :
    (agent.arrive arrival).Orderly (agent.arrive arrival).ready := by
  rw [arrive_eq]
  exact
    { h with
      wanted := by
        rintro (_ | _ | generation) hwanted
        · obtain ⟨listener, hlistener, -⟩ := hwanted
          dsimp only at hlistener ⊢
          rw [if_pos (Option.isSome_of_mem hlistener)]
          exact mem_readyWith.mpr (.inr rfl)
        · exact mem_ite_readyWith (h.wanted .consumer hwanted) _
        · exact mem_ite_readyWith (h.wanted (.pulse generation) hwanted) _ }

theorem advance (h : agent.Orderly agent.ready) (nanos : ℕ) :
    (agent.advance nanos).Orderly (agent.advance nanos).ready := by
  obtain ⟨ready, hadvance, hready⟩ := agent.advance_eq nanos
  rw [hadvance]
  exact
    { h with
      wanted := by
        rintro (_ | _ | generation) hwanted
        · obtain ⟨⟨held, _ | t⟩, hlistener, hwanted⟩ := hwanted
          · refine (hready _).mpr (.inl (h.wanted .listener ⟨_, hlistener, ?_⟩))
            cases held <;> exact hwanted
          · exact (hready _).mpr (.inr (mem_dueTasks (.inl ⟨_, t, hlistener, rfl, hwanted, rfl⟩)))
        · exact (hready _).mpr (.inl (h.wanted .consumer hwanted))
        · obtain ⟨pulse, hpulse, rfl, htold | htime⟩ := hwanted
          · exact (hready _).mpr (.inl (h.wanted (.pulse _) ⟨pulse, hpulse, rfl, .inl htold⟩))
          · exact (hready _).mpr (.inr (mem_dueTasks (.inr ⟨pulse, hpulse, htime, rfl⟩))) }

/-! ### Turns -/

section Turns

variable {task : Task}

/-- A task may rest if what it waits for has not come. -/
theorem rest (h : agent.Orderly (task :: agent.ready)) (hrest : ¬agent.Wanted task) :
    agent.Orderly agent.ready where
  __ := h
  wanted := fun other hwanted ↦
    (List.mem_cons.mp (h.wanted other hwanted)).resolve_left fun heq ↦ hrest (heq ▸ hwanted)

/-- A task other than the one whose turn it is stays ready. -/
theorem mem_ready (h : agent.Orderly (task :: agent.ready)) {other : Task} (hne : other ≠ task)
    (hwanted : agent.Wanted other) : other ∈ agent.ready :=
  (List.mem_cons.mp (h.wanted other hwanted)).resolve_left hne

/-- What a listener holds back fits into the queue when it reads on, or there is nothing. -/
theorem length_append_held_le (h : agent.Orderly (task :: agent.ready)) {listener : Listener}
    (hheld : listener.held ≠ none → agent.consuming = true ∧
      agent.queue.length < agent.capacity) :
    (agent.queue ++ listener.held.toList).length ≤ agent.capacity := by
  rw [List.length_append]
  cases hsome : listener.held with
  | none => exact h.fits
  | some unit => exact (hheld (by simp [hsome])).2

theorem resume (h : agent.Orderly (.listener :: agent.ready)) {listener : Listener}
    (hlistener : listener ∈ agent.listener)
    (hheld : listener.held ≠ none → agent.consuming = true ∧
      agent.queue.length < agent.capacity) :
    (agent.resume listener.held.toList).1.Orderly
      (agent.resume listener.held.toList).1.ready := by
  obtain ⟨passed, last, htakes⟩ := exists_takes_listen agent.room agent.timer turnAllowance
    agent.arrivals (agent.queue ++ listener.held.toList)
  have hfits := h.length_append_held_le hheld
  rw [resume_eq]
  generalize listen agent.room agent.timer turnAllowance agent.arrivals _ = intake at htakes
  have hidle (hconsuming : agent.consuming = false) : intake.queue = [] := by
    have hnone : listener.held = none :=
      not_not.mp fun hsome ↦ absurd (hheld hsome).1 (by simp [hconsuming])
    rw [htakes.queue_eq, htakes.unattended (by simp [Agent.room, hconsuming]), hnone,
      h.drained hconsuming]
    rfl
  exact
    { h with
      wanted := by
        rintro (_ | _ | generation) hwanted <;> refine Intake.mem_readyAfter.mpr ?_
        · obtain ⟨later, hlater, hwanted⟩ := hwanted
          exact .inr (.inr ⟨rfl, htakes.ends.unfinished_of_wanted h.pos_of_room hlater hwanted⟩)
        · exact .inr (.inl ⟨rfl, hwanted⟩)
        · exact .inl (h.mem_ready (by simp) hwanted)
      outside := fun hjoined ↦
        absurd (hlistener.symm.trans (h.outside hjoined).1) (Option.some_ne_none _)
      drained := hidle
      fits := by
        cases hconsuming : agent.consuming with
        | false =>
          rw [hidle hconsuming]
          exact Nat.zero_le _
        | true => exact htakes.fits agent.capacity (if_pos hconsuming) hfits
      holds := fun _ hlater ↦ htakes.ends.pause_eq_none hlater }

theorem listenerTurn (h : agent.Orderly (.listener :: agent.ready)) :
    agent.listenerTurn.1.Orderly agent.listenerTurn.1.ready := by
  rcases agent.listenerTurn_cases with ⟨hafter, hasleep⟩ | ⟨hafter, hconsuming⟩ |
    ⟨listener, hlistener, hafter, hpause, hheld⟩
  · rw [hafter]
    refine h.rest fun ⟨⟨held, pause⟩, hlistener, hwanted⟩ ↦ ?_
    rcases hasleep _ hlistener with hpause | ⟨hheld, hfull⟩
    · cases pause with
      | none => exact absurd hpause (Nat.not_lt_zero _)
      | some t => exact absurd hwanted (Nat.not_le.mpr hpause)
    · obtain rfl := h.holds _ hlistener hheld
      obtain ⟨unit, rfl⟩ := Option.ne_none_iff_exists'.mp hheld
      have hqueue : agent.queue = [] := hwanted
      rw [hqueue] at hfull
      exact absurd h.room (Nat.not_lt.mpr hfull)
  · rw [hafter]
    exact
      { h with
        wanted := by
          rintro (_ | _ | generation) hwanted
          · exact absurd hwanted.choose_spec.1 (by simp)
          · exact absurd (h.drained hconsuming) hwanted
          · exact h.mem_ready (by simp) hwanted
        outside := fun hjoined ↦ ⟨rfl, (h.outside hjoined).2⟩
        holds := fun _ hnone ↦ absurd hnone (by simp) }
  · rw [hafter]
    exact h.resume hlistener hheld

theorem consumerTurn {ω : Type} (link : Link ω) (clock : Option Moment) (w : ω)
    (h : agent.Orderly (.consumer :: agent.ready)) :
    (agent.consumerTurn link clock w).1.Orderly (agent.consumerTurn link clock w).1.ready := by
  rcases agent.consumerTurn_cases link clock w with ⟨hafter, hconsuming⟩ |
    ⟨hconsuming, node, consuming, hafter, hsettings, -⟩
  · rw [hafter]
    exact h.rest fun hwanted ↦ hwanted (h.drained hconsuming)
  · rw [hafter]
    exact
      { h.withNode hsettings with
        wanted := by
          rintro (_ | _ | generation) hwanted
          · obtain ⟨⟨_ | unit, pause⟩, hlistener, hwanted⟩ := hwanted
            · rw [hlistener]
              refine h.mem_ready (by simp) ⟨_, hlistener, ?_⟩
              cases pause <;> exact hwanted
            · rw [hlistener]
              exact mem_readyWith.mpr (.inr rfl)
          · exact absurd rfl hwanted
          · have hready : Task.pulse generation ∈ agent.ready := h.mem_ready (by simp) hwanted
            exact mem_ite_readyWith hready _
        outside := fun hjoined ↦ absurd (h.outside hjoined).2 (by simp [hconsuming])
        drained := fun _ ↦ rfl
        fits := Nat.zero_le _ }

/-- There is but one pulse of a generation. -/
theorem eq_of_generation_eq (h : agent.Orderly awake) {pulse other : Pulse}
    (hpulse : pulse ∈ agent.pulses) (hother : other ∈ agent.pulses)
    (hgeneration : other.generation = pulse.generation) : other = pulse :=
  List.inj_on_of_nodup_map h.distinct hother hpulse hgeneration

theorem find_pulse (h : agent.Orderly awake) {pulse : Pulse}
    (hpulse : pulse ∈ agent.pulses) {generation : ℕ} (hgeneration : pulse.generation = generation) :
    agent.pulses.find? (·.generation = generation) = some pulse := by
  cases hfind : agent.pulses.find? (·.generation = generation) with
  | none => exact absurd hgeneration (by simpa using List.find?_eq_none.mp hfind pulse hpulse)
  | some other =>
    have hother : other.generation = generation := by simpa using List.find?_some hfind
    exact congrArg some (h.eq_of_generation_eq hpulse (List.mem_of_find?_eq_some hfind)
      (hother.trans hgeneration.symm))

theorem pulseTurn {ω : Type} (link : Link ω) (clock : Option Moment) (generation : ℕ) (w : ω)
    (h : agent.Orderly (.pulse generation :: agent.ready)) :
    (agent.pulseTurn link clock generation w).1.Orderly
      (agent.pulseTurn link clock generation w).1.ready := by
  rcases agent.pulseTurn_cases link clock generation w with ⟨hafter, hasleep⟩ |
    ⟨pulse, hpulse, hafter, -⟩ | ⟨pulse, hpulse, node, hafter, hsettings, htold, hcurrent, hdue⟩
  · rw [hafter]
    refine h.rest fun ⟨pulse, hpulse, hgeneration, hwanted⟩ ↦ ?_
    obtain ⟨htold, hlate⟩ := hasleep pulse (h.find_pulse hpulse hgeneration)
    exact hwanted.elim (by simp [htold]) (Nat.not_le.mpr hlate)
  · rw [hafter]
    exact
      { h with
        wanted := by
          rintro (_ | _ | other) hwanted
          · exact h.mem_ready (by simp) hwanted
          · exact h.mem_ready (by simp) hwanted
          · obtain ⟨pulse, hpulse, rfl, hwanted⟩ := hwanted
            obtain ⟨hpulse, hne⟩ := List.mem_filter.mp hpulse
            exact h.mem_ready (by simpa using hne) ⟨pulse, hpulse, rfl, hwanted⟩
        distinct := h.distinct.sublist (List.filter_sublist.map _)
        past := fun pulse hpulse ↦ h.past pulse (List.mem_filter.mp hpulse).1
        current := fun pulse hpulse ↦ h.current pulse (List.mem_filter.mp hpulse).1 }
  · rw [hafter]
    exact
      { h.withNode hsettings with
        wanted := by
          rintro (_ | _ | other) hwanted
          · have hready : Task.listener ∈ agent.ready := h.mem_ready (by simp) hwanted
            exact mem_ite_readyWith hready _
          · have hready : Task.consumer ∈ agent.ready := h.mem_ready (by simp) hwanted
            exact mem_ite_readyWith hready _
          · obtain ⟨_, hlater, rfl, hwanted⟩ := hwanted
            obtain ⟨old, hold, rfl⟩ := List.mem_map.mp hlater
            by_cases hgeneration : old.generation = generation
            · obtain rfl := Option.some.inj ((h.find_pulse hold hgeneration).symm.trans hpulse)
              simp only [hgeneration, if_true, htold, Bool.false_eq_true, false_or] at hwanted ⊢
              rw [if_pos hwanted]
              exact mem_readyWith.mpr (.inr rfl)
            · rw [if_neg hgeneration] at hwanted ⊢
              have hready : Task.pulse old.generation ∈ agent.ready :=
                h.mem_ready (by simpa using hgeneration) ⟨old, hold, rfl, hwanted⟩
              exact mem_ite_readyWith hready _
        distinct := (map_generation_putOff _ _ _).symm ▸ h.distinct
        past := forall_mem_putOff.mpr fun pulse hpulse ↦ by
          split <;> exact h.past pulse hpulse
        current := forall_mem_putOff.mpr fun pulse hpulse ↦ by
          split <;> exact h.current pulse hpulse }

theorem turn {ω : Type} (link : Link ω) (clock : Option Moment) (w : ω)
    (h : agent.Orderly (task :: agent.ready)) :
    (agent.turn link clock task w).1.Orderly (agent.turn link clock task w).1.ready := by
  cases task with
  | listener => exact h.listenerTurn
  | consumer => exact h.consumerTurn link clock w
  | pulse generation => exact h.pulseTurn link clock generation w

end Turns

/-! ### Runs -/

theorem undergo {ω : Type} (link : Link ω) (occurrence : Occurrence) (w : ω)
    (h : agent.Orderly agent.ready) : (agent.undergo link occurrence w).1.Orderly
      (agent.undergo link occurrence w).1.ready := by
  cases occurrence with
  | join => exact getD_induction (p := fun after ↦ after.Orderly after.ready) h fun _ ↦ h.join
  | start => exact getD_induction (p := fun after ↦ after.Orderly after.ready) h fun _ ↦ h.start
  | stop => exact h.stop
  | shutdown => exact h.shutdown
  | publish moment data => exact h.withNode (settings_undergo link agent (.publish moment data) w)
  | set member now | nodes moment | peers moment | status moment => exact h.withNode rfl
  | arrive arrival => exact h.arrive arrival
  | advance nanos => exact h.advance nanos
  | turn clock =>
    cases hready : agent.ready with
    | nil =>
      simp only [Agent.undergo, step?, hready]
      exact hready ▸ h
    | cons task ready =>
      rw [hready] at h
      simp only [Agent.undergo, step?, hready]
      exact (h.withReady ready).turn link clock w

/-- Whatever happens, an agent stays in order. -/
theorem undergoAll {ω : Type} (link : Link ω) (occurrences : List Occurrence) (w : ω)
    (h : agent.Orderly agent.ready) : (undergoAll link occurrences agent w).1.Orderly
      (undergoAll link occurrences agent w).1.ready := by
  induction occurrences generalizing agent w with
  | nil => exact h
  | cons occurrence rest ih => exact ih _ (h.undergo link occurrence w)

/-- A node that has been built has no tasks yet, and is in order. -/
theorem of_build {self : Member} {settings : Settings} {offload : Bool} {built : Instant}
    {node : Node} (hbuild : Node.build self settings offload built = .ok node) :
    Orderly { node } [] where
  wanted := by
    rintro (_ | _ | generation) hwanted
    · exact absurd hwanted.choose_spec.1 (by simp)
    · exact absurd rfl hwanted
    · exact absurd hwanted.choose_spec.1 (List.not_mem_nil)
  room := (Settings.usable_of_normalize (Node.eq_of_build hbuild).1).buffer
  pace := (Settings.usable_of_normalize (Node.eq_of_build hbuild).1).cycle
  running := fun h ↦ absurd h Bool.false_ne_true
  outside := fun _ ↦ ⟨rfl, rfl⟩
  drained := fun _ ↦ rfl
  fits := Nat.zero_le _
  holds := fun _ h ↦ absurd h (Option.not_mem_none _)
  distinct := .nil
  past := List.forall_mem_nil _
  current := List.forall_mem_nil _

end Orderly

/-! ### Tasks that do not end -/

/-- An agent is staffed if its tasks are there: those that listen and consume if it has joined, and
a pulse if it runs. -/
structure Staffed (agent : Agent) : Prop where
  attended : agent.joined = true → agent.listener.isSome = true ∧ agent.consuming = true
  beating : agent.running = true → ∃ pulse ∈ agent.pulses, pulse.told = false

end Agent

/-- A turn whose task can read the clock, or anything but a turn. -/
def Occurrence.ReadsClock : Occurrence → Prop
  | .turn clock => clock.isSome = true
  | _ => True

namespace Agent.Staffed

variable {agent after : Agent}

theorem start (h : agent.Staffed) (hstart : agent.start = .ok after) : after.Staffed := by
  obtain ⟨-, -, rfl⟩ := start_eq_ok hstart
  exact
    { h with
      beating := fun _ ↦ ⟨_, List.mem_append_right _ (List.mem_singleton_self _), rfl⟩ }

theorem join (h : agent.Orderly agent.ready) (hjoin : agent.join = .ok after) :
    after.Staffed := by
  obtain ⟨hjoined, -, hstart⟩ := join_eq_ok hjoin
  have hadmitted : agent.admitted.Staffed :=
    { attended := fun _ ↦ ⟨rfl, rfl⟩
      beating := fun hrunning ↦ absurd (h.running hrunning) (by simp [hjoined]) }
  exact hadmitted.start hstart

theorem stop (h : agent.Staffed) : agent.stop.Staffed := by
  cases hrunning : agent.running with
  | false => rwa [stop_of_not_running hrunning]
  | true =>
    obtain ⟨ready, hstop, -⟩ := stop_of_running hrunning
    rw [hstop]
    exact { h with beating := fun hfalse ↦ absurd hfalse Bool.false_ne_true }

theorem shutdown (h : agent.Staffed) : agent.shutdown.Staffed := by
  unfold Agent.shutdown
  dsimp only
  split
  · exact { h.stop with attended := fun hfalse ↦ absurd hfalse Bool.false_ne_true }
  · exact h.stop

theorem listenerTurn (h : agent.Staffed) : agent.listenerTurn.1.Staffed := by
  rcases agent.listenerTurn_cases with ⟨hafter, -⟩ | ⟨hafter, hconsuming⟩ |
    ⟨listener, -, hafter, -⟩
  · rwa [hafter]
  · rw [hafter]
    exact { h with attended := fun hjoined ↦ absurd (h.attended hjoined).2 (by simp [hconsuming]) }
  · obtain ⟨passed, last, htakes⟩ := exists_takes_listen agent.room agent.timer turnAllowance
      agent.arrivals (agent.queue ++ listener.held.toList)
    rw [hafter, resume_eq]
    refine { h with attended := fun hjoined ↦ ⟨?_, (h.attended hjoined).2⟩ }
    exact htakes.ends.isSome (by simp [room, (h.attended hjoined).2])

/-- A consumer that can read the clock gets through everything. -/
theorem consumerTurn {ω : Type} (link : Link ω) {clock : Option Moment}
    (hclock : clock.isSome = true) (w : ω) (h : agent.Staffed) :
    (agent.consumerTurn link clock w).1.Staffed := by
  rcases agent.consumerTurn_cases link clock w with ⟨hafter, -⟩ |
    ⟨-, node, consuming, hafter, -, hthrough⟩
  · rwa [hafter]
  · rw [hafter]
    exact { h with attended := fun hjoined ↦ ⟨(h.attended hjoined).1, hthrough hclock⟩ }

/-- A pulse that can read the clock ends only if it has been told to. -/
theorem pulseTurn {ω : Type} (link : Link ω) {clock : Option Moment}
    (hclock : clock.isSome = true) (generation : ℕ) (w : ω) (h : agent.Staffed)
    (horder : agent.Orderly (.pulse generation :: agent.ready)) :
    (agent.pulseTurn link clock generation w).1.Staffed := by
  rcases agent.pulseTurn_cases link clock generation w with ⟨hafter, -⟩ |
    ⟨told, htold, hafter, hends⟩ | ⟨pulse, -, node, hafter, -⟩
  · rwa [hafter]
  · rw [hafter]
    refine { h with beating := fun hrunning ↦ ?_ }
    obtain ⟨pulse, hpulse, hgoes⟩ := h.beating hrunning
    refine ⟨pulse, List.mem_filter.mpr ⟨hpulse, decide_eq_true fun hgeneration ↦ ?_⟩, hgoes⟩
    obtain rfl := Option.some.inj ((horder.find_pulse hpulse hgeneration).symm.trans htold)
    rcases hends with htold | hstale | hnone
    · exact absurd hgoes (by simp [htold])
    · exact hstale (hgeneration ▸ (horder.current pulse hpulse hgoes).2)
    · exact absurd hclock (by simp [hnone])
  · rw [hafter]
    refine { h with beating := fun hrunning ↦ ?_ }
    obtain ⟨pulse, hpulse, hgoes⟩ := h.beating hrunning
    exact ⟨_, List.mem_map_of_mem hpulse, by split <;> exact hgoes⟩

theorem turn {ω : Type} (link : Link ω) {clock : Option Moment} (hclock : clock.isSome = true)
    (task : Task) (w : ω) (h : agent.Staffed) (horder : agent.Orderly (task :: agent.ready)) :
    (agent.turn link clock task w).1.Staffed := by
  cases task with
  | listener => exact h.listenerTurn
  | consumer => exact h.consumerTurn link hclock w
  | pulse generation => exact h.pulseTurn link hclock generation w horder

theorem undergo {ω : Type} (link : Link ω) {occurrence : Occurrence}
    (hclock : occurrence.ReadsClock) (w : ω) (h : agent.Staffed)
    (horder : agent.Orderly agent.ready) : (agent.undergo link occurrence w).1.Staffed := by
  cases occurrence with
  | join => exact getD_induction h fun _ ↦ join horder
  | start => exact getD_induction h fun _ ↦ h.start
  | stop => exact h.stop
  | shutdown => exact h.shutdown
  | publish | set | nodes | peers | status => exact { h with }
  | arrive arrival =>
    simp only [Agent.undergo, arrive_eq]
    exact { h with }
  | advance nanos =>
    obtain ⟨ready, hadvance, -⟩ := agent.advance_eq nanos
    simp only [Agent.undergo, hadvance]
    exact { h with }
  | turn clock =>
    cases hready : agent.ready with
    | nil => simpa only [Agent.undergo, step?, hready] using h
    | cons task ready =>
      rw [hready] at horder
      simp only [Agent.undergo, step?, hready]
      exact turn link hclock task w { h with } (horder.withReady ready)

/-- While the clock can be read, an agent in order stays staffed. -/
theorem undergoAll {ω : Type} (link : Link ω) {occurrences : List Occurrence}
    (hclock : ∀ occurrence ∈ occurrences, occurrence.ReadsClock) (w : ω) (h : agent.Staffed)
    (horder : agent.Orderly agent.ready) : (undergoAll link occurrences agent w).1.Staffed := by
  induction occurrences generalizing agent w with
  | nil => exact h
  | cons occurrence rest ih =>
    obtain ⟨hfirst, hrest⟩ := List.forall_mem_cons.mp hclock
    exact ih hrest _ (h.undergo link hfirst w horder) (horder.undergo link occurrence w)

/-- A node that has been built needs no tasks yet. -/
theorem of_node (node : Node) : Staffed { node } where
  attended := fun h ↦ absurd h Bool.false_ne_true
  beating := fun h ↦ absurd h Bool.false_ne_true

end Agent.Staffed

end Gossip
