import Gossip.Agent
import Gossip.Proofs.Operation

/-!
Runs of a node with its tasks. Callers join and leave, publish, store members and look at them;
units come in, time passes, and tasks take their turns, in any order. Each of these occurrences
makes the node do some operations, one after the other, and touches neither the node nor the world
otherwise. So whatever all operations of a node uphold, a run of occurrences upholds.
-/

set_option autoImplicit false
set_option relaxedAutoImplicit false

namespace Gossip

/-- What can happen to a node with its tasks. A turn goes to the task that has been ready longest,
and reads the clock if it can be read. -/
inductive Occurrence where
  | join
  | start
  | stop
  | shutdown
  | publish (moment : Moment) (data : Bytes)
  | set (member : Member) (now : Instant)
  | nodes (moment : Moment)
  | peers (moment : Moment)
  | status (moment : Moment)
  | arrive (arrival : Arrival)
  | advance (nanos : ℕ)
  | turn (clock : Option Moment)

/-! ### The units that a consumer comes to -/

namespace Node

variable {ω : Type} (link : Link ω) (node : Node)

/-- Whether a unit gets through when it is handled: without a clock, no wave does. -/
def letsThrough (clock : Option Moment) (unit : Bytes) : Bool :=
  clock.isSome || ((node.read? unit).bind Message.wave?).isNone

/-- The units that are handled: all of them, or those up to the first that does not get through. -/
def reached (clock : Option Moment) : List Bytes → List Bytes
  | [] => []
  | unit :: rest => unit :: if node.letsThrough clock unit then reached clock rest else []

theorem fst_tryHandle (clock : Option Moment) (unit : Bytes) (w : ω) :
    (node.tryHandle link clock unit w).1 = node.letsThrough clock unit := by
  unfold letsThrough tryHandle
  cases clock with
  | some moment => rfl
  | none =>
    cases node.read? unit with
    | none => rfl
    | some message => cases message <;> rfl

theorem letsThrough_congr {node other : Node} (h : node.settings = other.settings)
    (clock : Option Moment) : node.letsThrough clock = other.letsThrough clock := by
  funext unit
  rw [letsThrough, letsThrough, read?_congr h]

theorem reached_congr {node other : Node} (h : node.settings = other.settings)
    (clock : Option Moment) (units : List Bytes) :
    node.reached clock units = other.reached clock units := by
  induction units with
  | nil => rfl
  | cons unit rest ih => rw [reached, reached, ih, letsThrough_congr h]

end Node

namespace Agent

variable {ω : Type} (link : Link ω)

/-- A consumer goes on after a unit that gets through. -/
theorem handleAll_cons (clock : Option Moment) (node : Node) (unit : Bytes) (rest : List Bytes)
    (w : ω) : handleAll link clock node (unit :: rest) w =
      let handled := node.tryHandle link clock unit w
      if node.letsThrough clock unit then
        let more := handleAll link clock handled.2.1 rest handled.2.2
        (more.1, more.2.1, more.2.2.1, .handled unit :: more.2.2.2)
      else (false, handled.2.1, handled.2.2, []) := by
  have hthrough := node.fst_tryHandle link clock unit w
  rw [handleAll]
  generalize node.tryHandle link clock unit w = handled at hthrough
  obtain ⟨through, after, w'⟩ := handled
  obtain rfl : through = node.letsThrough clock unit := hthrough
  cases node.letsThrough clock unit <;> simp

/-- A consumer handles the units that it comes to, and does nothing else. -/
theorem performAll_reached (clock : Option Moment) (node : Node) (units : List Bytes) (w : ω) :
    (Node.performAll link ((node.reached clock units).map (.handle clock)) node w).2 =
      ((handleAll link clock node units w).2.1, (handleAll link clock node units w).2.2.1) := by
  induction units generalizing node w with
  | nil => rfl
  | cons unit rest ih =>
    -- What gets through depends on the settings alone, and these stay.
    have hsettings := node.settings_tryHandle link clock unit w
    have hrest := ih (node.tryHandle link clock unit w).2.1 (node.tryHandle link clock unit w).2.2
    rw [Node.reached_congr hsettings] at hrest
    rw [Node.reached, handleAll_cons, List.map_cons]
    cases node.letsThrough clock unit with
    | false => rfl
    | true => exact hrest

/-- A consumer tells of the units that get through, and of nothing else. -/
theorem events_handleAll (clock : Option Moment) (node : Node) (units : List Bytes) (w : ω) :
    (handleAll link clock node units w).2.2.2 =
      ((node.reached clock units).filter (node.letsThrough clock)).map .handled := by
  induction units generalizing node w with
  | nil => rfl
  | cons unit rest ih =>
    have hsettings := node.settings_tryHandle link clock unit w
    have hrest := ih (node.tryHandle link clock unit w).2.1 (node.tryHandle link clock unit w).2.2
    rw [Node.reached_congr hsettings, Node.letsThrough_congr hsettings] at hrest
    rw [Node.reached, handleAll_cons]
    cases hunit : node.letsThrough clock unit with
    | false => simp [hunit]
    | true => simp [hunit, hrest]

/-! ### One occurrence -/

/-- What an occurrence makes of an agent and the world. To join or to start in vain changes
nothing. -/
def undergo (agent : Agent) (occurrence : Occurrence) (w : ω) : Agent × ω :=
  match occurrence with
  | .join => (agent.join.toOption.getD agent, w)
  | .start => (agent.start.toOption.getD agent, w)
  | .stop => (agent.stop, w)
  | .shutdown => (agent.shutdown, w)
  | .publish moment data => (agent.publish link moment data w).2
  | .set member now => ({ agent with node := (agent.node.set member now).1 }, w)
  | .nodes moment => ({ agent with node := (agent.node.nodes moment).1 }, w)
  | .peers moment => ({ agent with node := (agent.node.peers moment).1 }, w)
  | .status moment => ((agent.status moment).1, w)
  | .arrive arrival => (agent.arrive arrival, w)
  | .advance nanos => (agent.advance nanos, w)
  | .turn clock =>
    match agent.step? link clock w with
    | none => (agent, w)
    | some (agent, w, _) => (agent, w)

/-- What the tasks tell when something happens to an agent: only a turn makes one tell anything. -/
def events (agent : Agent) (occurrence : Occurrence) (w : ω) : List Event :=
  match occurrence with
  | .turn clock =>
    match agent.step? link clock w with
    | none => []
    | some (_, _, events) => events
  | _ => []

/-- Whether the pulse of a generation is due, and has neither been told to stop nor replaced. -/
def beats (agent : Agent) (generation : ℕ) : Bool :=
  match agent.pulses.find? (·.generation = generation) with
  | none => false
  | some pulse => ¬(pulse.told ∨ generation ≠ agent.generation) ∧ pulse.due ≤ agent.timer

/-- The operations that a task makes the node do in its turn. -/
def taskOperations (agent : Agent) (clock : Option Moment) : Task → List Operation
  | .listener => []
  | .consumer =>
    if agent.consuming then (agent.node.reached clock agent.queue).map (.handle clock) else []
  | .pulse generation =>
    match clock with
    | none => []
    | some moment => if agent.beats generation then [.beat moment] else []

/-- The operations that an occurrence makes the node do. -/
def operations (agent : Agent) : Occurrence → List Operation
  | .publish moment data => [.publish moment data]
  | .set member now => [.set member now]
  | .nodes moment | .peers moment | .status moment => [.nodes moment]
  | .turn clock => (agent.ready.head?.map (agent.taskOperations clock)).getD []
  | .join | .start | .stop | .shutdown | .arrive _ | .advance _ => []

/-! ### What leaves the node alone -/

theorem node_wake (agent : Agent) (task : Task) : (agent.wake task).node = agent.node := by
  unfold wake
  split <;> rfl

theorem node_foldl_wake {α : Type} (task : α → Task) (due : List α) (agent : Agent) :
    (due.foldl (fun agent a ↦ agent.wake (task a)) agent).node = agent.node := by
  induction due generalizing agent with
  | nil => rfl
  | cons a rest ih => exact (ih _).trans (agent.node_wake (task a))

theorem node_start {agent after : Agent} (h : agent.start = .ok after) :
    after.node = agent.node := by
  unfold start at h
  split at h
  · exact absurd h (by simp)
  · split at h
    · exact absurd h (by simp)
    · obtain rfl := Except.ok.inj h
      exact node_wake _ _

theorem node_join {agent after : Agent} (h : agent.join = .ok after) :
    after.node = agent.node := by
  unfold join at h
  split at h
  · exact absurd h (by simp)
  · split at h
    · exact absurd h (by simp)
    · exact (node_start h).trans ((node_wake _ _).trans (node_wake _ _))

/-- What holds before a call and after it if it succeeds holds in any case: a call that fails leaves
everything as it was. -/
theorem getD_induction {p : Agent → Prop} {agent : Agent} {result : Except Error Agent}
    (hbefore : p agent) (hok : ∀ after, result = .ok after → p after) :
    p (result.toOption.getD agent) := by
  cases result with
  | error _ => exact hbefore
  | ok after => exact hok after rfl

theorem node_stop (agent : Agent) : agent.stop.node = agent.node := by
  unfold stop
  split
  · exact node_foldl_wake (fun pulse : Pulse ↦ .pulse pulse.generation) _ _
  · rfl

theorem node_shutdown (agent : Agent) : agent.shutdown.node = agent.node := by
  unfold shutdown
  dsimp only
  split <;> exact agent.node_stop

theorem node_arrive (agent : Agent) (arrival : Arrival) :
    (agent.arrive arrival).node = agent.node := by
  unfold arrive
  dsimp only
  split
  · exact node_wake _ _
  · rfl

theorem node_advance (agent : Agent) (nanos : ℕ) : (agent.advance nanos).node = agent.node :=
  node_foldl_wake id _ _

theorem node_resume (agent : Agent) (held : List Bytes) :
    (agent.resume held).1.node = agent.node := by
  unfold resume
  dsimp only
  split <;> split <;> simp only [node_wake]

theorem node_listenerTurn (agent : Agent) : agent.listenerTurn.1.node = agent.node := by
  unfold listenerTurn
  split
  · rfl
  · split
    · rfl
    · split
      · exact agent.node_resume []
      · split
        · rfl
        · split
          · rfl
          · exact agent.node_resume _

/-! ### Runs -/

theorem pulseTurn_of_beats {agent : Agent} {generation : ℕ} (h : agent.beats generation = true)
    (moment : Moment) (w : ω) :
    let turn := agent.pulseTurn link (some moment) generation w
    (turn.1.node, turn.2.1) = agent.node.beat link moment w ∧ turn.2.2 = [.beat] := by
  unfold beats at h
  unfold pulseTurn
  revert h
  cases agent.pulses.find? (·.generation = generation) with
  | none => exact fun h ↦ absurd h Bool.false_ne_true
  | some pulse =>
    intro h
    obtain ⟨hgoes, hdue⟩ := of_decide_eq_true h
    dsimp only
    rw [if_neg hgoes, if_neg (Nat.not_lt.mpr hdue)]
    refine ⟨?_, rfl⟩
    split
    · rw [node_wake]
    · rfl

theorem pulseTurn_of_rests {agent : Agent} {generation : ℕ} (clock : Option Moment)
    (h : clock = none ∨ agent.beats generation = false) (w : ω) :
    let turn := agent.pulseTurn link clock generation w
    (turn.1.node, turn.2.1) = (agent.node, w) ∧ turn.2.2 = [] := by
  unfold beats at h
  unfold pulseTurn
  revert h
  cases agent.pulses.find? (·.generation = generation) with
  | none => exact fun _ ↦ ⟨rfl, rfl⟩
  | some pulse =>
    intro h
    dsimp only
    split
    · exact ⟨rfl, rfl⟩
    · split
      · exact ⟨rfl, rfl⟩
      next hgoes hlate =>
        -- The pulse is due, so only the clock can keep it from beating.
        have hbeats : ¬clock ≠ none := fun hclock ↦
          of_decide_eq_false (h.resolve_left hclock) ⟨hgoes, Nat.not_lt.mp hlate⟩
        rw [not_not.mp hbeats]
        exact ⟨rfl, rfl⟩

/-- A turn does the operations of its task. -/
theorem performAll_turn (agent : Agent) (clock : Option Moment) (task : Task) (w : ω) :
    (Node.performAll link (agent.taskOperations clock task) agent.node w).2 =
      ((agent.turn link clock task w).1.node, (agent.turn link clock task w).2.1) := by
  cases task with
  | listener => exact Prod.ext agent.node_listenerTurn.symm rfl
  | consumer =>
    unfold taskOperations turn consumerTurn
    dsimp only
    split
    · rw [performAll_reached]
      split
      · rw [node_wake]
      · rfl
    · rfl
  | pulse generation =>
    unfold taskOperations turn
    dsimp only
    cases clock with
    | none => exact (pulseTurn_of_rests link none (Or.inl rfl) w).1.symm
    | some moment =>
      cases hbeats : agent.beats generation with
      | false => exact (pulseTurn_of_rests link (some moment) (Or.inr hbeats) w).1.symm
      | true => exact (pulseTurn_of_beats link hbeats moment w).1.symm

/-- An occurrence does its operations, and leaves the node and the world alone otherwise. -/
theorem performAll_operations (agent : Agent) (occurrence : Occurrence) (w : ω) :
    (Node.performAll link (agent.operations occurrence) agent.node w).2 =
      ((agent.undergo link occurrence w).1.node, (agent.undergo link occurrence w).2) := by
  cases occurrence with
  | join =>
    have hnode : (agent.join.toOption.getD agent).node = agent.node :=
      getD_induction (p := fun after ↦ after.node = agent.node) rfl fun _ ↦ node_join
    exact Prod.ext hnode.symm rfl
  | start =>
    have hnode : (agent.start.toOption.getD agent).node = agent.node :=
      getD_induction (p := fun after ↦ after.node = agent.node) rfl fun _ ↦ node_start
    exact Prod.ext hnode.symm rfl
  | stop => exact Prod.ext agent.node_stop.symm rfl
  | shutdown => exact Prod.ext agent.node_shutdown.symm rfl
  | publish moment data | set member now | nodes moment | peers moment | status moment => rfl
  | arrive arrival => exact Prod.ext (agent.node_arrive arrival).symm rfl
  | advance nanos => exact Prod.ext (agent.node_advance nanos).symm rfl
  | turn clock =>
    unfold operations undergo step?
    dsimp only
    cases agent.ready with
    | nil => rfl
    | cons task ready => exact performAll_turn link { agent with ready } clock task w

theorem settings_undergo (agent : Agent) (occurrence : Occurrence) (w : ω) :
    (agent.undergo link occurrence w).1.node.settings = agent.node.settings := by
  have hsettings := agent.node.settings_performAll link (agent.operations occurrence) w
  rwa [performAll_operations link agent occurrence w] at hsettings

/-- Occurrences one after the other. -/
def undergoAll : List Occurrence → Agent → ω → Agent × ω
  | [], agent, w => (agent, w)
  | occurrence :: rest, agent, w =>
    let (agent, w) := agent.undergo link occurrence w
    undergoAll rest agent w

theorem settings_undergoAll (occurrences : List Occurrence) (agent : Agent) (w : ω) :
    (undergoAll link occurrences agent w).1.node.settings = agent.node.settings := by
  induction occurrences generalizing agent w with
  | nil => rfl
  | cons occurrence rest ih => exact (ih _ _).trans (settings_undergo link agent occurrence w)

/-- The operations that occurrences make the node do, one after the other. -/
def deeds : List Occurrence → Agent → ω → List Operation
  | [], _, _ => []
  | occurrence :: rest, agent, w =>
    let (later, w) := agent.undergo link occurrence w
    agent.operations occurrence ++ deeds rest later w

/-- What the tasks tell in a run. -/
def eventsAll : List Occurrence → Agent → ω → List Event
  | [], _, _ => []
  | occurrence :: rest, agent, w =>
    let (later, after) := agent.undergo link occurrence w
    agent.events link occurrence w ++ eventsAll rest later after

theorem deeds_append (occurrences more : List Occurrence) (agent : Agent) (w : ω) :
    deeds link (occurrences ++ more) agent w =
      deeds link occurrences agent w ++ deeds link more (undergoAll link occurrences agent w).1
        (undergoAll link occurrences agent w).2 := by
  induction occurrences generalizing agent w with
  | nil => rfl
  | cons occurrence rest ih =>
    exact (congrArg (agent.operations occurrence ++ ·) (ih _ _)).trans
      (List.append_assoc _ _ _).symm

/-- A run does its operations, and leaves the node and the world alone otherwise. -/
theorem performAll_deeds (occurrences : List Occurrence) (agent : Agent) (w : ω) :
    (Node.performAll link (deeds link occurrences agent w) agent.node w).2 =
      ((undergoAll link occurrences agent w).1.node, (undergoAll link occurrences agent w).2) := by
  induction occurrences generalizing agent w with
  | nil => rfl
  | cons occurrence rest ih =>
    have hdone := performAll_operations link agent occurrence w
    rw [deeds, Node.performAll_append_snd, hdone]
    exact ih _ _

end Agent

end Gossip
