import Gossip.Offload
import Gossip.Proofs.Agent.Rest

/-!
The life of a node. It has not joined, or it has and is stopped, or it runs; calls move it from one
phase to another, and everything else leaves it where it is. A call that would not move it changes
nothing at all. While it runs it has one pulse that has not been told to stop, however often it was
started before, and otherwise none; those that were told end as soon as they have a turn, and never
beat again. Only a queue that cannot be made keeps a node from joining.
-/

set_option autoImplicit false
set_option relaxedAutoImplicit false

namespace Gossip

/-- Where a node is in its life. -/
inductive Phase where
  | outside
  | stopped
  | running
  deriving DecidableEq

namespace Phase

/-- Whether a node in a phase has joined. -/
def joined : Phase → Bool
  | .outside => false
  | .stopped | .running => true

/-- Whether a node in a phase runs. -/
def runs : Phase → Bool
  | .running => true
  | .outside | .stopped => false

/-- What an occurrence makes of the phase of a node. -/
def after : Phase → Occurrence → Phase
  | .outside, .join | .stopped, .start => .running
  | .running, .stop => .stopped
  | _, .shutdown => .outside
  | phase, _ => phase

end Phase

/-- The calls that move a node through its life. -/
def Occurrence.IsCall : Occurrence → Prop
  | .join | .start | .stop | .shutdown => True
  | _ => False

namespace Agent

variable {ω : Type} (link : Link ω)

/-- An agent is in a phase if its two flags say so. -/
structure InPhase (agent : Agent) (phase : Phase) : Prop where
  joined : agent.joined = phase.joined
  running : agent.running = phase.runs

/-- What the life of an agent promises in a phase. To stop and to shut down cannot fail. -/
structure Lives (agent : Agent) (w : ω) (phase : Phase) : Prop extends
    InPhase agent phase where
  running_joined : agent.running = true → agent.joined = true
  join : match phase with
    | .outside => ∃ after, agent.join = .ok after
    | .stopped | .running => agent.join = .error .alreadyRunning
  start : match phase with
    | .outside => agent.start = .error .notJoined
    | .stopped => ∃ after, agent.start = .ok after
    | .running => agent.start = .error .alreadyRunning
  /-- A call that would not move the node changes nothing. -/
  idle : ∀ call : Occurrence, call.IsCall → phase.after call = phase →
    agent.undergo link call w = (agent, w)
  /-- While it runs it has one pulse that has not been told to stop, and otherwise none. -/
  alive : (agent.pulses.filter (¬·.told)).length = if phase = .running then 1 else 0
  /-- At rest there are no other pulses, and the one waits for a time to come. -/
  atRest : agent.ready = [] → agent.pulses.length = (if phase = .running then 1 else 0) ∧
    ∀ pulse ∈ agent.pulses, agent.timer < pulse.due
  /-- The tasks come to rest. -/
  rests : ∃ enough, ∀ clocks : List (Option Moment), enough ≤ clocks.length →
    (undergoAll link (clocks.map .turn) agent w).1.ready = []
  /-- Only a running node beats. -/
  silent : phase ≠ .running → ∀ occurrence moment, .beat moment ∉ agent.operations occurrence
  /-- Unless it runs, no task tells of a beat. -/
  unheard : phase ≠ .running → ∀ occurrence, .beat ∉ agent.events link occurrence w
  /-- Unless it runs, the turn of a pulse leaves the node and the world as they are. -/
  still : phase ≠ .running → ∀ clock generation,
    let turn := agent.pulseTurn link clock generation w
    turn.1.node = agent.node ∧ turn.2.1 = w

/-! ### Phases -/

theorem exists_start {agent : Agent} (h : agent.InPhase .stopped) :
    ∃ after, agent.start = .ok after := by
  have hjoined : agent.joined = true := h.joined
  have hrunning : agent.running = false := h.running
  unfold start
  rw [if_neg (by simp [hjoined]), if_neg (by simp [hrunning])]
  exact ⟨_, rfl⟩

theorem start_of_outside {agent : Agent} (h : agent.InPhase .outside) :
    agent.start = .error .notJoined := by
  have hjoined : agent.joined = false := h.joined
  unfold start
  rw [if_pos (by simp [hjoined])]

theorem start_of_running {agent : Agent} (h : agent.InPhase .running) :
    agent.start = .error .alreadyRunning := by
  have hjoined : agent.joined = true := h.joined
  have hrunning : agent.running = true := h.running
  unfold start
  rw [if_neg (by simp [hjoined]), if_pos hrunning]

/-- A node joins if its queue can be made. -/
theorem exists_join {agent : Agent} (h : agent.InPhase .outside)
    (hroom : agent.capacity ≤ queueLimit) : ∃ after, agent.join = .ok after := by
  have hjoined : agent.joined = false := h.joined
  have hadmitted : agent.admitted.InPhase .stopped := ⟨rfl, h.running⟩
  obtain ⟨after, hstart⟩ := exists_start hadmitted
  refine ⟨after, ?_⟩
  unfold join
  rw [if_neg (by simp [hjoined]), if_neg (Nat.not_lt.mpr hroom)]
  dsimp only
  rw [wake_eq, wake_eq]
  exact hstart

theorem InPhase.not_running {agent : Agent} {phase : Phase} (h : agent.InPhase phase)
    (hphase : phase ≠ .running) : ¬agent.running = true := by
  rw [h.running]
  cases phase with
  | outside | stopped => exact Bool.false_ne_true
  | running => exact absurd rfl hphase

theorem InPhase.of_start {agent after : Agent} (hstart : agent.start = .ok after) :
    after.InPhase .running := by
  obtain ⟨hjoined, -, rfl⟩ := start_eq_ok hstart
  exact ⟨hjoined, rfl⟩

namespace InPhase

variable {agent : Agent} {phase : Phase}

theorem stop (h : agent.InPhase phase) : agent.stop.InPhase (phase.after .stop) := by
  cases phase with
  | outside | stopped => rwa [stop_of_not_running h.running]
  | running =>
    have hrunning : agent.running = true := h.running
    obtain ⟨ready, hstop, -⟩ := stop_of_running hrunning
    rw [hstop]
    exact ⟨h.joined, rfl⟩

theorem shutdown (h : agent.InPhase phase) : agent.shutdown.InPhase (phase.after .shutdown) := by
  have hrunning := agent.running_stop
  have hjoined := h.stop.joined
  unfold Agent.shutdown
  dsimp only
  split
  · cases phase <;> exact ⟨rfl, hrunning⟩
  next hout => cases phase <;> exact ⟨Bool.eq_false_iff.mpr hout, hrunning⟩

theorem undergo {occurrence : Occurrence} (w : ω) (h : agent.InPhase phase)
    (hroom : agent.capacity ≤ queueLimit) :
    (agent.undergo link occurrence w).1.InPhase (phase.after occurrence) := by
  cases occurrence with
  | join =>
    cases phase with
    | outside =>
      obtain ⟨after, hjoin⟩ := exists_join h hroom
      simp only [Agent.undergo, hjoin]
      exact .of_start (join_eq_ok hjoin).2.2
    | stopped | running =>
      simp only [Agent.undergo, join_of_joined h.joined]
      exact h
  | start =>
    cases phase with
    | outside =>
      simp only [Agent.undergo, start_of_outside h]
      exact h
    | stopped =>
      obtain ⟨after, hstart⟩ := exists_start h
      simp only [Agent.undergo, hstart]
      exact .of_start hstart
    | running =>
      simp only [Agent.undergo, start_of_running h]
      exact h
  | stop => exact h.stop
  | shutdown => exact h.shutdown
  | publish | set | nodes | peers | status => cases phase <;> exact ⟨h.joined, h.running⟩
  | arrive arrival =>
    simp only [Agent.undergo, arrive_eq]
    cases phase <;> exact ⟨h.joined, h.running⟩
  | advance nanos =>
    obtain ⟨ready, hadvance, -⟩ := agent.advance_eq nanos
    simp only [Agent.undergo, hadvance]
    cases phase <;> exact ⟨h.joined, h.running⟩
  | turn clock =>
    have hphase : phase.after (.turn clock) = phase := by cases phase <;> rfl
    rw [hphase]
    cases hready : agent.ready with
    | nil => simpa only [Agent.undergo, step?, hready] using h
    | cons task ready =>
      obtain ⟨hjoined, hrunning, -⟩ := turn_frame link clock { agent with ready } task w
      simp only [Agent.undergo, step?, hready]
      exact ⟨hjoined.trans h.joined, hrunning.trans h.running⟩

theorem undergoAll (occurrences : List Occurrence) (w : ω) (h : agent.InPhase phase)
    (hroom : agent.capacity ≤ queueLimit) :
    (undergoAll link occurrences agent w).1.InPhase (occurrences.foldl Phase.after phase) := by
  induction occurrences generalizing agent phase w with
  | nil => exact h
  | cons occurrence rest ih =>
    have hcapacity : (agent.undergo link occurrence w).1.capacity = agent.capacity :=
      congrArg (·.buffer.toNat) (settings_undergo link agent occurrence w)
    exact ih _ (h.undergo link w hroom) (hcapacity ▸ hroom)

/-- A call that would not move the node changes nothing. -/
theorem undergo_eq (h : agent.InPhase phase) {call : Occurrence} (hcall : call.IsCall)
    (hstays : phase.after call = phase) (w : ω) : agent.undergo link call w = (agent, w) := by
  cases call with
  | join =>
    cases phase with
    | outside => exact absurd hstays (by decide)
    | stopped | running => simp only [Agent.undergo, join_of_joined h.joined]; rfl
  | start =>
    cases phase with
    | outside => simp only [Agent.undergo, start_of_outside h]; rfl
    | stopped => exact absurd hstays (by decide)
    | running => simp only [Agent.undergo, start_of_running h]; rfl
  | stop =>
    cases phase with
    | outside | stopped => simp only [Agent.undergo, stop_of_not_running h.running]
    | running => exact absurd hstays (by decide)
  | shutdown =>
    cases phase with
    | outside =>
      have hjoined : agent.joined = false := h.joined
      simp only [Agent.undergo, Agent.shutdown, stop_of_not_running h.running, hjoined]
      rfl
    | stopped | running => exact absurd hstays (by decide)
  | publish | set | nodes | peers | status | arrive | advance | turn => exact hcall.elim

end InPhase

/-! ### Pulses -/

section Pulses

variable {agent : Agent} {awake : List Task}

/-- The pulse of a running node is the only one that has not been told to stop. -/
theorem length_alive (h : agent.Orderly awake) (hstaffed : agent.Staffed) :
    (agent.pulses.filter (¬·.told)).length = if agent.running then 1 else 0 := by
  have hmem {pulse : Pulse} : pulse ∈ agent.pulses.filter (¬·.told) ↔
      pulse ∈ agent.pulses ∧ pulse.told = false := by simp
  cases hrunning : agent.running with
  | false =>
    have hnone : agent.pulses.filter (¬·.told) = [] :=
      List.eq_nil_iff_forall_not_mem.mpr fun pulse hpulse ↦ by
        obtain ⟨hpulse, htold⟩ := hmem.mp hpulse
        exact absurd (h.current pulse hpulse htold).1 (by simp [hrunning])
    rw [hnone]
    rfl
  | true =>
    obtain ⟨pulse, hpulse, htold⟩ := hstaffed.beating hrunning
    have hone : (agent.pulses.filter (¬·.told)).Perm [pulse] := by
      refine (List.perm_ext_iff_of_nodup (h.distinct.of_map.filter _) (List.nodup_singleton _)).mpr
        fun other ↦ ?_
      rw [hmem, List.mem_singleton]
      refine ⟨fun ⟨hother, hgoes⟩ ↦ ?_, fun hsame ↦ hsame ▸ ⟨hpulse, htold⟩⟩
      have hgeneration : other.generation = pulse.generation :=
        (h.current other hother hgoes).2.trans (h.current pulse hpulse htold).2.symm
      exact h.eq_of_generation_eq hpulse hother hgeneration
    exact hone.length_eq

/-- At rest, no pulse has been told to stop, and each waits for a time to come. -/
theorem pulses_at_rest (h : agent.Orderly []) :
    ∀ pulse ∈ agent.pulses, pulse.told = false ∧ agent.timer < pulse.due := by
  intro pulse hpulse
  have hrest : ¬(pulse.told = true ∨ pulse.due ≤ agent.timer) := fun hwanted ↦
    List.not_mem_nil (h.wanted (.pulse pulse.generation) ⟨pulse, hpulse, rfl, hwanted⟩)
  obtain ⟨htold, hdue⟩ := not_or.mp hrest
  exact ⟨Bool.eq_false_iff.mpr htold, Nat.not_le.mp hdue⟩

/-- Only the pulse of a running node beats. -/
theorem running_of_beats (h : agent.Orderly awake) {generation : ℕ}
    (hbeats : agent.beats generation = true) : agent.running = true := by
  unfold beats at hbeats
  split at hbeats
  · exact absurd hbeats Bool.false_ne_true
  next pulse hpulse =>
    obtain ⟨hgoes, -⟩ := of_decide_eq_true hbeats
    have htold := Bool.eq_false_iff.mpr (not_or.mp hgoes).1
    exact (h.current pulse (List.mem_of_find?_eq_some hpulse) htold).1

/-- Only a running node beats. -/
theorem running_of_beat (h : agent.Orderly awake) {occurrence : Occurrence} {moment : Moment}
    (hbeat : .beat moment ∈ agent.operations occurrence) : agent.running = true := by
  cases occurrence with
  | turn clock =>
    unfold operations at hbeat
    cases hready : agent.ready with
    | nil => simp [hready] at hbeat
    | cons task ready =>
      simp only [hready, List.head?_cons, Option.map_some, Option.getD_some] at hbeat
      unfold taskOperations at hbeat
      cases task with
      | listener => exact absurd hbeat List.not_mem_nil
      | consumer =>
        dsimp only at hbeat
        split at hbeat
        · obtain ⟨unit, -, hunit⟩ := List.mem_map.mp hbeat
          exact absurd hunit (by simp)
        · exact absurd hbeat List.not_mem_nil
      | pulse generation =>
        dsimp only at hbeat
        split at hbeat
        · exact absurd hbeat List.not_mem_nil
        · split at hbeat
          next hbeats => exact running_of_beats h hbeats
          · exact absurd hbeat List.not_mem_nil
  | join | start | stop | shutdown | publish | set | nodes | peers | status | arrive | advance =>
    simp [operations] at hbeat

end Pulses

/-! ### Lives -/

/-- Assumes: the agent is in order and staffed, and its queue can be made. It lives as the phase
that it is in promises. -/
theorem InPhase.lives {agent : Agent} {phase : Phase} (hphase : agent.InPhase phase)
    (horder : agent.Orderly agent.ready) (hstaffed : agent.Staffed)
    (hroom : agent.capacity ≤ queueLimit) (w : ω) : agent.Lives link w phase where
  toInPhase := hphase
  running_joined := horder.running
  join := by
    cases phase with
    | outside => exact exists_join hphase hroom
    | stopped | running => exact join_of_joined hphase.joined
  start := by
    cases phase with
    | outside => exact start_of_outside hphase
    | stopped => exact exists_start hphase
    | running => exact start_of_running hphase
  idle := fun _ hcall hstays ↦ hphase.undergo_eq link hcall hstays w
  alive := by
    rw [length_alive horder hstaffed, hphase.running]
    cases phase <;> rfl
  atRest := by
    intro hrest
    have hwaits := pulses_at_rest (hrest ▸ horder)
    have halive := length_alive horder hstaffed
    rw [List.filter_eq_self.mpr fun pulse hpulse ↦ by simp [(hwaits pulse hpulse).1],
      hphase.running] at halive
    refine ⟨halive.trans ?_, fun pulse hpulse ↦ (hwaits pulse hpulse).2⟩
    cases phase <;> rfl
  rests := ⟨agent.work, fun clocks hwork ↦ ready_eq_nil_of_work_le link horder clocks w hwork⟩
  silent := fun hstill _ _ hbeat ↦ hphase.not_running hstill (running_of_beat horder hbeat)
  unheard := by
    intro hstill occurrence htold
    obtain ⟨moment, hbeat⟩ := exists_beat_of_mem_events htold
    exact hphase.not_running hstill (running_of_beat horder hbeat)
  still := by
    intro hstill clock generation
    have hrests : agent.beats generation = false := Bool.eq_false_iff.mpr fun hbeats ↦
      hphase.not_running hstill (running_of_beats horder hbeats)
    exact Prod.ext_iff.mp (pulseTurn_of_rests link clock (.inr hrests) w).1

/-- Assumes: the node has been built. Whatever calls are made and whatever else happens, next to any
link and while the clock can be read, it lives as the phase promises that the calls have led to.
This is so exactly if its queue can be made: joining fails else, though the node has not joined. -/
theorem lives_iff {self : Member} {settings : Settings} {offload : Bool} {built : Instant}
    {node : Node} (hbuild : Node.build self settings offload built = .ok node) (w : ω) :
    (∀ occurrences : List Occurrence, (∀ occurrence ∈ occurrences, occurrence.ReadsClock) →
      let run := undergoAll link occurrences { node } w
      run.1.Lives link run.2 (occurrences.foldl Phase.after .outside)) ↔
    node.settings.buffer.toNat ≤ queueLimit := by
  have horder : Orderly { node } [] := .of_build hbuild
  refine ⟨fun hlives ↦ ?_, fun hroom occurrences hclock ↦ ?_⟩
  · obtain ⟨after, hjoin⟩ := (hlives [] (List.forall_mem_nil _)).join
    exact (join_eq_ok hjoin).2.1
  · have hphase : InPhase { node } .outside := ⟨rfl, rfl⟩
    have hcapacity : (undergoAll link occurrences { node } w).1.capacity ≤ queueLimit := by
      rw [capacity, settings_undergoAll]
      exact hroom
    exact (hphase.undergoAll link occurrences w hroom).lives link
      (horder.undergoAll link occurrences w)
      ((Staffed.of_node node).undergoAll link hclock w horder) hcapacity _

end Agent

/-- A member that lives through a restart. -/
def restarter : Member := { addr := "10.0.0.1", port := 1 }

/-- The clock when it was built. -/
def founding : Moment := .plain (.ofParts 1700000000 0)

/-- It joins, and its tasks take their first turns. It is stopped, and started again before the
pulse that was told to stop has had its turn. Then a cycle passes. -/
def restarting : List Occurrence :=
  [.join, .turn (some founding), .turn (some founding), .turn (some founding), .stop, .start,
    .turn (some founding), .turn (some founding), .advance 6000000000, .turn (some founding)]

/-- After the restart it has one pulse, of the third generation. -/
theorem lives_through_restart :
    ∃ node, Node.build restarter {} false founding.now = .ok node ∧
      node.settings.buffer.toNat ≤ queueLimit ∧
      let run := Agent.undergoAll Offload.link restarting { node } {}
      run.1.Lives Offload.link run.2 .running ∧ run.1.ready = [] ∧
        run.1.pulses = [{ generation := 3, due := 12000000000 }] := by
  have hbuild : Node.build restarter {} false founding.now = .ok _ := rfl
  refine ⟨_, hbuild, by decide, ?_⟩
  have hclock : ∀ occurrence ∈ restarting, occurrence.ReadsClock := by
    simp [restarting, Occurrence.ReadsClock]
  have hlives := (Agent.lives_iff Offload.link hbuild {}).mpr (by decide) restarting hclock
  exact ⟨hlives, by decide +kernel, by decide +kernel⟩

/-- A node whose queue cannot be made does not join. -/
theorem join_fails_without_queue :
    ∃ node, Node.build restarter { buffer := 4611686018427387904 } false founding.now = .ok node ∧
      ({ node } : Agent).joined = false ∧ ({ node } : Agent).join = .error .overflow :=
  ⟨_, rfl, rfl, rfl⟩

end Gossip
