import Gossip.Node.Operations

/-!
A node with its tasks. A joined node has a listener, which moves inbound units into a bounded
queue and holds one back while the queue is full; a consumer, which handles what is queued; and,
while it runs, one pulse, which beats once per cycle. Tasks take turns: a turn lasts until the
task has to wait or has used up its allowance, and a task that is woken goes behind those
already ready. Time passes on a timer of its own, between turns. A task that needs the wall
clock while it cannot be read ends there; a consumer takes its queue with it, and the listener
ends at the next unit that nobody will take.
-/

set_option autoImplicit false
set_option relaxedAutoImplicit false

namespace Gossip

/-- What waiting for the next inbound unit gives. -/
inductive Arrival where
  | unit (bytes : Bytes)
  | failure (error : Error)
  deriving DecidableEq

/-- Whether the listener pauses after a failure. A unit that did not fit, or was no packet, is
the sender's affair. -/
def Error.pauses (error : Error) : Bool :=
  match error.kind with
  | .oversized | .invalidPacket => false
  | _ => true

/-- The listener: the unit it holds back, and the time until which it pauses. -/
structure Listener where
  held : Option Bytes := none
  pause : Option Nat := none
  deriving DecidableEq

/-- A heartbeat task: the generation it belongs to, the time of its next beat, and whether it
has been told to stop. -/
structure Pulse where
  generation : Nat
  due : Nat
  told : Bool := false
  deriving DecidableEq

/-- The tasks that take turns. -/
inductive Task where
  | listener
  | consumer
  | pulse (generation : Nat)
  deriving DecidableEq

/-- What tasks do that can be told from outside. -/
inductive Event where
  | failed (error : Error)
  | handled (unit : Bytes)
  | beat
  deriving DecidableEq

/-- A node with its tasks: what has arrived and was not read, whether a consumer takes what is
queued, the pulses of which at most the last is not told to stop, the tasks that are ready, and
the time on the timer. -/
structure Agent where
  node : Node
  joined : Bool := false
  running : Bool := false
  generation : Nat := 0
  timer : Nat := 0
  arrivals : List Arrival := []
  listener : Option Listener := none
  consuming : Bool := false
  queue : List Bytes := []
  pulses : List Pulse := []
  ready : List Task := []
  deriving DecidableEq

/-- The pause after a failed receive, in nanoseconds. -/
def receivePause : Nat := 50000000

/-- How late a beat may be before the rhythm moves with it, in nanoseconds. -/
def beatTolerance : Nat := 5000000

/-- The longest that a task waits for a time to come, in nanoseconds: thirty years. -/
def longestWait : Nat := 30 * 365 * 86400 * 1000000000

/-- The greatest queue that can be made. -/
def queueLimit : Nat := UInt64.size / 8 - 1

/-- The time of the beat after one that was due and has just run. -/
def nextBeat (cycle due now : Nat) : Nat :=
  (if due + beatTolerance < now then now else due) + min cycle longestWait

/-- How much of its allowance a task has at the start of a turn. -/
def turnAllowance : Nat := 128

/-- What moving a unit into the queue takes of the allowance. -/
def unitCost : Nat := 3

/-- What a failed receive takes of the allowance. -/
def failureCost : Nat := 2

/-- What listening comes to: the listener, unless it has ended, the queue, the arrivals it did
not come to, the failures it dropped, and whether it would go on with a new allowance. -/
structure Intake where
  listener : Option Listener := some {}
  queue : List Bytes
  rest : List Arrival
  events : List Event := []
  unfinished : Bool := false

/-- What a listener that neither pauses nor holds anything back does with the arrivals, as far
as its allowance goes. The queue has room for a number of units, or nobody takes from it. -/
def listen (room : Option Nat) (now : Nat) : Nat → List Arrival → List Bytes → Intake
  | _, [], queue => { queue, rest := [] }
  | allowance, .unit bytes :: rest, queue =>
    if allowance < unitCost then { queue, rest := .unit bytes :: rest, unfinished := true }
    else
      match room with
      | none => { listener := none, queue, rest }
      | some capacity =>
        if queue.length < capacity then
          listen (some capacity) now (allowance - unitCost) rest (queue ++ [bytes])
        else { listener := some { held := some bytes }, queue, rest }
  | allowance, .failure error :: rest, queue =>
    if allowance < failureCost then { queue, rest := .failure error :: rest, unfinished := true }
    else if error.pauses then
      { listener := some { pause := some (now + receivePause) }, queue, rest,
        events := [.failed error] }
    else
      let intake := listen room now (allowance - failureCost) rest queue
      { intake with events := .failed error :: intake.events }

namespace Agent

variable {ω : Type}

def capacity (agent : Agent) : Nat := agent.node.settings.buffer.toNat

/-- Puts a task behind the ready ones, unless it is among them. -/
def wake (agent : Agent) (task : Task) : Agent :=
  if task ∈ agent.ready then agent else { agent with ready := agent.ready ++ [task] }

/-- The room in the queue, if anybody takes from it. -/
def room (agent : Agent) : Option Nat := if agent.consuming then some agent.capacity else none

/-- The listener reads on, with what it held back in the queue already. -/
def resume (agent : Agent) (held : List Bytes) : Agent × List Event :=
  let intake := listen agent.room agent.timer turnAllowance agent.arrivals (agent.queue ++ held)
  let agent :=
    { agent with listener := intake.listener, queue := intake.queue, arrivals := intake.rest }
  let agent := if intake.queue = [] then agent else agent.wake .consumer
  (if intake.unfinished then agent.wake .listener else agent, intake.events)

/-- The listener reads on, unless it still pauses or what it holds back still does not fit. It
ends with what it holds back if nobody will take it. -/
def listenerTurn (agent : Agent) : Agent × List Event :=
  match agent.listener with
  | none => (agent, [])
  | some listener =>
    if agent.timer < listener.pause.getD 0 then (agent, [])
    else
      match listener.held with
      | none => agent.resume []
      | some unit =>
        if agent.consuming = false then ({ agent with listener := none }, [])
        else if agent.capacity ≤ agent.queue.length then (agent, [])
        else agent.resume [unit]

/-- Handles units one by one, up to the one that does not get through if there is one, and
tells whether all of them did. -/
def handleAll (link : Link ω) (moment : Option Moment) :
    Node → List Bytes → ω → Bool × Node × ω × List Event
  | node, [], w => (true, node, w, [])
  | node, unit :: units, w =>
    match node.tryHandle link moment unit w with
    | (false, node, w) => (false, node, w, [])
    | (true, node, w) =>
      let (through, node, w, events) := handleAll link moment node units w
      (through, node, w, .handled unit :: events)

/-- The consumer handles everything that is queued, and makes room for what the listener holds. -/
def consumerTurn (link : Link ω) (moment : Option Moment) (agent : Agent) (w : ω) :
    Agent × ω × List Event :=
  if agent.consuming then
    let (consuming, node, w, events) := handleAll link moment agent.node agent.queue w
    let agent := { agent with node, consuming, queue := [] }
    match agent.listener with
    | some { held := some _, .. } => (agent.wake .listener, w, events)
    | _ => (agent, w, events)
  else (agent, w, [])

/-- The agent without the pulse of a generation. -/
def dropPulse (agent : Agent) (generation : Nat) : Agent :=
  { agent with pulses := agent.pulses.filter (·.generation ≠ generation) }

/-- A pulse beats if it is due, and ends if it has been told to stop or has been replaced. -/
def pulseTurn (link : Link ω) (moment : Option Moment) (agent : Agent) (generation : Nat)
    (w : ω) : Agent × ω × List Event :=
  match agent.pulses.find? (·.generation = generation) with
  | none => (agent, w, [])
  | some pulse =>
    if pulse.told ∨ generation ≠ agent.generation then (agent.dropPulse generation, w, [])
    else if agent.timer < pulse.due then (agent, w, [])
    else
      match moment with
      | none => (agent.dropPulse generation, w, [])
      | some moment =>
        let (node, w) := agent.node.beat link moment w
        let due := nextBeat agent.node.settings.cycle.nanos pulse.due agent.timer
        let agent :=
          { agent with
            node
            pulses := agent.pulses.map fun q ↦
              if q.generation = generation then { q with due } else q }
        (if due ≤ agent.timer then agent.wake (.pulse generation) else agent, w, [.beat])

def turn (link : Link ω) (moment : Option Moment) (agent : Agent) (task : Task) (w : ω) :
    Agent × ω × List Event :=
  match task with
  | .listener =>
    let (agent, events) := agent.listenerTurn
    (agent, w, events)
  | .consumer => agent.consumerTurn link moment w
  | .pulse generation => agent.pulseTurn link moment generation w

/-- The turn of the task that has been ready longest. -/
def step? (link : Link ω) (moment : Option Moment) (agent : Agent) (w : ω) :
    Option (Agent × ω × List Event) :=
  match agent.ready with
  | [] => none
  | task :: ready => some ({ agent with ready }.turn link moment task w)

/-- Turns until nobody is ready, at most as many as there is fuel. -/
def settle (link : Link ω) (moment : Option Moment) : Nat → Agent → ω → Agent × ω × List Event
  | 0, agent, w => (agent, w, [])
  | fuel + 1, agent, w =>
    match agent.step? link moment w with
    | none => (agent, w, [])
    | some (agent, w, events) =>
      let (agent, w, more) := settle link moment fuel agent w
      (agent, w, events ++ more)

/-- Starts the pulse of a new generation, with its first beat at once. -/
def start (agent : Agent) : Except Error Agent :=
  if ¬agent.joined then .error .notJoined
  else if agent.running then .error .alreadyRunning
  else
    let generation := agent.generation + 1
    let pulse : Pulse := { generation, due := agent.timer }
    .ok ({ agent with running := true, generation, pulses := agent.pulses ++ [pulse] }.wake
      (.pulse generation))

/-- Starts the listener, the consumer and a first pulse. -/
def join (agent : Agent) : Except Error Agent :=
  if agent.joined then .error .alreadyRunning
  else if queueLimit < agent.capacity then .error .overflow
  else
    let agent := { agent with joined := true, listener := some {}, consuming := true }
    ((agent.wake .listener).wake .consumer).start

/-- Tells every pulse to stop; each ends at its next turn. -/
def stop (agent : Agent) : Agent :=
  if agent.running then
    let told := { agent with
      running := false
      generation := agent.generation + 1
      pulses := agent.pulses.map ({ · with told := true }) }
    agent.pulses.foldl (fun agent pulse ↦ agent.wake (.pulse pulse.generation)) told
  else agent

/-- Stops all tasks; what has not been read yet waits for the next listener. -/
def shutdown (agent : Agent) : Agent :=
  let agent := agent.stop
  if agent.joined then
    { agent with joined := false, listener := none, consuming := false, queue := [] }
  else agent

/-- Something has come in from the transport. -/
def arrive (agent : Agent) (arrival : Arrival) : Agent :=
  let agent := { agent with arrivals := agent.arrivals ++ [arrival] }
  if agent.listener.isSome then agent.wake .listener else agent

/-- The tasks that wait for a time that has come, in the order of those times. -/
def dueTasks (agent : Agent) : List Task :=
  let pauses :=
    match agent.listener with
    | some { pause := some t, .. } => if t ≤ agent.timer then [(t, Task.listener)] else []
    | _ => []
  let beats := agent.pulses.filterMap fun pulse ↦
    if pulse.due ≤ agent.timer then some (pulse.due, Task.pulse pulse.generation) else none
  ((pauses ++ beats).mergeSort fun x y ↦ x.1 ≤ y.1).map Prod.snd

/-- Time passes in one jump. -/
def advance (agent : Agent) (nanos : Nat) : Agent :=
  let agent := { agent with timer := agent.timer + nanos }
  agent.dueTasks.foldl wake agent

/-- Publishes through the node, whether it has joined or not. -/
def publish (link : Link ω) (moment : Moment) (agent : Agent) (data : Bytes) (w : ω) :
    Except Error Metadata × Agent × ω :=
  let (result, node, w) := agent.node.publish link moment data w
  (result, { agent with node }, w)

end Agent

/-- What a node tells about itself. -/
structure Status where
  self : Member
  peerCount : Nat
  running : Bool
  version : Int64
  mode : Mode
  deriving DecidableEq

def Agent.status (agent : Agent) (moment : Moment) : Agent × Status :=
  let (node, peers) := agent.node.peers moment
  ({ agent with node },
    { self := node.self, peerCount := peers.length, running := agent.running,
      version := node.metadata.version, mode := node.settings.mode })

end Gossip
