import Gossip.Agent
import Gossip.Socket

/-!
The command line. `start` runs a node until it is interrupted, and `hash-secret` prints a secret
as it travels. An option takes one value, attached or as the next argument; a value that begins
with a dash has to be attached. Anything that is not understood is a usage error. A run of a
node is told as what it prints, the line it fails with, and its exit code.
-/

set_option autoImplicit false
set_option relaxedAutoImplicit false

namespace Gossip.CommandLine

/-- What `start` is told, with its defaults. -/
structure StartOptions where
  addr : Ip := .v4 ⟨127, 0, 0, 1⟩
  port : UInt16 := 8000
  bind : Option Ip := none
  name : String := ""
  mac : String := ""
  link : String := ""
  mode : Mode := .udp
  peers : List SocketAddress := []
  secret : String := ""
  amount : UInt64 := Settings.defaultAmount
  cycle : UInt64 := 6
  timeout : UInt64 := 0
  publish : Option String := none

inductive Command where
  | start (options : StartOptions)
  | hashSecret (secret : String)
  | help

/-- Why a list of arguments is not understood. -/
inductive UsageError where
  | unexpected (argument : String)
  | missingValue (option : String)
  | badValue (option value : String)
  | repeated (option : String)
  | missingCommand
  | missingSecret

/-- Digits alone. -/
def natural? (s : List Char) : Option Nat :=
  if s.isEmpty || !s.all Char.isDigit then none
  else some (s.foldl (fun n c ↦ n * 10 + (c.toNat - 48)) 0)

/-- A number of 64 bits, which may have a plus in front. -/
def word? (text : String) : Option UInt64 :=
  let digits :=
    match text.toList with
    | '+' :: s => s
    | s => s
  match natural? digits with
  | some n => if n < UInt64.size then some (.ofNat n) else none
  | none => none

/-- A port, which may have a sign as long as the number is in range. -/
def port? (text : String) : Option UInt16 :=
  let (negative, digits) :=
    match text.toList with
    | '+' :: s => (false, s)
    | '-' :: s => (true, s)
    | s => (false, s)
  match natural? digits with
  | some n => if n < UInt16.size ∧ (negative = false ∨ n = 0) then some (.ofNat n) else none
  | none => none

def mode? (text : String) : Option Mode :=
  match Mode.parse text with
  | .ok mode => some mode
  | .error _ => none

/-- An option of `start`: its names, whether it may be given again, and what its value does. -/
structure OptionRule where
  long : String
  short : Option Char
  repeatable : Bool
  apply : StartOptions → String → Option StartOptions

def startRules : List OptionRule :=
  [⟨"addr", some 'a', false, fun o v ↦ (Ip.parse? v).map fun ip ↦ { o with addr := ip }⟩,
    ⟨"port", some 'p', false, fun o v ↦ (port? v).map fun n ↦ { o with port := n }⟩,
    ⟨"bind", some 'b', false, fun o v ↦ (Ip.parse? v).map fun ip ↦ { o with bind := some ip }⟩,
    ⟨"name", some 'n', false, fun o v ↦ some { o with name := v }⟩,
    ⟨"mac", none, false, fun o v ↦ some { o with mac := v }⟩,
    ⟨"link", none, false, fun o v ↦ some { o with link := v }⟩,
    ⟨"mode", some 'm', false, fun o v ↦ (mode? v).map fun mode ↦ { o with mode := mode }⟩,
    ⟨"peer", none, true, fun o v ↦
      (SocketAddress.parse? v).map fun peer ↦ { o with peers := o.peers ++ [peer] }⟩,
    ⟨"secret", some 's', false, fun o v ↦ some { o with secret := v }⟩,
    ⟨"amount", none, false, fun o v ↦ (word? v).map fun n ↦ { o with amount := n }⟩,
    ⟨"cycle", none, false, fun o v ↦ (word? v).map fun n ↦ { o with cycle := n }⟩,
    ⟨"timeout", none, false, fun o v ↦ (word? v).map fun n ↦ { o with timeout := n }⟩,
    ⟨"publish", none, false, fun o v ↦ some { o with publish := some v }⟩]

/-- The log filter may be given in front of a command and behind it. -/
def logRule : OptionRule := ⟨"log", none, false, fun o _ ↦ some o⟩

/-- An argument as it looks. -/
inductive Argument where
  | separator
  | long (name : String) (value : Option String)
  | short (letter : Char) (attached : List Char)
  | plain (text : String)

/-- A long option with the value behind its first equals sign. -/
def longArgument (s : List Char) : Argument :=
  let name := s.takeWhile (· ≠ '=')
  match s.dropWhile (· ≠ '=') with
  | [] => .long (String.ofList name) none
  | _ :: value => .long (String.ofList name) (some (String.ofList value))

def Argument.ofText (text : String) : Argument :=
  match text.toList with
  | ['-', '-'] => .separator
  | '-' :: '-' :: s => longArgument s
  | '-' :: c :: s => .short c s
  | _ => .plain text

/-- The value attached to a one-letter option, where an equals sign may come first. -/
def attachedValue : List Char → Option String
  | [] => none
  | '=' :: s => some (String.ofList s)
  | s => some (String.ofList s)

/-- Whether an argument can be the value of the option in front of it. -/
def valueOf? (text : String) : Option String :=
  match Argument.ofText text with
  | .plain text => some text
  | _ => none

/-- Whether an argument asks for help instead. -/
def asksHelp (root : Bool) : Argument → Bool
  | .long name none => name = "help" || (root && name = "version")
  | .short c _ => c = 'h' || (root && c = 'V')
  | _ => false

/-- The rule of an option, and the value attached to it. -/
def ruleOf? (rules : List OptionRule) : Argument → Option (OptionRule × Option String)
  | .long name value => (rules.find? (·.long = name)).map (·, value)
  | .short c attached => (rules.find? (·.short = some c)).map (·, attachedValue attached)
  | _ => none

/-- What reading the arguments of a command has found so far. -/
structure Reading where
  options : StartOptions := {}
  given : List String := []
  positional : List String := []

/-- Gives an option its value. -/
def Reading.give (r : Reading) (rule : OptionRule) (value : String) :
    Except UsageError Reading :=
  if rule.long ∈ r.given ∧ rule.repeatable = false then .error (.repeated rule.long)
  else
    match rule.apply r.options value with
    | none => .error (.badValue rule.long value)
    | some options => .ok { r with options, given := rule.long :: r.given }

/-- Reads the arguments of a command that takes the given options and a number of positional
arguments. Gives nothing when help is asked for. -/
def readArguments (rules : List OptionRule) (room : Nat) (root : Bool) :
    Reading → List String → Except UsageError (Option (Reading × List String))
  | r, [] => .ok (some (r, []))
  | r, text :: rest =>
    let argument := Argument.ofText text
    match argument with
    | .separator =>
      if r.positional.length + rest.length ≤ room ∧ root = false then
        .ok (some ({ r with positional := r.positional ++ rest }, []))
      else
        match rest with
        | [] => .ok (some (r, []))
        | extra :: _ => .error (.unexpected extra)
    | .plain text =>
      if root then .ok (some (r, text :: rest))
      else if r.positional.length < room then
        readArguments rules room root { r with positional := r.positional ++ [text] } rest
      else .error (.unexpected text)
    | _ =>
      if asksHelp root argument then .ok none
      else
        match ruleOf? rules argument with
        | none => .error (.unexpected text)
        | some (rule, some value) =>
          match r.give rule value with
          | .error error => .error error
          | .ok r => readArguments rules room root r rest
        | some (rule, none) =>
          match rest with
          | [] => .error (.missingValue rule.long)
          | next :: rest =>
            match valueOf? next with
            | none => .error (.missingValue rule.long)
            | some value =>
              match r.give rule value with
              | .error error => .error error
              | .ok r => readArguments rules room root r rest

def readStart (args : List String) : Except UsageError Command :=
  match readArguments (logRule :: startRules) 0 false {} args with
  | .error error => .error error
  | .ok none => .ok .help
  | .ok (some (r, _)) => .ok (.start r.options)

def readHashSecret (args : List String) : Except UsageError Command :=
  match readArguments [logRule] 1 false {} args with
  | .error error => .error error
  | .ok none => .ok .help
  | .ok (some (r, _)) =>
    match r.positional with
    | [secret] => .ok (.hashSecret secret)
    | _ => .error .missingSecret

/-- Help may be asked for a command by its name. -/
def readHelp : List String → Except UsageError Command
  | [] => .ok .help
  | [name] =>
    if name ∈ ["start", "hash-secret", "help"] then .ok .help else .error (.unexpected name)
  | _ :: extra :: _ => .error (.unexpected extra)

/-- The command that a list of arguments asks for. -/
def parse (args : List String) : Except UsageError Command :=
  match readArguments [logRule] 0 true {} args with
  | .error error => .error error
  | .ok none => .ok .help
  | .ok (some (_, [])) => .error .missingCommand
  | .ok (some (_, name :: rest)) =>
    if name = "start" then readStart rest
    else if name = "hash-secret" then readHashSecret rest
    else if name = "help" then readHelp rest
    else .error (.unexpected name)

/-- What a run prints, the line it fails with, and its exit code. A run that goes on until it
is interrupted prints its last lines then. -/
structure Outcome where
  code : Nat
  stdout : String
  error : Option String := none
  closing : Option String := none
  deriving DecidableEq, Repr

/-- Everything that has been printed in the end. -/
def Outcome.printed (o : Outcome) : String := o.stdout ++ o.closing.getD ""

def usageCode : Nat := 2

/-- The exit code of a program that overflow or an unreadable clock has ended. -/
def abortCode : Nat := 101

def failure (stdout message : String) : Outcome :=
  { code := 1, stdout, error := some ("Error: " ++ message) }

/-- The node listens where it binds, and binds its own address unless told otherwise. -/
def StartOptions.settings (o : StartOptions) : Settings :=
  { listen := some (o.bind.getD o.addr)
    amount := o.amount
    cycle := .ofSeconds o.cycle
    lifetime := .ofSeconds o.timeout
    secret := hashSecret o.secret
    mode := o.mode }

def StartOptions.self (o : StartOptions) : Member :=
  { addr := o.addr.display, port := o.port, name := o.name, mac := o.mac, linkName := o.link }

def StartOptions.bindAddress (o : StartOptions) : SocketAddress :=
  { ip := o.bind.getD o.addr, port := o.port }

/-- A seed peer as a member. -/
def seedMember (peer : SocketAddress) : Member := { addr := peer.ip.display, port := peer.port }

def line (text : String) : String := text ++ "\n"

def openingText : String := line "Starting gossip node..." ++ line ""

def runningText : String := line "" ++ line "Node is running. Press Ctrl+C to stop." ++ line ""

def closingText : String := line "" ++ line "Shutting down..." ++ line "Node stopped."

def seedLine (peer : SocketAddress) : String := line ("  Seed: " ++ peer.display)

def describe (o : StartOptions) (status : Status) : String :=
  line ("  Node: " ++ status.self.display) ++ line ("  Listen: " ++ o.bindAddress.display) ++
    line ("  Mode: " ++ status.mode.display) ++ String.join (o.peers.map seedLine)

def publishedLine (version : Int64) : String :=
  line ("  Published: version " ++ toString version.toInt)

/-- The message of a socket that cannot be bound in a mode. -/
def bindFailure : Mode → String
  | .tcp => "Failed to bind TCP listener"
  | _ => "Failed to bind UDP socket"

/-- What publishing prints, if anything is to be published. -/
def publication (o : StartOptions) (moment : Moment) (link : Link Unit) (agent : Agent) :
    Except Error String :=
  match o.publish with
  | none => .ok ""
  | some data =>
    (agent.publish link moment (Utf8.encode data) ()).1.map (publishedLine ·.version)

/-- A node that has joined, up to the interrupt that ends it. The pause between its reports is
two cycles, which have to be a span. -/
def session (o : StartOptions) (moment : Moment) (link : Link Unit) (agent : Agent) : Outcome :=
  let (agent, status) := agent.status moment
  let opening := openingText ++ describe o status
  match publication o moment link agent with
  | .error _ => failure opening "Failed to publish metadata"
  | .ok published =>
    let stdout := opening ++ published ++ runningText
    match agent.node.settings.cycle.times? 2 with
    | none => { code := abortCode, stdout }
    | some _ => { code := 0, stdout, closing := some closingText }

/-- Starts a node on a host, with settings that are in order, and runs it to the interrupt. -/
def launch (host : Socket.Host) (moment : Moment) (o : StartOptions) : Outcome :=
  match Node.build o.self o.settings false moment.now with
  | .error _ => failure "" "Failed to create node"
  | .ok node =>
    let node := o.peers.foldl (fun n peer ↦ (n.set (seedMember peer) moment.now).1) node
    match ({ node } : Agent).join with
    | .error .overflow => { code := abortCode, stdout := openingText }
    | .error _ => failure openingText "Failed to join cluster"
    | .ok agent => session o moment (Socket.datagramLink host o.bindAddress.ip) agent

/-- Runs a node on a host until it is interrupted, if the clock can be read. -/
def runStart (host : Socket.Host) (moment : Option Moment) (o : StartOptions) : Outcome :=
  match o.settings.normalize with
  | .error .overflow => { code := abortCode, stdout := "" }
  | .error _ => failure "" "Invalid configuration"
  | .ok settings =>
    if settings.mode.isOffload then
      failure ""
        (settings.mode.display ++ " mode needs a kernel offload program and is not available here")
    else
      match Socket.bind host o.bindAddress false, moment with
      | .error _, _ => failure "" (bindFailure settings.mode)
      | .ok (), none => { code := abortCode, stdout := "" }
      | .ok (), some moment => launch host moment o

/-- Runs the program on a host, with the given arguments. -/
def run (host : Socket.Host) (moment : Option Moment) (args : List String) : Outcome :=
  match parse args with
  | .error _ => { code := usageCode, stdout := "" }
  | .ok .help => { code := 0, stdout := "" }
  | .ok (.hashSecret secret) => { code := 0, stdout := line (hashSecret secret) }
  | .ok (.start o) => runStart host moment o

end Gossip.CommandLine
