import Gossip.Link

/-!
A record of what a node asks of its link: every request in the order in which it was made, with
the error it met, if any. Rules may refuse requests by kind and number; a refused request goes
no further, and every other one is passed on to the link that is recorded.
-/

set_option autoImplicit false
set_option relaxedAutoImplicit false

namespace Gossip

/-- What a node asks of its link. -/
inductive Request where
  | send (s : Send)
  | register (key : BatchKey) (targets : List Target)
  | pin (version : Int64)
  deriving DecidableEq

/-- The requests in the order in which they were made, each with the error it met. -/
structure Journal where
  entries : List (Request × Option Error) := []
  deriving DecidableEq

/-- Which requests are refused. Sends and registrations are picked by their number, counted from
zero among their kind. A pin that is not kept succeeds without reaching the link. -/
structure Rules where
  refuse : Nat → Send → Option Error := fun _ _ ↦ none
  reject : Nat → BatchKey → Option Error := fun _ _ ↦ none
  keepPin : Bool := true
  failPin : Option Error := none

namespace Journal

/-- Writes down a request and its result. -/
def note (j : Journal) (request : Request) (result : Except Error Unit) : Journal :=
  match result with
  | .ok () => ⟨j.entries ++ [(request, none)]⟩
  | .error error => ⟨j.entries ++ [(request, some error)]⟩

/-- The packets that were attempted, with the errors they met. -/
def sends (j : Journal) : List (Send × Option Error) :=
  j.entries.filterMap fun e ↦
    match e.1 with
    | .send s => some (s, e.2)
    | _ => none

/-- The batches whose registration was attempted, with the errors they met. -/
def registrations (j : Journal) : List ((BatchKey × List Target) × Option Error) :=
  j.entries.filterMap fun e ↦
    match e.1 with
    | .register key targets => some ((key, targets), e.2)
    | _ => none

/-- The error by which rules refuse the next request, if they do. -/
def verdict (rules : Rules) (j : Journal) : Request → Option Error
  | .send s => rules.refuse j.sends.length s
  | .register key _ => rules.reject j.registrations.length key
  | .pin _ => rules.failPin

/-- Takes an action for a request, unless rules refuse it, and writes it down. -/
def record {ω : Type} (rules : Rules) (request : Request) (action : Action ω) :
    Action (Journal × ω) := fun w ↦
  match verdict rules w.1 request with
  | some error => (.error error, w.1.note request (.error error), w.2)
  | none =>
    let (result, world) := action w.2
    (result, w.1.note request result, world)

/-- Keeps a journal of a link, under rules. -/
def link {ω : Type} (rules : Rules) (inner : Link ω) : Link (Journal × ω) where
  send s := record rules (.send s) (inner.send s)
  register key targets := record rules (.register key targets) (inner.register key targets)
  pin version :=
    record rules (.pin version) (if rules.keepPin then inner.pin version else Action.skip)

end Journal

end Gossip
