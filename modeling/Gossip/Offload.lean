import Gossip.Link
import Gossip.Table

/-!
The tables of the offload program: the targets of each registered batch, and the metadata
version that was pinned last. A list longer than the program can hold is refused; registering a
key again replaces its targets.
-/

set_option autoImplicit false
set_option relaxedAutoImplicit false

namespace Gossip

/-- The targets registered under each key, and the pinned version. -/
structure Offload where
  batches : Table BatchKey (List Target) := .empty
  version : Int64 := 0
  deriving DecidableEq

namespace Offload

/-- The targets that the program can hold under one key. -/
def capacity : Nat := 64

/-- Registers the targets of a batch, in the place of earlier ones of the same key. -/
def register (o : Offload) (key : BatchKey) (targets : List Target) : Except Error Offload :=
  if capacity < targets.length then .error (.tooManyTargets targets.length capacity)
  else .ok { o with batches := o.batches.insert key targets }

def pin (o : Offload) (version : Int64) : Offload := { o with version }

def batch? (o : Offload) (key : BatchKey) : Option (List Target) := o.batches.get? key

/-- The targets to which the program copies a packet, if it carries a registered key. -/
def replicas? (o : Offload) (bytes : Bytes) : Option (List Target) :=
  match peekBatch bytes with
  | some key => o.batch? key
  | none => none

/-- The tables behind a network that takes every packet and shows none. -/
def link : Link Offload where
  send _ := Action.skip
  register key targets o :=
    match o.register key targets with
    | .ok o => (.ok (), o)
    | .error error => (.error error, o)
  pin version o := (.ok (), o.pin version)

end Offload

end Gossip
