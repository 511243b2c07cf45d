import Gossip.Link

/-!
Broadcasting in batches. The targets are cut into groups of at most 25; each group is registered
under the next key of a ring of three-digit keys, and one packet that carries the key goes to
the first of its targets, from where the offload program replicates it. A registration that
fails ends the broadcast before its group's packet is sent; a packet that fails to go out is
lost with its group and with nothing else.
-/

set_option autoImplicit false
set_option relaxedAutoImplicit false

namespace Gossip

/-- The ring of batch keys, by the key that was handed out last. -/
structure KeyRing where
  last : Nat
  least : 100 ≤ last := by decide
  most : last ≤ 999 := by decide
  deriving DecidableEq

namespace KeyRing

/-- Nothing has been handed out: the first step leads to 101. -/
def fresh : KeyRing := ⟨100, by decide, by decide⟩

instance : Inhabited KeyRing := ⟨fresh⟩

/-- One step around the ring; behind the greatest key comes the least. -/
def advance (ring : KeyRing) : KeyRing :=
  if h : ring.last < 999 then ⟨ring.last + 1, by have := ring.least; omega, h⟩ else fresh

/-- The key that was handed out last. -/
def key (ring : KeyRing) : BatchKey :=
  ⟨.ofNat ring.last, by
    have hl := ring.least
    have hm := ring.most
    intro h
    have := congrArg UInt16.toNat h
    simp at this
    omega⟩

/-- The ring after a number of steps. -/
def steps : Nat → KeyRing → KeyRing
  | 0, ring => ring
  | n + 1, ring => steps n ring.advance

end KeyRing

/-- The most targets of one batch. -/
def groupSize : Nat := 25

/-- Consecutive groups of a list, all of them full but possibly the last. -/
def groups {α : Type} (targets : List α) : List (List α) :=
  (List.range ((targets.length + groupSize - 1) / groupSize)).map fun i ↦
    (targets.drop (groupSize * i)).take groupSize

/-- How many batches went out, and how many targets they have together. -/
structure BatchReport where
  batches : Nat
  targets : Nat
  deriving DecidableEq, Repr

/-- The packet that goes out for a batch. -/
def batchPacket (secret : String) (h : Heartbeat) (key : BatchKey) : Packet :=
  ⟨secret, .forward h (some key)⟩

/-- Sends the packet of a batch to the first member of its group. -/
def sendBatch {ω : Type} (link : Link ω) (secret : String) (h : Heartbeat) (key : BatchKey)
    (group : List Member) (w : ω) : ω :=
  match group with
  | [] => w
  | first :: _ => (link.send ⟨first.addr, first.port, (batchPacket secret h key).encode⟩ w).2

/-- Registers and sends group by group; the first registration that fails ends it. -/
def dispatchGroups {ω : Type} (link : Link ω) (secret : String) (h : Heartbeat) :
    List (List Member) → KeyRing → ω → Except Error BatchReport × KeyRing × ω
  | [], ring, w => (.ok ⟨0, 0⟩, ring, w)
  | group :: rest, ring, w =>
    let ring := ring.advance
    match link.register ring.key (group.map Member.target) w with
    | (.error error, w) => (.error error, ring, w)
    | (.ok (), w) =>
      let w := sendBatch link secret h ring.key group w
      let (result, ring, w) := dispatchGroups link secret h rest ring w
      (result.map fun report ↦ ⟨report.batches + 1, report.targets + group.length⟩, ring, w)

/-- Broadcasts to a list of targets in batches. -/
def dispatch {ω : Type} (link : Link ω) (secret : String) (h : Heartbeat)
    (targets : List Member) (ring : KeyRing) (w : ω) :
    Except Error BatchReport × KeyRing × ω :=
  dispatchGroups link secret h (groups targets) ring w

end Gossip
