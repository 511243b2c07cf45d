import Gossip.Error
import Gossip.Packet

/-!
The wire form of a packet: one flat JSON object for all messages. Its members stand in a fixed
order, so that the batch key and the replica counter of a written packet lie at fixed offsets;
the reader takes them in any order, and takes a list of them as well. The replica counter
belongs to the offload program: it is written as zero and ignored when read.
-/

set_option autoImplicit false
set_option relaxedAutoImplicit false

namespace Gossip

/-- The members of the object, with their defaults. -/
structure Wire where
  tag : UInt8 := 0
  count : UInt16 := 0
  batch : UInt16 := 0
  metadata : Metadata := {}
  node : Member := {}
  infected : Infected := .empty
  isUpdate : Bool := false
  secret : String := ""
  deriving DecidableEq

namespace Wire

def ofPacket (p : Packet) : Wire :=
  match p.message with
  | .heartbeat h =>
    { tag := 0, metadata := h.metadata, node := h.node, infected := h.infected,
      isUpdate := h.isUpdate, secret := p.secret }
  | .forward h batch =>
    { tag := 1, batch := BatchKey.toWord batch, metadata := h.metadata, node := h.node,
      infected := h.infected, isUpdate := h.isUpdate, secret := p.secret }
  | .swapRequest s => { tag := 2, metadata := s.metadata, node := s.node, secret := p.secret }
  | .swapResponse s => { tag := 3, metadata := s.metadata, node := s.node, secret := p.secret }

def heartbeat (w : Wire) : Heartbeat := ⟨w.node, w.infected, w.metadata, w.isUpdate⟩

def swap (w : Wire) : Swap := ⟨w.node, w.metadata⟩

/-- The packet that a wire form stands for; what its message has no use for is dropped. -/
def packet? (w : Wire) : Except Error Packet :=
  if w.tag = 0 then .ok ⟨w.secret, .heartbeat w.heartbeat⟩
  else if w.tag = 1 then .ok ⟨w.secret, .forward w.heartbeat (BatchKey.ofWord? w.batch)⟩
  else if w.tag = 2 then .ok ⟨w.secret, .swapRequest w.swap⟩
  else if w.tag = 3 then .ok ⟨w.secret, .swapResponse w.swap⟩
  else .error (.unknownType w.tag)

def write (w : Wire) : Bytes :=
  Json.writeObject
    [Json.writeMember "Type" (Json.writeNat w.tag.toNat),
      Json.writeMember "Count" (Json.writeNat w.count.toNat),
      Json.writeMember "Mapkey" (Json.writeNat w.batch.toNat),
      Json.writeMember "Metadata" w.metadata.write,
      Json.writeMember "Node" w.node.write,
      Json.writeMember "Infected" w.infected.write,
      Json.writeMember "IsUpdate" (Json.writeBool w.isUpdate),
      Json.writeMember "SecretKey" (Json.writeText w.secret)]

def slots : List (Json.Slot Wire) :=
  [⟨"Type", fun w ↦ Json.unsigned8.map fun n ↦ { w with tag := n }⟩,
    ⟨"Count", fun w ↦ Json.unsigned16.map fun n ↦ { w with count := n }⟩,
    ⟨"Mapkey", fun w ↦ Json.unsigned16.map fun n ↦ { w with batch := n }⟩,
    ⟨"Metadata", fun w ↦ Metadata.reader.map fun m ↦ { w with metadata := m }⟩,
    ⟨"Node", fun w ↦ Member.reader.map fun m ↦ { w with node := m }⟩,
    ⟨"Infected", fun w ↦ (Json.nullable .empty Infected.reader).map fun set ↦
      { w with infected := set }⟩,
    ⟨"IsUpdate", fun w ↦ Json.bool.map fun b ↦ { w with isUpdate := b }⟩,
    ⟨"SecretKey", fun w ↦ Json.text.map fun s ↦ { w with secret := s }⟩]

def reader : Json.Reader Wire := Json.record slots {}

end Wire

/-- The value of a whole document, with a fault as an error. -/
def readDocument {α : Type} (reader : Json.Reader α) (bytes : Bytes) : Except Error α :=
  match Json.document reader bytes with
  | .ok a => .ok a
  | .error fault => .error (.unreadable fault)

namespace Packet

def encode (p : Packet) : Bytes := (Wire.ofPacket p).write

def decode (bytes : Bytes) : Except Error Packet :=
  match readDocument Wire.reader bytes with
  | .error error => .error error
  | .ok wire => wire.packet?

end Packet

end Gossip
