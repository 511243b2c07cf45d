import Gossip.Packet.Wire
import Gossip.Proofs.Base64
import Gossip.Proofs.Json.Fields
import Mathlib.Data.List.Forall2

/-!
Which texts are read as a packet, beyond those that are written. The members of a packet may come in
any order and with any white space, may be left out, and may stand among members with other names,
whose values are passed over; inside of it, a member and metadata are objects under the same rule.
What is read depends on nothing but the values of the known members. One that is given twice makes
the packet unreadable, wherever it is.
-/

set_option autoImplicit false
set_option relaxedAutoImplicit false

namespace Gossip

open Json

/-! ### Metadata -/

namespace Metadata

def fieldNames : List String := ["Size", "Update", "Data"]

/-- A payload: the text of its encoding, or `null` for an empty one. -/
def IsPayload (v data : Bytes) : Prop :=
  v = 0x6E :: nullTail ∧ data = [] ∨ IsText v (Base64.encode data)

/-- Metadata with the values that the members of an object give, and defaults otherwise. -/
structure BuiltFrom (entries : List Entry) (m : Metadata) : Prop where
  once : ∀ name ∈ fieldNames, ¬Repeats entries name
  size : Given entries "Size" (fun v n ↦ v = writeNat n.toNat) 0 m.size
  version : Given entries "Update" (fun v n ↦ v = writeInt n.toInt) 0 m.version
  data : Given entries "Data" IsPayload [] m.data

/-- The value is an object that gives the metadata. -/
def Means (v : Bytes) (m : Metadata) : Prop :=
  ∃ entries, IsObject v entries ∧ Named entries ∧ m.BuiltFrom entries

/-- The fields, with how they are read. -/
def fields : List (FieldForm Metadata) :=
  [⟨"Size", fun v n ↦ v = writeNat n.toNat, unsigned64, size, fun n m ↦ { m with size := n }⟩,
    ⟨"Update", fun v n ↦ v = writeInt n.toInt, signed64, version,
      fun n m ↦ { m with version := n }⟩,
    ⟨"Data", IsPayload, nullable [] payload, data, fun data m ↦ { m with data := data }⟩]

theorem accepts_payload {v data : Bytes} (h : IsPayload v data) :
    Accepts (nullable [] payload) v data := by
  rcases h with ⟨rfl, rfl⟩ | htext
  · exact accepts_null [] payload
  · have hread := accepts_text htext
    have hpayload : Accepts payload v data := by
      intro before rest hbefore hrest
      unfold payload
      rw [hread before rest hbefore hrest]
      dsimp only
      rw [Base64.decode?_encode]
    obtain ⟨s, rfl, hs⟩ := htext
    exact hpayload.nullable [] (by decide) (.text hs.quotable)

theorem takesWhole_payload : TakesWhole (nullable [] payload) := by
  refine TakesWhole.nullable [] ?_
  intro before v rest behind data hbefore hv hrest hread
  unfold payload at hread
  split at hread
  · exact absurd hread (by simp)
  next text more htext =>
    split at hread
    · obtain ⟨-, rfl⟩ := Prod.mk.inj (Except.ok.inj hread)
      exact takesWhole_text hbefore hv hrest htext
    · exact absurd hread (by simp)

theorem lawful_fields : FieldForm.Lawful fields where
  accepts := by
    simp only [fields, List.forall_mem_cons]
    refine ⟨fun v n h ↦ h ▸ accepts_unsigned64 n, fun v n h ↦ h ▸ accepts_signed64 n,
      fun v data h ↦ accepts_payload h, by simp⟩
  whole := by
    simp only [fields, List.forall_mem_cons]
    exact ⟨TakesWhole.map _ (takesWhole_integer _), takesWhole_integer _, takesWhole_payload,
      by simp⟩
  get_put := by simp [fields]
  apart := by simp [fields, FieldForm.apart_iff]
  ext := by
    intro x y h
    simp only [fields, List.forall_mem_cons] at h
    obtain ⟨hsize, hversion, hdata, -⟩ := h
    cases x
    cases y
    simp_all

theorem accepts_reader {v : Bytes} {m : Metadata} (h : Means v m) : Accepts reader v m := by
  obtain ⟨entries, hv, hnamed, hbuilt⟩ := h
  refine lawful_fields.accepts_record hv hnamed ?_ ?_
  · simpa [fields, fieldNames] using hbuilt.once
  · simp only [fields, List.forall_mem_cons]
    exact ⟨hbuilt.size, hbuilt.version, hbuilt.data, by simp⟩

theorem takesWhole_reader : TakesWhole reader :=
  takesWhole_record lawful_fields.takesWhole_slot _

end Metadata

/-! ### Members of the cluster -/

namespace Member

def fieldNames : List String := ["Addr", "Port", "Mac", "Name", "PrivateData", "LinkName"]

/-- A member of the cluster with the values that the members of an object give, and defaults
otherwise. -/
structure BuiltFrom (entries : List Entry) (m : Member) : Prop where
  once : ∀ name ∈ fieldNames, ¬Repeats entries name
  addr : Given entries "Addr" IsText "" m.addr
  port : Given entries "Port" (fun v n ↦ v = writeNat n.toNat) 0 m.port
  mac : Given entries "Mac" IsText "" m.mac
  name : Given entries "Name" IsText "" m.name
  privateData : Given entries "PrivateData" IsText "" m.privateData
  linkName : Given entries "LinkName" IsText "" m.linkName

/-- The value is an object that gives the member. -/
def Means (v : Bytes) (m : Member) : Prop :=
  ∃ entries, IsObject v entries ∧ Named entries ∧ m.BuiltFrom entries

/-- The fields, with how they are read. -/
def fields : List (FieldForm Member) :=
  [⟨"Addr", IsText, text, addr, fun s m ↦ { m with addr := s }⟩,
    ⟨"Port", fun v n ↦ v = writeNat n.toNat, unsigned16, port, fun n m ↦ { m with port := n }⟩,
    ⟨"Mac", IsText, text, mac, fun s m ↦ { m with mac := s }⟩,
    ⟨"Name", IsText, text, name, fun s m ↦ { m with name := s }⟩,
    ⟨"PrivateData", IsText, text, privateData, fun s m ↦ { m with privateData := s }⟩,
    ⟨"LinkName", IsText, text, linkName, fun s m ↦ { m with linkName := s }⟩]

theorem lawful_fields : FieldForm.Lawful fields where
  accepts := by
    have htext : ∀ v s, IsText v s → Accepts text v s := fun v s ↦ accepts_text
    simp only [fields, List.forall_mem_cons]
    exact ⟨htext, fun v n h ↦ h ▸ accepts_unsigned16 n, htext, htext, htext, htext, by simp⟩
  whole := by
    simp only [fields, List.forall_mem_cons]
    exact ⟨takesWhole_text, TakesWhole.map _ (takesWhole_integer _), takesWhole_text,
      takesWhole_text, takesWhole_text, takesWhole_text, by simp⟩
  get_put := by simp [fields]
  apart := by simp [fields, FieldForm.apart_iff]
  ext := by
    intro x y h
    simp only [fields, List.forall_mem_cons] at h
    obtain ⟨haddr, hport, hmac, hname, hprivate, hlink, -⟩ := h
    cases x
    cases y
    simp_all

theorem accepts_reader {v : Bytes} {m : Member} (h : Means v m) : Accepts reader v m := by
  obtain ⟨entries, hv, hnamed, hbuilt⟩ := h
  refine lawful_fields.accepts_record hv hnamed ?_ ?_
  · simpa [fields, fieldNames] using hbuilt.once
  · simp only [fields, List.forall_mem_cons]
    exact ⟨hbuilt.addr, hbuilt.port, hbuilt.mac, hbuilt.name, hbuilt.privateData, hbuilt.linkName,
      by simp⟩

theorem takesWhole_reader : TakesWhole reader :=
  takesWhole_record lawful_fields.takesWhole_slot _

end Member

/-! ### Infected sets -/

namespace Infected

/-- The members of an object are entries of a set: a key with its flag each. -/
def Lists (entries : List Entry) (pairs : List (String × Bool)) : Prop :=
  List.Forall₂ (fun e p ↦ Spelled e.name p.1 ∧ e.item.value = writeBool p.2) entries pairs

/-- The value gives the set: an object with its entries, of which the last one of each key counts,
or `null` for the empty set. -/
def Means (v : Bytes) (set : Infected) : Prop :=
  v = 0x6E :: nullTail ∧ set = .empty ∨
    ∃ entries pairs, IsObject v entries ∧ Lists entries pairs ∧ set = .ofList pairs

theorem gathers_of_lists {entries : List Entry} {pairs : List (String × Bool)}
    (h : Lists entries pairs) (set : Infected) :
    Gathers (fun set key ↦ .ok (Json.bool.map fun flag ↦ set.put key flag)) set entries
      (pairs.foldl (fun set e ↦ set.put e.1 e.2) set) := by
  induction h generalizing set with
  | nil => exact .nil set
  | @cons e p entries pairs hentry _ ih =>
    obtain ⟨hname, hvalue⟩ := hentry
    refine .cons hname rfl ?_ (ih (set.put p.1 p.2))
    rw [hvalue]
    exact (accepts_bool p.2).map _

theorem accepts_reader {v : Bytes} {set : Infected} (h : Means v set) :
    Accepts (nullable .empty reader) v set := by
  rcases h with ⟨rfl, rfl⟩ | ⟨entries, pairs, hv, hlists, rfl⟩
  · exact accepts_null .empty reader
  · have hread : Accepts reader v (ofList pairs) :=
      accepts_object hv (gathers_of_lists hlists .empty)
    have hwell := hv.wellFormed
    obtain ⟨blanks, -, rfl⟩ := hv.text
    exact hread.nullable .empty (by decide) hwell

theorem takesWhole_reader : TakesWhole (nullable .empty reader) := by
  refine TakesWhole.nullable empty (takesWhole_object empty ?_)
  intro set key reader hmember
  obtain rfl := Except.ok.inj hmember
  exact TakesWhole.map _ takesWhole_bool

end Infected

/-! ### Wire forms -/

namespace Wire

def fieldNames : List String :=
  ["Type", "Count", "Mapkey", "Metadata", "Node", "Infected", "IsUpdate", "SecretKey"]

/-- A wire form with the values that the members of an object give, and defaults otherwise. -/
structure BuiltFrom (entries : List Entry) (w : Wire) : Prop where
  once : ∀ name ∈ fieldNames, ¬Repeats entries name
  tag : Given entries "Type" (fun v n ↦ v = writeNat n.toNat) 0 w.tag
  count : Given entries "Count" (fun v n ↦ v = writeNat n.toNat) 0 w.count
  batch : Given entries "Mapkey" (fun v n ↦ v = writeNat n.toNat) 0 w.batch
  metadata : Given entries "Metadata" Metadata.Means {} w.metadata
  node : Given entries "Node" Member.Means {} w.node
  infected : Given entries "Infected" Infected.Means .empty w.infected
  isUpdate : Given entries "IsUpdate" (fun v b ↦ v = writeBool b) false w.isUpdate
  secret : Given entries "SecretKey" IsText "" w.secret

/-- The fields, with how they are read. -/
def fields : List (FieldForm Wire) :=
  [⟨"Type", fun v n ↦ v = writeNat n.toNat, unsigned8, tag, fun n w ↦ { w with tag := n }⟩,
    ⟨"Count", fun v n ↦ v = writeNat n.toNat, unsigned16, count, fun n w ↦ { w with count := n }⟩,
    ⟨"Mapkey", fun v n ↦ v = writeNat n.toNat, unsigned16, batch, fun n w ↦ { w with batch := n }⟩,
    ⟨"Metadata", Metadata.Means, Metadata.reader, metadata, fun m w ↦ { w with metadata := m }⟩,
    ⟨"Node", Member.Means, Member.reader, node, fun m w ↦ { w with node := m }⟩,
    ⟨"Infected", Infected.Means, nullable .empty Infected.reader, infected,
      fun set w ↦ { w with infected := set }⟩,
    ⟨"IsUpdate", fun v b ↦ v = writeBool b, bool, isUpdate, fun b w ↦ { w with isUpdate := b }⟩,
    ⟨"SecretKey", IsText, text, secret, fun s w ↦ { w with secret := s }⟩]

theorem lawful_fields : FieldForm.Lawful fields where
  accepts := by
    simp only [fields, List.forall_mem_cons]
    exact ⟨fun v n h ↦ h ▸ accepts_unsigned8 n, fun v n h ↦ h ▸ accepts_unsigned16 n,
      fun v n h ↦ h ▸ accepts_unsigned16 n, fun v m ↦ Metadata.accepts_reader,
      fun v m ↦ Member.accepts_reader, fun v set ↦ Infected.accepts_reader,
      fun v b h ↦ h ▸ accepts_bool b, fun v s ↦ accepts_text, by simp⟩
  whole := by
    simp only [fields, List.forall_mem_cons]
    exact ⟨TakesWhole.map _ (takesWhole_integer _), TakesWhole.map _ (takesWhole_integer _),
      TakesWhole.map _ (takesWhole_integer _), Metadata.takesWhole_reader,
      Member.takesWhole_reader, Infected.takesWhole_reader, takesWhole_bool, takesWhole_text,
      by simp⟩
  get_put := by simp [fields]
  apart := by simp [fields, FieldForm.apart_iff]
  ext := by
    intro x y h
    simp only [fields, List.forall_mem_cons] at h
    obtain ⟨htag, hcount, hbatch, hmetadata, hnode, hinfected, hupdate, hsecret, -⟩ := h
    cases x
    cases y
    simp_all

theorem accepts_reader {entries : List Entry} {v : Bytes} {w : Wire} (hv : IsObject v entries)
    (hnamed : Named entries) (hbuilt : w.BuiltFrom entries) : Accepts reader v w := by
  refine lawful_fields.accepts_record hv hnamed ?_ ?_
  · simpa [fields, fieldNames] using hbuilt.once
  · simp only [fields, List.forall_mem_cons]
    exact ⟨hbuilt.tag, hbuilt.count, hbuilt.batch, hbuilt.metadata, hbuilt.node, hbuilt.infected,
      hbuilt.isUpdate, hbuilt.secret, by simp⟩

theorem takesWhole_reader : TakesWhole reader :=
  takesWhole_record lawful_fields.takesWhole_slot _

/-- A known name is given twice: by the packet itself, by its metadata or by its member. -/
def Doubles (entries : List Entry) : Prop :=
  (∃ name ∈ fieldNames, Repeats entries name) ∨
    (∃ e ∈ entries, Spelled e.name "Metadata" ∧ ∃ inner, IsObject e.item.value inner ∧
      ∃ name ∈ Metadata.fieldNames, Repeats inner name) ∨
    ∃ e ∈ entries, Spelled e.name "Node" ∧ ∃ inner, IsObject e.item.value inner ∧
      ∃ name ∈ Member.fieldNames, Repeats inner name

/-- What has been read gives no known name twice. -/
theorem not_doubles_of_hasTaken {entries : List Entry} {v : Bytes} {w : Wire}
    (hv : IsObject v entries) (h : HasTaken reader v w) : ¬Doubles entries := by
  have htaken (p : FieldForm Wire) (hp : p ∈ fields) := (lawful_fields.of_hasTaken hv h hp).2
  simp only [fields, List.forall_mem_cons] at htaken
  obtain ⟨-, -, -, hmetadata, hnode, -⟩ := htaken
  rintro (⟨name, hname, hrepeats⟩ | ⟨e, he, hspelled, inner, hinner, name, hname, hrepeats⟩ |
    ⟨e, he, hspelled, inner, hinner, name, hname, hrepeats⟩)
  · exact lawful_fields.not_repeats hv h hname hrepeats
  · obtain ⟨m, hread⟩ := hmetadata e he hspelled
    exact Metadata.lawful_fields.not_repeats hinner hread hname hrepeats
  · obtain ⟨m, hread⟩ := hnode e he hspelled
    exact Member.lawful_fields.not_repeats hinner hread hname hrepeats

end Wire

/-! ### Packets -/

/-- The text is an object with these members, with white space around it. -/
def IsDocument (bytes : Bytes) (entries : List Entry) : Prop :=
  ∃ before v after, bytes = before ++ (v ++ after) ∧ Blank before ∧ Blank after ∧
    IsObject v entries

section Documents

variable {α : Type} {reader : Reader α} {before after v : Bytes} {a : α}
  (hbefore : Blank before) (hafter : Blank after)

include hbefore hafter

theorem readDocument_of_accepts (h : Accepts reader v a) :
    readDocument reader (before ++ (v ++ after)) = .ok a := by
  have hread := h before after hbefore (Blank.ends hafter)
  unfold readDocument document
  rw [hread]
  dsimp only
  rw [if_pos (Blank.skipBlank_eq_nil hafter)]

/-- A document that has been read is a value that has been taken as a whole. -/
theorem hasTaken_of_readDocument (hv : WellFormed v) (hwhole : TakesWhole reader)
    (h : readDocument reader (before ++ (v ++ after)) = .ok a) : HasTaken reader v a := by
  have hends := Blank.ends hafter
  unfold readDocument document at h
  cases hread : reader (before ++ (v ++ after)) with
  | error fault =>
    rw [hread] at h
    exact absurd h (by simp)
  | ok result =>
    obtain ⟨b, behind⟩ := result
    obtain rfl := hwhole hbefore hv hends hread
    rw [hread] at h
    dsimp only at h
    rw [if_pos (Blank.skipBlank_eq_nil hafter)] at h
    obtain rfl := Except.ok.inj h
    exact ⟨before, behind, hbefore, hends, hread⟩

end Documents

namespace Packet

theorem decode_of_readDocument {bytes : Bytes} {w : Wire}
    (h : readDocument Wire.reader bytes = .ok w) : decode bytes = w.packet? := by
  unfold decode
  rw [h]

theorem exists_decode_eq_error {bytes : Bytes}
    (h : ∀ w, readDocument Wire.reader bytes ≠ .ok w) :
    ∃ error, decode bytes = .error error ∧ error.kind = .serialization := by
  unfold decode
  unfold readDocument at h ⊢
  cases hread : document Wire.reader bytes with
  | error fault => exact ⟨.unreadable fault, rfl, rfl⟩
  | ok w => exact absurd (by rw [hread]) (h w)

/-- A wire form is refused as a packet only for its tag. -/
theorem exists_packet?_eq_error_iff (w : Wire) :
    (∃ error, w.packet? = .error error ∧ error.kind = .invalidPacket) ↔ 3 < w.tag := by
  unfold Wire.packet?
  split_ifs with hheartbeat hforward hrequest hresponse
  · simp [hheartbeat]
  · simp [hforward]
  · simp [hrequest]
  · simp [hresponse]
  · have htag : 3 < w.tag := by grind
    exact iff_of_true ⟨.unknownType w.tag, rfl, rfl⟩ htag

/-- A packet is read from any object that gives its fields what they call for, each of them once at
most. Neither the order of the members nor the white space nor the members with other names, whatever
their values are, make a difference; a field that is not given has its default, and the packet is
refused for its tag or not at all. If a known name is given twice, by the packet or by its member or
by its metadata, nothing is read. Assumes: the text is an object, with white space around it; for the
packet, that its members have names. -/
theorem decode_tolerates {bytes : Bytes} {entries : List Entry} (h : IsDocument bytes entries) :
    (Named entries → ∀ w : Wire, w.BuiltFrom entries →
      (w.tag = 0 → decode bytes =
        .ok ⟨w.secret, .heartbeat ⟨w.node, w.infected, w.metadata, w.isUpdate⟩⟩) ∧
      (w.tag = 1 → decode bytes =
        .ok ⟨w.secret, .forward ⟨w.node, w.infected, w.metadata, w.isUpdate⟩
          (BatchKey.ofWord? w.batch)⟩) ∧
      (w.tag = 2 → decode bytes = .ok ⟨w.secret, .swapRequest ⟨w.node, w.metadata⟩⟩) ∧
      (w.tag = 3 → decode bytes = .ok ⟨w.secret, .swapResponse ⟨w.node, w.metadata⟩⟩) ∧
      ((∃ error, decode bytes = .error error ∧ error.kind = .invalidPacket) ↔ 3 < w.tag)) ∧
    (Wire.Doubles entries →
      ∃ error, decode bytes = .error error ∧ error.kind = .serialization) := by
  obtain ⟨before, v, after, rfl, hbefore, hafter, hv⟩ := h
  constructor
  · intro hnamed w hbuilt
    have hread := readDocument_of_accepts hbefore hafter (Wire.accepts_reader hv hnamed hbuilt)
    rw [decode_of_readDocument hread]
    refine ⟨fun h ↦ ?_, fun h ↦ ?_, fun h ↦ ?_, fun h ↦ ?_, exists_packet?_eq_error_iff w⟩ <;>
      simp [Wire.packet?, h, Wire.heartbeat, Wire.swap]
  · intro hdoubles
    refine exists_decode_eq_error fun w hread ↦ ?_
    have htaken := hasTaken_of_readDocument hbefore hafter hv.wellFormed
      Wire.takesWhole_reader hread
    exact Wire.not_doubles_of_hasTaken hv htaken hdoubles

/-! ### Samples -/

/-- The member `"Port":80`. -/
def portEntry : Entry := ⟨[], Utf8.encode "Port", [], ⟨[], writeNat 80, []⟩⟩

/-- The members of `{"Port":80,"Addr" : "a"}`. -/
def looseNode : List Entry :=
  [portEntry, ⟨[], Utf8.encode "Addr", [0x20],
    ⟨[0x20], quoteByte :: (Utf8.encode "a" ++ [quoteByte]), []⟩⟩]

/-- The members of `{"Tags":[{}],"Node":{"Port":80,"Addr" : "a"}, "Typ\u0065":1}`. -/
def loose : List Entry :=
  [⟨[], Utf8.encode "Tags", [], ⟨[], listText [] [⟨[], objectText [] [], []⟩], []⟩⟩,
    ⟨[], Utf8.encode "Node", [], ⟨[], objectText [] looseNode, []⟩⟩,
    ⟨[0x20], Utf8.encode "Typ" ++ [backslashByte, 0x75, 0x30, 0x30, 0x36, 0x35], [],
      ⟨[], writeNat 1, []⟩⟩]

/-- The members of `{"Node":{"Port":80,"Port":80}}`. -/
def portTwice : List Entry :=
  [⟨[], Utf8.encode "Node", [], ⟨[], objectText [] [portEntry, portEntry], []⟩⟩]

theorem keyed_looseNode : Keyed looseNode ["Port", "Addr"] :=
  .cons (spelled_encode (by decide)) (.cons (spelled_encode (by decide)) .nil)

theorem spelled_tag :
    Spelled (Utf8.encode "Typ" ++ [backslashByte, 0x75, 0x30, 0x30, 0x36, 0x35]) "Type" := by
  have hdigits : Hex.four? 0x30 0x30 0x36 0x35 = some 0x65 := rfl
  have hlast := Unescapes.code hdigits rfl rfl .nil
  have htext : Utf8.encode "Type" =
      0x54 :: 0x79 :: 0x70 :: (String.utf8EncodeChar (Char.ofNat 0x65) ++ []) := by decide
  unfold Spelled
  rw [htext]
  exact .plain (by decide) (.plain (by decide) (.plain (by decide) hlast))

theorem keyed_loose : Keyed loose ["Tags", "Node", "Type"] :=
  .cons (spelled_encode (by decide)) (.cons (spelled_encode (by decide)) (.cons spelled_tag .nil))

theorem isObject_looseNode : IsObject (objectText [] looseNode) looseNode := by
  refine keyed_looseNode.isObject (by decide) ?_
  simp only [looseNode, List.forall_mem_cons]
  exact ⟨.number (unsigned_writeNat 80), .text (spelled_encode (by decide)).quotable, by simp⟩

theorem isObject_loose : IsObject (objectText [] loose) loose := by
  refine keyed_loose.isObject (by decide) ?_
  have htags : WellFormed (listText [] [⟨[], objectText [] [], []⟩]) := by
    refine .list blank_nil (by decide) (List.forall_mem_singleton.mpr ?_)
    exact .object blank_nil (by simp) (by simp) (by simp)
  simp only [loose, List.forall_mem_cons]
  exact ⟨htags, isObject_looseNode.wellFormed, .number (unsigned_writeNat 1), by simp⟩

theorem isObject_portTwice : IsObject (objectText [] portTwice) portTwice ∧
    IsObject (objectText [] [portEntry, portEntry]) [portEntry, portEntry] := by
  have hname : Spelled portEntry.name "Port" := spelled_encode (by decide)
  have hvalue : WellFormed portEntry.item.value := .number (unsigned_writeNat 80)
  have hinner : IsObject (objectText [] [portEntry, portEntry]) [portEntry, portEntry] :=
    Keyed.isObject (.cons hname (.cons hname .nil)) (by decide)
      (List.forall_mem_cons.mpr ⟨hvalue, List.forall_mem_singleton.mpr hvalue⟩)
  exact ⟨Keyed.isObject (.cons (spelled_encode (by decide)) .nil) (by decide)
    (List.forall_mem_singleton.mpr hinner.wellFormed), hinner⟩

theorem builtFrom_looseNode : ({ addr := "a", port := 80 } : Member).BuiltFrom looseNode where
  once name _ := keyed_looseNode.not_repeats (by decide) name
  addr := Or.inl ⟨_, List.mem_cons_of_mem _ List.mem_cons_self, spelled_encode (by decide),
    ⟨_, rfl, spelled_encode (by decide)⟩⟩
  port := Or.inl ⟨_, List.mem_cons_self, spelled_encode (by decide), rfl⟩
  mac := keyed_looseNode.given (by decide)
  name := keyed_looseNode.given (by decide)
  privateData := keyed_looseNode.given (by decide)
  linkName := keyed_looseNode.given (by decide)

theorem builtFrom_loose :
    ({ tag := 1, node := { addr := "a", port := 80 } } : Wire).BuiltFrom loose where
  once name _ := keyed_loose.not_repeats (by decide) name
  tag := Or.inl ⟨_, List.mem_cons_of_mem _ (List.mem_cons_of_mem _ List.mem_cons_self),
    spelled_tag, rfl⟩
  count := keyed_loose.given (by decide)
  batch := keyed_loose.given (by decide)
  metadata := keyed_loose.given (by decide)
  node := Or.inl ⟨_, List.mem_cons_of_mem _ List.mem_cons_self, spelled_encode (by decide),
    looseNode, isObject_looseNode, keyed_looseNode.named, builtFrom_looseNode⟩
  infected := keyed_loose.given (by decide)
  isUpdate := keyed_loose.given (by decide)
  secret := keyed_loose.given (by decide)

theorem doubles_portTwice : Wire.Doubles portTwice := by
  have hname : Spelled portEntry.name "Port" := spelled_encode (by decide)
  refine Or.inr (Or.inr ⟨_, List.mem_cons_self, spelled_encode (by decide), _,
    isObject_portTwice.2, "Port", by decide, ?_⟩)
  exact repeats_cons.mpr (Or.inr ⟨hname, portEntry, List.mem_singleton_self _, hname⟩)

/-- A packet whose members are in no order, and one whose member has two ports. -/
theorem decode_loose :
    (IsDocument ([0x20] ++ (objectText [] loose ++ [0x0A])) loose ∧ Named loose ∧
      decode ([0x20] ++ (objectText [] loose ++ [0x0A])) =
        .ok ⟨"", .forward ⟨{ addr := "a", port := 80 }, .empty, {}, false⟩ none⟩) ∧
    IsDocument (objectText [] portTwice) portTwice ∧
      ∃ error, decode (objectText [] portTwice) = .error error ∧ error.kind = .serialization := by
  have hloose : IsDocument ([0x20] ++ (objectText [] loose ++ [0x0A])) loose :=
    ⟨[0x20], _, [0x0A], rfl, by decide, by decide, isObject_loose⟩
  have htwice : IsDocument (objectText [] portTwice) portTwice :=
    ⟨[], _, [], (List.append_nil _).symm, blank_nil, blank_nil, isObject_portTwice.1⟩
  have hread := (decode_tolerates hloose).1 keyed_loose.named _ builtFrom_loose
  exact ⟨⟨hloose, keyed_loose.named, hread.2.1 rfl⟩, htwice,
    (decode_tolerates htwice).2 doubles_portTwice⟩

/-- The member of `{"\ud800":0}`. -/
def unpaired : Entry :=
  ⟨[], [backslashByte, 0x75, 0x64, 0x38, 0x30, 0x30], [], ⟨[], writeNat 0, []⟩⟩

theorem not_spelled_unpaired (name : String) : ¬Spelled unpaired.name name := by
  intro h
  have hfails : textBody (unpaired.name ++ [quoteByte]) = .error .malformed := by decide
  rw [textBody_spelled h []] at hfails
  exact absurd hfails (by simp)

/-- A name that is no text is refused, although it is not the name of any field. -/
theorem decode_unpaired :
    IsDocument (objectText [] [unpaired]) [unpaired] ∧ ({} : Wire).BuiltFrom [unpaired] ∧
      decode (objectText [] [unpaired]) = .error (.unreadable .malformed) := by
  have hdigits : Hex.four? 0x64 0x38 0x30 0x30 = some 0xD800 := rfl
  have hobject : IsObject (objectText [] [unpaired]) [unpaired] :=
    ⟨⟨[], blank_nil, rfl⟩, List.forall_mem_singleton.mpr
      ⟨by decide, .code (isSome_digit?_of_four? hdigits) .nil, .number (unsigned_writeNat 0)⟩⟩
  have hnone {name : String} : ∀ e ∈ [unpaired], ¬Spelled e.name name :=
    List.forall_mem_singleton.mpr (not_spelled_unpaired name)
  refine ⟨⟨[], _, [], (List.append_nil _).symm, blank_nil, blank_nil, hobject⟩,
    ⟨fun name _ ↦ ?_, Or.inr ⟨hnone, rfl⟩, Or.inr ⟨hnone, rfl⟩, Or.inr ⟨hnone, rfl⟩,
      Or.inr ⟨hnone, rfl⟩, Or.inr ⟨hnone, rfl⟩, Or.inr ⟨hnone, rfl⟩, Or.inr ⟨hnone, rfl⟩,
      Or.inr ⟨hnone, rfl⟩⟩, by decide⟩
  rw [repeats_cons]
  rintro (h | ⟨h, -⟩)
  · exact not_repeats_nil name h
  · exact not_spelled_unpaired name h

end Packet

end Gossip
