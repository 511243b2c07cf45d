import Gossip.Proofs.Fabric

/-!
What may happen on the network in memory, and what it does to one inbox. An event puts units behind
those that wait in the inbox, as many as there is room for, or takes out the unit that waits
longest, or closes the inbox together with what waits in it, or leaves it alone. The units put in
are those of the deliveries that are counted and whose key the network routes to the inbox.
-/

set_option autoImplicit false
set_option relaxedAutoImplicit false

namespace Gossip

/-- An endpoint as it is registered. -/
structure Endpoint where
  addr : String
  port : UInt16
  capacity : ℕ
  frames : Bool

def Endpoint.key (e : Endpoint) : String := peerKey e.addr e.port

/-- The inbox that an endpoint gets. -/
def Endpoint.inbox (e : Endpoint) : Inbox :=
  { key := e.key, capacity := max e.capacity 1, frames := e.frames }

/-- The unit of a receipt, if there is one. -/
def Receipt.unit? : Receipt → Option Bytes
  | .unit bytes => some bytes
  | _ => none

namespace Fabric

/-- What may happen on a network. An endpoint has the number of its inbox; it looks for a unit
(`poll`), waits for one (`receive`), or is thrown away (`drop`). -/
inductive Event where
  | register (e : Endpoint)
  | send (attached : Option Offload) (s : Send)
  | disconnect (addr : String) (port : UInt16)
  | poll (i : ℕ)
  | receive (i : ℕ)
  | drop (i : ℕ)

/-- The endpoint that an event registers, if an inbox of its capacity can be made. -/
def Event.opens? : Event → Option Endpoint
  | .register e => if capacityLimit < e.capacity then none else some e
  | _ => none

/-- An event takes the endpoint of a key off the network, for good or to put another in its
place. -/
def Event.Removes (event : Event) (key : String) : Prop :=
  match event with
  | .disconnect addr port => peerKey addr port = key
  | event => ∃ e, event.opens? = some e ∧ e.key = key

/-- The deliveries that an event tries: one for each target of the batch whose key a packet
carries, if the sender's program has the batch, and otherwise one for a packet. -/
def Event.attempts : Event → ℕ
  | .send attached s =>
    match attached.bind (·.replicas? s.bytes) with
    | some targets => targets.length
    | none => 1
  | _ => 0

def step (f : Fabric) : Event → Fabric
  | .register e =>
    match f.openEndpoint e.addr e.port e.capacity e.frames with
    | .ok (_, f) => f
    | .error _ => f
  | .send attached s => f.send attached s
  | .disconnect addr port => f.disconnect addr port
  | .poll i => (f.take i).2
  | .receive i => (f.receive i).2
  | .drop i => f.drop i

theorem step_register (f : Fabric) (e : Endpoint) :
    f.step (.register e) = if capacityLimit < e.capacity then f
      else (f.register e.addr e.port e.capacity e.frames).2 := by
  show (match f.openEndpoint e.addr e.port e.capacity e.frames with
    | .ok (_, f) => f
    | .error _ => f) = _
  unfold openEndpoint
  by_cases hlimit : capacityLimit < e.capacity
  · rw [if_pos hlimit, if_pos hlimit]
  · rw [if_neg hlimit, if_neg hlimit]

def run (f : Fabric) (events : List Event) : Fabric := events.foldl step f

theorem run_concat (f : Fabric) (events : List Event) (event : Event) :
    f.run (events ++ [event]) = (f.run events).step event := by
  unfold run
  rw [List.foldl_append]
  rfl

/-! ### Units that come and go -/

/-- The parcels that a send tries to deliver. -/
def parcels : Option Offload → Send → List Parcel
  | some o, s => o.parcels s
  | none, s => [⟨s.key, s.bytes⟩]

theorem send_eq (f : Fabric) (attached : Option Offload) (s : Send) :
    f.send attached s = f.deliverAll (parcels attached s) := by
  cases attached with
  | none => rfl
  | some o => exact f.send_attached o s

theorem length_parcels (attached : Option Offload) (s : Send) :
    (parcels attached s).length = (Event.send attached s).attempts := by
  cases attached with
  | none => rfl
  | some o =>
    show (o.parcels s).length = match o.replicas? s.bytes with
      | some targets => targets.length
      | none => 1
    unfold Offload.parcels
    cases o.replicas? s.bytes with
    | none => rfl
    | some targets => exact List.length_mapIdx

/-- A delivery is counted as delivered, and the network routes its key to an inbox. -/
def CountsFor (f : Fabric) (p : Parcel) (i : ℕ) : Prop :=
  f.routes.get? p.key = some i ∧ (f.deliver p.key p.bytes).delivered = f.delivered + 1

instance (f : Fabric) (p : Parcel) (i : ℕ) : Decidable (f.CountsFor p i) :=
  inferInstanceAs (Decidable (_ ∧ _))

/-- Of some parcels, the units that are counted as delivered to an inbox. -/
def countedFor (i : ℕ) : Fabric → List Parcel → List Bytes
  | _, [] => []
  | f, p :: rest =>
    (if f.CountsFor p i then (f.inboxes[i]?.map (·.unitOf p.bytes)).toList else []) ++
      countedFor i (f.deliver p.key p.bytes) rest

/-- The units that an event delivers to an inbox, as the network counts. -/
def delivers (f : Fabric) (i : ℕ) : Event → List Bytes
  | .send attached s => countedFor i f (parcels attached s)
  | _ => []

/-- The units that the endpoint of an inbox gets in an event. -/
def takes (f : Fabric) (i : ℕ) : Event → List Bytes
  | .poll j => if j = i then (f.take j).1.toList else []
  | .receive j => if j = i then (f.receive j).1.unit?.toList else []
  | _ => []

/-- The units that still wait for an endpoint. -/
def waiting (f : Fabric) (i : ℕ) : List Bytes := (f.inboxes[i]?.map (·.queue)).getD []

/-- If an event throws an endpoint away, the units that still wait for it then. -/
def discards (f : Fabric) (i : ℕ) : Event → Option (List Bytes)
  | .drop j => if j = i then some (f.waiting i) else none
  | _ => none

theorem discards_of_ne {f : Fabric} {i : ℕ} {event : Event} (h : event ≠ .drop i) :
    f.discards i event = none := by
  cases event with
  | drop j => exact if_neg fun hj ↦ h (congrArg Event.drop hj)
  | register _ | send _ _ | disconnect _ _ | poll _ | receive _ => rfl

theorem waiting_eq {f : Fabric} {i : ℕ} {box : Inbox} (hbox : f.inboxes[i]? = some box) :
    f.waiting i = box.queue := by
  unfold waiting
  rw [hbox]
  rfl

end Fabric

/-! ### What an event does to an inbox -/

namespace Inbox

/-- Units are put into an inbox. If there are any, they fit and the endpoint is there. -/
structure Gets (box : Inbox) (units : List Bytes) (box' : Inbox) : Prop where
  eq : box' = { box with queue := box.queue ++ units }
  fits : units ≠ [] → box.held = true ∧ box.queue.length + units.length ≤ box.capacity

theorem Gets.refl (box : Inbox) : box.Gets [] box :=
  ⟨by rw [List.append_nil], fun hsome ↦ absurd rfl hsome⟩

theorem Gets.trans {box middle last : Inbox} {units more : List Bytes}
    (hfirst : box.Gets units middle) (hsecond : middle.Gets more last) :
    box.Gets (units ++ more) last := by
  obtain ⟨rfl, hfits⟩ := hfirst
  obtain ⟨rfl, hmore⟩ := hsecond
  refine ⟨by rw [List.append_assoc], fun hsome ↦ ?_⟩
  by_cases hnil : more = []
  · subst hnil
    rw [List.append_nil] at hsome ⊢
    exact hfits hsome
  · obtain ⟨hheld, hroom⟩ := hmore hnil
    refine ⟨hheld, ?_⟩
    rw [List.length_append] at hroom ⊢
    rwa [Nat.add_assoc] at hroom

/-- What an event does to an inbox: which units it puts in, which one it takes out, and which ones
go with the endpoint if that goes. -/
inductive Moves (box : Inbox) : List Bytes → List Bytes → Option (List Bytes) → Inbox → Prop
  | gets {units : List Bytes} {box' : Inbox} (hgets : box.Gets units box') :
    Moves box units [] none box'
  | gives (unit : Bytes) (rest : List Bytes) (hqueue : box.queue = unit :: rest) :
    Moves box [] [unit] none { box with queue := rest }
  | closes : Moves box [] [] (some box.queue) { box with held := false, queue := [] }

theorem Moves.rests (box : Inbox) : box.Moves [] [] none box := .gets (.refl box)

theorem Moves.held_eq {box box' : Inbox} {units got : List Bytes}
    (hmoves : box.Moves units got none box') : box'.held = box.held := by
  cases hmoves with
  | gets hgets => rw [hgets.eq]
  | gives _ _ _ => rfl

theorem accepts_iff {box : Inbox} :
    box.accepts = true ↔ box.held = true ∧ box.queue.length < box.capacity := by
  unfold accepts
  rw [Bool.and_eq_true, decide_eq_true_eq]

end Inbox

namespace Fabric

variable {f : Fabric} {i : ℕ} {box : Inbox}

theorem moves_take (j : ℕ) (hbox : f.inboxes[i]? = some box) :
    ∃ box', (f.take j).2.inboxes[i]? = some box' ∧
      box.Moves [] (if j = i then (f.take j).1.toList else []) none box' := by
  by_cases hj : j = i
  · subst hj
    rw [if_pos rfl]
    unfold take
    rw [hbox]
    obtain ⟨key, capacity, frames, queue, held⟩ := box
    cases queue with
    | nil => exact ⟨_, hbox, .rests _⟩
    | cons unit rest =>
      refine ⟨_, ?_, .gives unit rest rfl⟩
      show (f.inboxes.modify j _)[j]? = _
      rw [List.getElem?_modify_eq, hbox]
      rfl
  · rw [if_neg hj]
    refine ⟨box, ?_, .rests box⟩
    unfold take
    split
    · exact (List.getElem?_modify_ne _ _ hj).trans hbox
    · exact hbox

theorem snd_receive (f : Fabric) (j : ℕ) : (f.receive j).2 = (f.take j).2 := by
  unfold receive
  split <;> next h => exact (congrArg Prod.snd h).symm

theorem unit?_receive (f : Fabric) (j : ℕ) : (f.receive j).1.unit? = (f.take j).1 := by
  unfold receive
  split
  next h => exact (congrArg Prod.fst h).symm
  next h =>
    rw [h]
    dsimp only
    split <;> rfl

/-- Waiting for a unit does what looking for one does. -/
theorem step_receive (f : Fabric) (j : ℕ) : f.step (.receive j) = f.step (.poll j) :=
  f.snd_receive j

theorem takes_receive (f : Fabric) (i j : ℕ) : f.takes i (.receive j) = f.takes i (.poll j) := by
  show (if j = i then (f.receive j).1.unit?.toList else []) = _
  rw [unit?_receive]
  rfl

theorem deliver_of_taker {key : String} {j : ℕ} (h : f.taker? key = some j) (bytes : Bytes) :
    f.deliver key bytes =
      { f with inboxes := f.inboxes.modify j (·.push bytes), delivered := f.delivered + 1 } := by
  unfold deliver
  rw [h]

theorem deliver_of_no_taker {key : String} (h : f.taker? key = none) (bytes : Bytes) :
    f.deliver key bytes = { f with dropped := f.dropped + 1 } := by
  unfold deliver
  rw [h]

theorem countsFor_iff (p : Parcel) : f.CountsFor p i ↔ f.taker? p.key = some i := by
  unfold CountsFor
  cases htaker : f.taker? p.key with
  | none =>
    rw [deliver_of_no_taker htaker]
    simp
  | some j =>
    rw [deliver_of_taker htaker, taker?_eq_some htaker]
    simp

theorem accepts_of_taker {key : String} (h : f.taker? key = some i)
    (hbox : f.inboxes[i]? = some box) : box.accepts = true := by
  have hroute := taker?_eq_some h
  unfold taker? at h
  rw [hroute] at h
  simp only [hbox] at h
  split at h
  · exact absurd h (by simp)
  · split at h
    next hroom => exact hroom
    · exact absurd h (by simp)

/-- One parcel puts in one unit, or nothing. -/
theorem gets_deliver (p : Parcel) (hbox : f.inboxes[i]? = some box) :
    ∃ box', (f.deliver p.key p.bytes).inboxes[i]? = some box' ∧
      box.Gets (if f.CountsFor p i then [box.unitOf p.bytes] else []) box' := by
  by_cases hcounts : f.CountsFor p i
  · rw [if_pos hcounts]
    have htaker := (countsFor_iff p).mp hcounts
    obtain ⟨hheld, hroom⟩ := Inbox.accepts_iff.mp (accepts_of_taker htaker hbox)
    refine ⟨box.push p.bytes, ?_, rfl, fun _ ↦ ⟨hheld, hroom⟩⟩
    rw [deliver_of_taker htaker]
    show (f.inboxes.modify i _)[i]? = _
    rw [List.getElem?_modify_eq, hbox]
    rfl
  · rw [if_neg hcounts]
    refine ⟨box, ?_, .refl box⟩
    cases htaker : f.taker? p.key with
    | none =>
      rw [deliver_of_no_taker htaker]
      exact hbox
    | some j =>
      have hj : j ≠ i := by
        rintro rfl
        exact hcounts ((countsFor_iff p).mpr htaker)
      rw [deliver_of_taker htaker]
      exact (List.getElem?_modify_ne _ _ hj).trans hbox

theorem gets_deliverAll (parcels : List Parcel) (hbox : f.inboxes[i]? = some box) :
    ∃ box', (f.deliverAll parcels).inboxes[i]? = some box' ∧
      box.Gets (countedFor i f parcels) box' := by
  induction parcels generalizing f box with
  | nil => exact ⟨box, hbox, .refl box⟩
  | cons p rest ih =>
    obtain ⟨middle, hmiddle, hfirst⟩ := gets_deliver p hbox
    obtain ⟨last, hlast, hrest⟩ := ih hmiddle
    refine ⟨last, hlast, ?_⟩
    rw [countedFor, hbox]
    exact hfirst.trans hrest

/-- Every event moves every inbox, though most of them leave it as it is. -/
theorem moves_step (event : Event) (hbox : f.inboxes[i]? = some box) :
    ∃ box', (f.step event).inboxes[i]? = some box' ∧
      box.Moves (f.delivers i event) (f.takes i event) (f.discards i event) box' := by
  cases event with
  | register e =>
    refine ⟨box, ?_, .rests box⟩
    have hi := (List.getElem?_eq_some_iff.mp hbox).1
    rw [step_register]
    split
    · exact hbox
    · exact (List.getElem?_append_left hi).trans hbox
  | send attached s =>
    show ∃ box', (f.send attached s).inboxes[i]? = some box' ∧ _
    rw [send_eq]
    obtain ⟨box', hbox', hgets⟩ := gets_deliverAll (parcels attached s) hbox
    exact ⟨box', hbox', .gets hgets⟩
  | disconnect addr port => exact ⟨box, hbox, .rests box⟩
  | poll j => exact moves_take j hbox
  | receive j =>
    rw [step_receive, takes_receive]
    exact moves_take j hbox
  | drop j =>
    show ∃ box', (f.inboxes.modify j _)[i]? = some box' ∧
      box.Moves [] [] (if j = i then some (f.waiting i) else none) box'
    by_cases hj : j = i
    · subst hj
      rw [if_pos rfl, waiting_eq hbox]
      exact ⟨_, by rw [List.getElem?_modify_eq, hbox]; rfl, .closes⟩
    · rw [if_neg hj]
      exact ⟨box, (List.getElem?_modify_ne _ _ hj).trans hbox, .rests box⟩

end Fabric

end Gossip
