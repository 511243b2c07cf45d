import Gossip.Proofs.Delivery

/-!
Endpoints of the network in memory. A route leads to an inbox that was made for its key, whatever
has been registered, disconnected, sent, taken and dropped; so no inbox gets what is meant for
another key. On a network that loses nothing, an inbox with room takes what is sent to its key, and
no other inbox changes.
-/

set_option autoImplicit false
set_option relaxedAutoImplicit false

namespace Gossip

namespace Fabric

/-! ### Routes -/

/-- Every route leads to an inbox of its key. -/
def Sound (f : Fabric) : Prop :=
  ∀ e ∈ f.routes.entries, ∃ box, f.inboxes[e.2]? = some box ∧ box.key = e.1

theorem sound_empty : Sound {} := fun _ he ↦ absurd he List.not_mem_nil

namespace Sound

variable {f : Fabric}

theorem key_eq (hsound : f.Sound) {key : String} {i : ℕ} (h : f.routes.get? key = some i)
    {box : Inbox} (hbox : f.inboxes[i]? = some box) : box.key = key := by
  obtain ⟨other, hother, hkey⟩ := hsound _ (Table.mem_of_get? h)
  rw [hbox] at hother
  rw [Option.some.inj hother, hkey]

theorem register (hsound : f.Sound) (addr : String) (port : UInt16) (capacity : ℕ)
    (frames : Bool) : (f.register addr port capacity frames).2.Sound := by
  intro e he
  rcases Table.mem_putEntry he with rfl | he
  · exact ⟨{ key := peerKey addr port, capacity := max capacity 1, frames },
      List.getElem?_concat_length, rfl⟩
  · obtain ⟨box, hbox, hkey⟩ := hsound e he
    have hi := (List.getElem?_eq_some_iff.mp hbox).1
    exact ⟨box, (List.getElem?_append_left hi).trans hbox, hkey⟩

theorem openEndpoint (hsound : f.Sound) {addr : String} {port : UInt16} {capacity : ℕ}
    {frames : Bool} {i : ℕ} {f' : Fabric}
    (h : f.openEndpoint addr port capacity frames = .ok (i, f')) : f'.Sound := by
  unfold Fabric.openEndpoint at h
  split at h
  · exact absurd h (by simp)
  · have hregistered : (f.register addr port capacity frames).2 = f' :=
      congrArg Prod.snd (Except.ok.inj h)
    exact hregistered ▸ hsound.register addr port capacity frames

theorem disconnect (hsound : f.Sound) (addr : String) (port : UInt16) :
    (f.disconnect addr port).Sound :=
  fun e he ↦ hsound e (List.mem_filter.mp he).1

/-- Inboxes may change as long as their keys stay. -/
theorem modify (hsound : f.Sound) (i : ℕ) {change : Inbox → Inbox}
    (hkeys : ∀ box, (change box).key = box.key) :
    Sound { f with inboxes := f.inboxes.modify i change } := by
  intro e he
  obtain ⟨box, hbox, hkey⟩ := hsound e he
  refine ⟨if i = e.2 then change box else box, ?_, ?_⟩
  · show (f.inboxes.modify i change)[e.2]? = _
    rw [List.getElem?_modify, hbox]
    rfl
  · split
    · rw [hkeys, hkey]
    · exact hkey

theorem deliver (hsound : f.Sound) (key : String) (bytes : Bytes) :
    (f.deliver key bytes).Sound := by
  unfold Fabric.deliver
  split
  · exact hsound
  next i _ => exact hsound.modify i fun _ ↦ rfl

theorem deliverAll (hsound : f.Sound) (parcels : List Parcel) : (f.deliverAll parcels).Sound := by
  induction parcels generalizing f with
  | nil => exact hsound
  | cons p rest ih => exact ih (hsound.deliver p.key p.bytes)

theorem send (hsound : f.Sound) (attached : Option Offload) (s : Send) :
    (f.send attached s).Sound := by
  cases attached with
  | none => exact hsound.deliver s.key s.bytes
  | some o =>
    rw [send_attached]
    exact hsound.deliverAll _

theorem take (hsound : f.Sound) (i : ℕ) : (f.take i).2.Sound := by
  unfold Fabric.take
  split
  · exact hsound.modify i fun _ ↦ rfl
  · exact hsound

theorem receive (hsound : f.Sound) (i : ℕ) : (f.receive i).2.Sound := by
  have htaken := hsound.take i
  unfold Fabric.receive
  split
  next unit f' h => exact congrArg Prod.snd h ▸ htaken
  next f' h => exact congrArg Prod.snd h ▸ htaken

theorem takeAll (hsound : f.Sound) (i : ℕ) : (f.takeAll i).2.Sound :=
  hsound.modify i fun _ ↦ rfl

theorem drop (hsound : f.Sound) (i : ℕ) : (f.drop i).Sound := hsound.modify i fun _ ↦ rfl

end Sound

/-! ### Deliveries -/

section Deliveries

variable {f : Fabric}

theorem routes_deliver (f : Fabric) (key : String) (bytes : Bytes) :
    (f.deliver key bytes).routes = f.routes := by
  unfold deliver
  split <;> rfl

theorem rate_deliver (f : Fabric) (key : String) (bytes : Bytes) :
    (f.deliver key bytes).rate = f.rate := by
  unfold deliver
  split <;> rfl

theorem length_inboxes_deliver (f : Fabric) (key : String) (bytes : Bytes) :
    (f.deliver key bytes).inboxes.length = f.inboxes.length := by
  unfold deliver
  split
  · rfl
  · exact List.length_modify _ _ _

theorem taker?_eq_some {key : String} {i : ℕ} (h : f.taker? key = some i) :
    f.routes.get? key = some i := by
  unfold taker? at h
  split at h
  · exact absurd h (by simp)
  · split at h
    · exact absurd h (by simp)
    next j hroute =>
      split at h
      · exact absurd h (by simp)
      · split at h
        · rwa [hroute]
        · exact absurd h (by simp)

/-- What is sent to another key leaves an inbox alone. -/
theorem inboxes_deliver_of_ne {key : String} {i : ℕ} (h : f.routes.get? key ≠ some i)
    (bytes : Bytes) : (f.deliver key bytes).inboxes[i]? = f.inboxes[i]? := by
  unfold deliver
  split
  · rfl
  next j hj =>
    have hne : j ≠ i := by
      rintro rfl
      exact h (taker?_eq_some hj)
    exact List.getElem?_modify_ne _ _ hne

/-- Assumes: nothing is lost, and the inbox has room. -/
theorem inboxes_deliver (hlossless : ∃ negative, f.rate = .zero negative) {key : String} {i : ℕ}
    (hroute : f.routes.get? key = some i) {box : Inbox} (hbox : f.inboxes[i]? = some box)
    (hroom : box.accepts = true) (bytes : Bytes) :
    (f.deliver key bytes).inboxes[i]? = some (box.push bytes) := by
  obtain ⟨negative, hrate⟩ := hlossless
  have hkept : f.loses = false := by
    unfold loses
    rw [hrate]
  have htaken : f.taker? key = some i := by
    unfold taker?
    simp [hkept, hroute, hbox, hroom]
  unfold deliver
  rw [htaken]
  show (f.inboxes.modify i (·.push bytes))[i]? = _
  rw [List.getElem?_modify_eq, hbox]
  rfl

theorem routes_deliverAll (f : Fabric) (parcels : List Parcel) :
    (f.deliverAll parcels).routes = f.routes := by
  induction parcels generalizing f with
  | nil => rfl
  | cons p rest ih => exact (ih _).trans (f.routes_deliver p.key p.bytes)

theorem rate_deliverAll (f : Fabric) (parcels : List Parcel) :
    (f.deliverAll parcels).rate = f.rate := by
  induction parcels generalizing f with
  | nil => rfl
  | cons p rest ih => exact (ih _).trans (f.rate_deliver p.key p.bytes)

theorem length_inboxes_deliverAll (f : Fabric) (parcels : List Parcel) :
    (f.deliverAll parcels).inboxes.length = f.inboxes.length := by
  induction parcels generalizing f with
  | nil => rfl
  | cons p rest ih => exact (ih _).trans (f.length_inboxes_deliver p.key p.bytes)

theorem inboxes_deliverAll_of_ne {parcels : List Parcel} {i : ℕ}
    (h : ∀ p ∈ parcels, f.routes.get? p.key ≠ some i) :
    (f.deliverAll parcels).inboxes[i]? = f.inboxes[i]? := by
  induction parcels generalizing f with
  | nil => rfl
  | cons p rest ih =>
    have hfirst := inboxes_deliver_of_ne (h p List.mem_cons_self) p.bytes
    refine (ih fun q hq ↦ ?_).trans hfirst
    rw [routes_deliver]
    exact h q (List.mem_cons_of_mem _ hq)

end Deliveries

/-! ### Networks that take everything -/

/-- Nothing is lost, and every inbox that a route leads to has room. -/
structure Ready (f : Fabric) : Prop where
  sound : f.Sound
  lossless : ∃ negative, f.rate = .zero negative
  room : ∀ e ∈ f.routes.entries, ∀ box, f.inboxes[e.2]? = some box → box.accepts = true

namespace Ready

variable {f : Fabric}

theorem empty : Ready {} :=
  ⟨sound_empty, ⟨false, rfl⟩, fun _ he ↦ absurd he List.not_mem_nil⟩

theorem register (hready : f.Ready) (addr : String) (port : UInt16) (capacity : ℕ)
    (frames : Bool) : (f.register addr port capacity frames).2.Ready := by
  refine ⟨hready.sound.register addr port capacity frames, hready.lossless, fun e he box hbox ↦ ?_⟩
  rcases Table.mem_putEntry he with rfl | he
  · rw [← Option.some.inj (List.getElem?_concat_length.symm.trans hbox)]
    show decide (0 < max capacity 1) = true
    exact decide_eq_true (Nat.lt_of_lt_of_le Nat.one_pos (Nat.le_max_right _ _))
  · obtain ⟨old, hold, -⟩ := hready.sound e he
    have hi := (List.getElem?_eq_some_iff.mp hold).1
    exact hready.room e he box ((List.getElem?_append_left hi).symm.trans hbox)

/-- Of parcels to distinct keys, an inbox gets the one that is sent to its key. -/
theorem inboxes_deliverAll (hready : f.Ready) {parcels : List Parcel}
    (hnodup : (parcels.map Parcel.key).Nodup) {p : Parcel} (hp : p ∈ parcels) {i : ℕ}
    (hroute : f.routes.get? p.key = some i) {box : Inbox} (hbox : f.inboxes[i]? = some box) :
    (f.deliverAll parcels).inboxes[i]? = some (box.push p.bytes) := by
  obtain ⟨before, after, rfl⟩ := List.append_of_mem hp
  rw [List.map_append, List.map_cons, List.nodup_middle, List.nodup_cons, List.mem_append] at hnodup
  have hother {q : Parcel} (hq : q ∈ before ∨ q ∈ after) : f.routes.get? q.key ≠ some i := by
    intro hroute'
    have hsame : p.key = q.key :=
      (hready.sound.key_eq hroute hbox).symm.trans (hready.sound.key_eq hroute' hbox)
    refine hnodup.1 ?_
    rw [hsame]
    exact hq.imp List.mem_map_of_mem List.mem_map_of_mem
  have hbefore : (f.deliverAll before).inboxes[i]? = some box :=
    (inboxes_deliverAll_of_ne fun q hq ↦ hother (Or.inl hq)).trans hbox
  have htaken : ((f.deliverAll before).deliver p.key p.bytes).inboxes[i]? =
      some (box.push p.bytes) := by
    refine inboxes_deliver ?_ ?_ hbefore ?_ p.bytes
    · rw [rate_deliverAll]
      exact hready.lossless
    · rw [routes_deliverAll]
      exact hroute
    · exact hready.room _ (Table.mem_of_get? hroute) box hbox
  have hsplit : f.deliverAll (before ++ p :: after) =
      ((f.deliverAll before).deliver p.key p.bytes).deliverAll after :=
    f.deliverAll_append before (p :: after)
  rw [hsplit]
  refine (inboxes_deliverAll_of_ne fun q hq ↦ ?_).trans htaken
  rw [routes_deliver, routes_deliverAll]
  exact hother (Or.inr hq)

end Ready

end Fabric

end Gossip
