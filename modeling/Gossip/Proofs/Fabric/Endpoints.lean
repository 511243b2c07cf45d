import Gossip.Proofs.Fabric.Events
import Mathlib.Data.List.Induction

/-!
The endpoints of a network in memory. The number of an endpoint is its place among those that have
been registered, and its inbox keeps its key and its room. The network routes to it until it is
taken off the network or replaced; from then on it is told so when nothing waits for it any more,
and before that it is told to wait.
-/

set_option autoImplicit false
set_option relaxedAutoImplicit false

namespace Gossip

namespace Inbox

/-- An inbox is the one of an endpoint. -/
structure Serves (box : Inbox) (e : Endpoint) : Prop where
  key : box.key = e.key
  capacity : box.capacity = max e.capacity 1
  frames : box.frames = e.frames

theorem Moves.serves {box box' : Inbox} {units got : List Bytes} {gone : Option (List Bytes)}
    {e : Endpoint} (hmoves : box.Moves units got gone box') (hserves : box.Serves e) :
    box'.Serves e := by
  cases hmoves with
  | gets hgets => exact hgets.eq ▸ ⟨hserves.key, hserves.capacity, hserves.frames⟩
  | gives _ _ _ => exact ⟨hserves.key, hserves.capacity, hserves.frames⟩
  | closes => exact ⟨hserves.key, hserves.capacity, hserves.frames⟩

end Inbox

theorem Endpoint.serves_inbox (e : Endpoint) : e.inbox.Serves e := ⟨rfl, rfl, rfl⟩

namespace Fabric

/-- A network without endpoints, with a loss rate. -/
def opened (rate : Rate) (draws : ℕ → Bool) : Fabric := { rate, draws }

/-- The endpoints that have been registered, each in the place of its number. -/
def endpoints (events : List Event) : List Endpoint := events.filterMap Event.opens?

/-- An endpoint is taken off the network behind its registration, for good or by another endpoint
of its address. -/
def Removed (events : List Event) (i : ℕ) : Prop :=
  ∃ before event after, events = before ++ event :: after ∧
    ∃ e, (endpoints before)[i]? = some e ∧ event.Removes e.key

/-- What an endpoint is told that waits for units a number of times. -/
def receipts (f : Fabric) (i : ℕ) : ℕ → List Receipt
  | 0 => []
  | n + 1 => (f.receive i).1 :: receipts (f.receive i).2 i n

variable {f : Fabric} {i : ℕ} {box : Inbox}

theorem endpoints_concat (events : List Event) (event : Event) :
    endpoints (events ++ [event]) = endpoints events ++ event.opens?.toList := by
  unfold endpoints
  rw [List.filterMap_append]
  cases h : event.opens? <;> simp [h]

/-- An endpoint has been registered before the last event, or is registered by it. -/
theorem getElem?_endpoints_concat {events : List Event} {event : Event} {e : Endpoint}
    (he : (endpoints (events ++ [event]))[i]? = some e) :
    (endpoints events)[i]? = some e ∨ i = (endpoints events).length ∧ event.opens? = some e := by
  rw [endpoints_concat] at he
  by_cases hearlier : i < (endpoints events).length
  · rw [List.getElem?_append_left hearlier] at he
    exact Or.inl he
  · rw [List.getElem?_append_right (Nat.not_lt.mp hearlier)] at he
    refine Or.inr ?_
    cases hopens : event.opens? with
    | none =>
      rw [hopens] at he
      exact absurd he (by simp)
    | some e' =>
      rw [hopens, Option.toList_some, List.getElem?_singleton] at he
      split at he
      next hzero => exact ⟨by omega, he⟩
      · exact absurd he (by simp)

theorem endpoints_length_le_concat (events : List Event) (event : Event) :
    (endpoints events).length ≤ (endpoints (events ++ [event])).length := by
  rw [endpoints_concat, List.length_append]
  exact Nat.le_add_right _ _

/-! ### Numbers of endpoints -/

theorem step_of_opens {event : Event} {e : Endpoint} (h : event.opens? = some e) :
    f.step event = (f.register e.addr e.port e.capacity e.frames).2 := by
  cases event with
  | register e' =>
    unfold Event.opens? at h
    dsimp only at h
    split at h
    · exact absurd h (by simp)
    next hlimit => rw [step_register, if_neg hlimit, Option.some.inj h]
  | send _ _ | disconnect _ _ | poll _ | receive _ | drop _ =>
    exact absurd h (by simp [Event.opens?])

theorem inboxes_step_of_opens {event : Event} {e : Endpoint} (h : event.opens? = some e) :
    (f.step event).inboxes = f.inboxes ++ [e.inbox] := by
  rw [step_of_opens h]
  rfl

theorem length_inboxes_take (f : Fabric) (j : ℕ) :
    (f.take j).2.inboxes.length = f.inboxes.length := by
  unfold take
  split
  · exact List.length_modify _ _ _
  · rfl

theorem length_inboxes_step {event : Event} (h : event.opens? = none) :
    (f.step event).inboxes.length = f.inboxes.length := by
  cases event with
  | register e =>
    unfold Event.opens? at h
    dsimp only at h
    split at h
    next hlimit => rw [step_register, if_pos hlimit]
    · exact absurd h (by simp)
  | send attached s =>
    show (f.send attached s).inboxes.length = _
    rw [send_eq, length_inboxes_deliverAll]
  | disconnect addr port => rfl
  | poll j => exact f.length_inboxes_take j
  | receive j =>
    rw [step_receive]
    exact f.length_inboxes_take j
  | drop j => exact List.length_modify _ _ _

/-- An inbox that was not there before an event is that of the endpoint that the event registers. -/
theorem exists_opens_of_step {event : Event} (hnone : f.inboxes[i]? = none)
    (hbox : (f.step event).inboxes[i]? = some box) :
    ∃ e, event.opens? = some e ∧ box = e.inbox := by
  have hbeyond := List.getElem?_eq_none_iff.mp hnone
  have hwithin := (List.getElem?_eq_some_iff.mp hbox).1
  cases hopens : event.opens? with
  | none =>
    rw [length_inboxes_step hopens] at hwithin
    exact absurd hwithin (Nat.not_lt.mpr hbeyond)
  | some e =>
    rw [inboxes_step_of_opens hopens] at hwithin hbox
    have hi : i = f.inboxes.length := by
      rw [List.length_append] at hwithin
      exact Nat.le_antisymm (Nat.lt_succ_iff.mp hwithin) hbeyond
    refine ⟨e, rfl, ?_⟩
    rw [hi, List.getElem?_concat_length] at hbox
    exact (Option.some.inj hbox).symm

theorem length_inboxes_run (rate : Rate) (draws : ℕ → Bool) (events : List Event) :
    ((opened rate draws).run events).inboxes.length = (endpoints events).length := by
  induction events using List.reverseRecOn with
  | nil => rfl
  | append_singleton events event ih =>
    rw [run_concat, endpoints_concat, List.length_append, ← ih]
    cases h : event.opens? with
    | none => exact length_inboxes_step h
    | some e =>
      rw [inboxes_step_of_opens h, List.length_append]
      rfl

theorem exists_serves_run (rate : Rate) (draws : ℕ → Bool) {events : List Event} {e : Endpoint}
    (he : (endpoints events)[i]? = some e) :
    ∃ box, ((opened rate draws).run events).inboxes[i]? = some box ∧ box.Serves e := by
  induction events using List.reverseRecOn with
  | nil => exact absurd he (by simp [endpoints])
  | append_singleton events event ih =>
    rw [run_concat]
    rcases getElem?_endpoints_concat he with he | ⟨hi, hopens⟩
    · obtain ⟨box, hbox, hserves⟩ := ih he
      obtain ⟨box', hbox', hmoves⟩ := moves_step event hbox
      exact ⟨box', hbox', hmoves.serves hserves⟩
    · refine ⟨e.inbox, ?_, e.serves_inbox⟩
      rw [inboxes_step_of_opens hopens, hi, ← length_inboxes_run rate draws,
        List.getElem?_concat_length]

/-! ### Routes -/

theorem Sound.step (hsound : f.Sound) (event : Event) : (f.step event).Sound := by
  cases event with
  | register e =>
    rw [step_register]
    split
    · exact hsound
    · exact hsound.register e.addr e.port e.capacity e.frames
  | send attached s => exact hsound.send attached s
  | disconnect addr port => exact hsound.disconnect addr port
  | poll j => exact hsound.take j
  | receive j => exact hsound.receive j
  | drop j => exact hsound.drop j

theorem Sound.run (hsound : f.Sound) (events : List Event) : (f.run events).Sound := by
  induction events generalizing f with
  | nil => exact hsound
  | cons event rest ih => exact ih (hsound.step event)

theorem isRouted_iff (hsound : f.Sound) (hbox : f.inboxes[i]? = some box) :
    f.isRouted i = true ↔ f.routes.get? box.key = some i := by
  unfold isRouted
  rw [List.any_eq_true, Table.get?_eq_some_iff]
  constructor
  · rintro ⟨⟨key, j⟩, hmem, hj⟩
    obtain rfl : j = i := of_decide_eq_true hj
    rwa [hsound.key_eq (Table.get?_eq_some_iff.mpr hmem) hbox]
  · exact fun hmem ↦ ⟨_, hmem, decide_eq_true rfl⟩

theorem routes_take (f : Fabric) (j : ℕ) : (f.take j).2.routes = f.routes := by
  unfold take
  split <;> rfl

theorem not_removes {event : Event} {key : String} (h : event.opens? = none) :
    ¬∃ e, event.opens? = some e ∧ e.key = key := by
  rintro ⟨e, he, -⟩
  exact absurd (h.symm.trans he) (by simp)

/-- What an event does to the route to an inbox. -/
theorem get?_routes_step (event : Event) (hi : i < f.inboxes.length) (key : String) :
    (f.step event).routes.get? key = some i ↔ f.routes.get? key = some i ∧ ¬event.Removes key := by
  have hstays {event : Event} (hroutes : (f.step event).routes = f.routes)
      (hremains : ¬event.Removes key) :
      (f.step event).routes.get? key = some i ↔
        f.routes.get? key = some i ∧ ¬event.Removes key := by
    rw [hroutes]
    exact (and_iff_left hremains).symm
  cases event with
  | register e =>
    rw [step_register]
    split
    next hlimit =>
      have hopens : (Event.register e).opens? = none := if_pos hlimit
      exact (and_iff_left (not_removes hopens)).symm
    next hlimit =>
      have hremoves : (Event.register e).Removes key ↔ key = e.key := by
        show (∃ e', (Event.register e).opens? = some e' ∧ e'.key = key) ↔ _
        simp [Event.opens?, hlimit, eq_comm]
      rw [hremoves]
      show (f.routes.insert e.key f.inboxes.length).get? key = some i ↔ _
      by_cases hkey : key = e.key
      · rw [hkey, Table.get?_insert]
        simp [Nat.ne_of_gt hi]
      · rw [Table.get?_insert_of_ne _ _ hkey]
        exact (and_iff_left hkey).symm
  | send attached s =>
    refine hstays ?_ (not_removes rfl)
    show (f.send attached s).routes = f.routes
    rw [send_eq, routes_deliverAll]
  | disconnect addr port =>
    show (f.routes.erase (peerKey addr port)).get? key = some i ↔ _ ∧ ¬peerKey addr port = key
    rw [Table.get?_erase]
    by_cases hkey : key = peerKey addr port
    · simp [hkey]
    · rw [if_neg hkey]
      exact (and_iff_left fun h ↦ hkey h.symm).symm
  | poll j => exact hstays (f.routes_take j) (not_removes rfl)
  | receive j =>
    refine hstays ?_ (not_removes rfl)
    rw [step_receive]
    exact f.routes_take j
  | drop j => exact hstays rfl (not_removes rfl)

theorem removed_concat {events : List Event} {event : Event} :
    Removed (events ++ [event]) i ↔
      Removed events i ∨ ∃ e, (endpoints events)[i]? = some e ∧ event.Removes e.key := by
  constructor
  · rintro ⟨before, remover, after, hevents, hremoves⟩
    rcases List.eq_nil_or_concat after with rfl | ⟨after, last, rfl⟩
    · obtain ⟨rfl, hlast⟩ := List.append_inj' hevents rfl
      rw [List.singleton_inj.mp hlast]
      exact Or.inr hremoves
    · refine Or.inl ⟨before, remover, after, ?_, hremoves⟩
      rw [List.concat_eq_append, ← List.cons_append, ← List.append_assoc] at hevents
      exact (List.append_inj' hevents rfl).1
  · rintro (⟨before, remover, after, rfl, hremoves⟩ | hremoves)
    · exact ⟨before, remover, after ++ [event], by simp, hremoves⟩
    · exact ⟨events, event, [], rfl, hremoves⟩

theorem Removed.lt_length {events : List Event} (hremoved : Removed events i) :
    i < (endpoints events).length := by
  obtain ⟨before, remover, after, rfl, e, he, -⟩ := hremoved
  have hi := (List.getElem?_eq_some_iff.mp he).1
  unfold endpoints at hi ⊢
  rw [List.filterMap_append, List.length_append]
  exact Nat.lt_of_lt_of_le hi (Nat.le_add_right _ _)

theorem sound_opened (rate : Rate) (draws : ℕ → Bool) : (opened rate draws).Sound :=
  fun _ hmem ↦ absurd hmem List.not_mem_nil

/-- An endpoint is reached as long as it has not been taken off the network. -/
theorem isRouted_run (rate : Rate) (draws : ℕ → Bool) {events : List Event} {e : Endpoint}
    (he : (endpoints events)[i]? = some e) :
    ((opened rate draws).run events).isRouted i = true ↔ ¬Removed events i := by
  have hsound := sound_opened rate draws
  induction events using List.reverseRecOn with
  | nil => exact absurd he (by simp [endpoints])
  | append_singleton events event ih =>
    obtain ⟨box', hbox', hserves'⟩ := exists_serves_run rate draws he
    rw [isRouted_iff (hsound.run _) hbox', hserves'.key, run_concat, removed_concat]
    rcases getElem?_endpoints_concat he with he | ⟨hi, hopens⟩
    · obtain ⟨box, hbox, hserves⟩ := exists_serves_run rate draws he
      have hwithin := (List.getElem?_eq_some_iff.mp hbox).1
      have hbefore : ((opened rate draws).run events).routes.get? e.key = some i ↔
          ¬Removed events i := by
        rw [← hserves.key, ← isRouted_iff (hsound.run events) hbox]
        exact ih he
      rw [get?_routes_step event hwithin, hbefore, not_or, he]
      simp
    · have hnew : (endpoints events)[i]? = none :=
        List.getElem?_eq_none_iff.mpr (Nat.le_of_eq hi.symm)
      rw [step_of_opens hopens, hnew]
      refine ⟨fun _ ↦ ?_, fun _ ↦ ?_⟩
      · rintro (hremoved | ⟨_, hnone, -⟩)
        · exact Nat.ne_of_lt hremoved.lt_length hi
        · exact absurd hnone (by simp)
      · rw [hi, ← length_inboxes_run rate draws]
        exact Table.get?_insert _ _ _

/-! ### Deliveries -/

/-- An endpoint that has not been thrown away is still there. -/
theorem held_run {rate : Rate} {draws : ℕ → Bool} {events : List Event} (hdrop : .drop i ∉ events)
    (hbox : ((opened rate draws).run events).inboxes[i]? = some box) : box.held = true := by
  induction events using List.reverseRecOn generalizing box with
  | nil => exact absurd hbox (by simp [opened, run])
  | append_singleton events event ih =>
    rw [run_concat] at hbox
    rw [List.mem_append, not_or, List.mem_singleton, eq_comm] at hdrop
    cases hbefore : ((opened rate draws).run events).inboxes[i]? with
    | some earlier =>
      obtain ⟨box', hbox', hmoves⟩ := moves_step event hbefore
      rw [discards_of_ne hdrop.2] at hmoves
      rw [Option.some.inj (hbox.symm.trans hbox'), hmoves.held_eq]
      exact ih hdrop.1 hbefore
    | none =>
      obtain ⟨e, -, rfl⟩ := exists_opens_of_step hbefore hbox
      rfl

theorem countsFor_iff_of_box (hsound : f.Sound) (hbox : f.inboxes[i]? = some box) (p : Parcel) :
    f.CountsFor p i ↔ f.loses = false ∧ p.key = box.key ∧ f.isRouted i = true ∧
      box.accepts = true := by
  rw [countsFor_iff, isRouted_iff hsound hbox]
  constructor
  · intro htaker
    have hroute := taker?_eq_some htaker
    have hkey := hsound.key_eq hroute hbox
    refine ⟨?_, hkey.symm, hkey ▸ hroute, accepts_of_taker htaker hbox⟩
    by_contra hloses
    rw [Bool.not_eq_false] at hloses
    unfold taker? at htaker
    rw [if_pos hloses] at htaker
    exact absurd htaker (by simp)
  · rintro ⟨hloses, hkey, hroute, haccepts⟩
    unfold taker?
    rw [hloses, hkey, hroute]
    simp [hbox, haccepts]

theorem countsFor_run {rate : Rate} {draws : ℕ → Bool} {events : List Event} {e : Endpoint}
    (he : (endpoints events)[i]? = some e) (hdrop : .drop i ∉ events) (p : Parcel) :
    ((opened rate draws).run events).CountsFor p i ↔
      ((opened rate draws).run events).loses = false ∧ p.key = e.key ∧ ¬Removed events i ∧
        (((opened rate draws).run events).waiting i).length < max e.capacity 1 := by
  obtain ⟨box, hbox, hserves⟩ := exists_serves_run rate draws he
  rw [countsFor_iff_of_box ((sound_opened rate draws).run events) hbox, isRouted_run rate draws he,
    Inbox.accepts_iff, and_iff_right (held_run hdrop hbox), waiting_eq hbox, hserves.key,
    hserves.capacity]

/-! ### Receipts -/

theorem take_of_none (hnone : f.inboxes[i]? = none) : f.take i = (none, f) := by
  unfold take
  rw [hnone]

theorem waiting_take (f : Fabric) (i : ℕ) :
    (f.take i).1 = (f.waiting i).head? ∧ (f.take i).2.waiting i = (f.waiting i).tail := by
  cases hbox : f.inboxes[i]? with
  | none =>
    rw [take_of_none hbox]
    unfold waiting
    rw [hbox]
    exact ⟨rfl, rfl⟩
  | some box =>
    rw [waiting_eq hbox]
    obtain ⟨key, capacity, frames, queue, held⟩ := box
    unfold take
    rw [hbox]
    cases queue with
    | nil => exact ⟨rfl, waiting_eq hbox⟩
    | cons unit rest =>
      refine ⟨rfl, ?_⟩
      unfold waiting
      show ((f.inboxes.modify i _)[i]?.map _).getD [] = _
      rw [List.getElem?_modify_eq, hbox]
      rfl

/-- What an endpoint is told that finds nothing. -/
def silence (f : Fabric) (i : ℕ) : Receipt := if f.isRouted i then .pending else .disconnected

theorem fst_receive (f : Fabric) (i : ℕ) :
    (f.receive i).1 = ((f.waiting i).head?.map Receipt.unit).getD (f.silence i) := by
  rw [← (f.waiting_take i).1]
  unfold receive silence isRouted
  cases htaken : f.take i with
  | mk taken f' =>
    cases taken with
    | some unit => rfl
    | none =>
      have hroutes := f.routes_take i
      rw [htaken] at hroutes
      dsimp only at hroutes ⊢
      rw [hroutes]
      rfl

/-- All that waits is got before anything else is told. -/
theorem receipts_eq (f : Fabric) (i n : ℕ) :
    f.receipts i n =
      ((f.waiting i).map Receipt.unit ++ List.replicate n (f.silence i)).take n := by
  induction n generalizing f with
  | zero => exact List.take_zero.symm
  | succ n ih =>
    have hsilence : (f.receive i).2.silence i = f.silence i := by
      unfold silence isRouted
      rw [snd_receive, routes_take]
    rw [receipts, ih, hsilence, fst_receive, snd_receive, (f.waiting_take i).2]
    cases f.waiting i with
    | nil => simp [List.replicate_succ]
    | cons unit rest =>
      have henough : n ≤ (rest.map Receipt.unit ++ List.replicate n (f.silence i)).length := by
        simp
      rw [List.map_cons, List.cons_append, List.take_succ_cons, List.replicate_succ',
        ← List.append_assoc, List.take_append_of_le_length henough]
      rfl

end Fabric

end Gossip
