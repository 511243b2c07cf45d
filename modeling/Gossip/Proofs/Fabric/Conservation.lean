import Gossip.Proofs.Fabric.Endpoints
import Mathlib.Algebra.BigOperators.Group.Finset.Basic
import Mathlib.Algebra.Ring.Nat

/-!
The network in memory accounts for every packet. Every delivery that is tried is counted once, as
delivered or as dropped, and each one that is counted as delivered belongs to one endpoint. What an
endpoint has taken, what was thrown away together with it, and what still waits for it are the units
delivered to it, in their order. An endpoint that has been taken off the network or replaced gets
all that waits for it before it is told so.
-/

set_option autoImplicit false
set_option relaxedAutoImplicit false

namespace Gossip

namespace Fabric

/-- The deliveries that have been tried. -/
def attempts (events : List Event) : ℕ := (events.map Event.attempts).sum

/-- What each event of a run shows, one after the other. -/
def along (what : Fabric → Event → List Bytes) : Fabric → List Event → List Bytes
  | _, [] => []
  | f, event :: rest => what f event ++ along what (f.step event) rest

/-- The units that are counted as delivered to an endpoint, in their order. -/
def deliveredTo (f : Fabric) (i : ℕ) (events : List Event) : List Bytes :=
  along (fun f event ↦ f.delivers i event) f events

/-- The units that an endpoint has taken, in their order. -/
def takenBy (f : Fabric) (i : ℕ) (events : List Event) : List Bytes :=
  along (fun f event ↦ f.takes i event) f events

/-- The units that were thrown away together with an endpoint. -/
def discardedWith (f : Fabric) (i : ℕ) (events : List Event) : List Bytes :=
  along (fun f event ↦ (f.discards i event).getD []) f events

variable {f : Fabric} {i : ℕ} {box : Inbox}

theorem along_concat (what : Fabric → Event → List Bytes) (f : Fabric) (events : List Event)
    (event : Event) :
    along what f (events ++ [event]) = along what f events ++ what (f.run events) event := by
  induction events generalizing f with
  | nil => exact List.append_nil _
  | cons first rest ih =>
    rw [List.cons_append, along, ih, along, List.append_assoc]
    rfl

theorem deliveredTo_concat (f : Fabric) (i : ℕ) (events : List Event) (event : Event) :
    f.deliveredTo i (events ++ [event]) =
      f.deliveredTo i events ++ (f.run events).delivers i event :=
  along_concat _ f events event

theorem takenBy_concat (f : Fabric) (i : ℕ) (events : List Event) (event : Event) :
    f.takenBy i (events ++ [event]) = f.takenBy i events ++ (f.run events).takes i event :=
  along_concat _ f events event

theorem discardedWith_concat (f : Fabric) (i : ℕ) (events : List Event) (event : Event) :
    f.discardedWith i (events ++ [event]) =
      f.discardedWith i events ++ ((f.run events).discards i event).getD [] :=
  along_concat _ f events event

/-! ### Counters -/

theorem counted_deliver (f : Fabric) (key : String) (bytes : Bytes) :
    (f.deliver key bytes).delivered + (f.deliver key bytes).dropped =
      f.delivered + f.dropped + 1 := by
  cases htaker : f.taker? key with
  | none => rw [deliver_of_no_taker htaker, Nat.add_assoc]
  | some i => rw [deliver_of_taker htaker, Nat.add_right_comm]

theorem counted_deliverAll (f : Fabric) (parcels : List Parcel) :
    (f.deliverAll parcels).delivered + (f.deliverAll parcels).dropped =
      f.delivered + f.dropped + parcels.length := by
  induction parcels generalizing f with
  | nil => rfl
  | cons p rest ih =>
    have hrest := ih (f.deliver p.key p.bytes)
    rw [counted_deliver] at hrest
    rw [List.length_cons, Nat.add_comm rest.length, ← Nat.add_assoc]
    exact hrest

theorem delivered_take (f : Fabric) (j : ℕ) : (f.take j).2.delivered = f.delivered := by
  unfold take
  split <;> rfl

theorem dropped_take (f : Fabric) (j : ℕ) : (f.take j).2.dropped = f.dropped := by
  unfold take
  split <;> rfl

theorem counted_step (f : Fabric) (event : Event) :
    (f.step event).delivered + (f.step event).dropped =
      f.delivered + f.dropped + event.attempts := by
  cases event with
  | register e =>
    rw [step_register]
    split <;> rfl
  | send attached s =>
    show (f.send attached s).delivered + (f.send attached s).dropped = _
    rw [send_eq, counted_deliverAll, length_parcels]
  | disconnect addr port => rfl
  | poll j =>
    show (f.take j).2.delivered + (f.take j).2.dropped = f.delivered + f.dropped
    rw [delivered_take, dropped_take]
  | receive j =>
    show (f.step (.receive j)).delivered + (f.step (.receive j)).dropped = f.delivered + f.dropped
    rw [step_receive]
    show (f.take j).2.delivered + (f.take j).2.dropped = f.delivered + f.dropped
    rw [delivered_take, dropped_take]
  | drop j => rfl

theorem counted_run (f : Fabric) (events : List Event) :
    (f.run events).delivered + (f.run events).dropped =
      f.delivered + f.dropped + attempts events := by
  induction events using List.reverseRecOn with
  | nil => rfl
  | append_singleton events event ih =>
    rw [run_concat, counted_step, ih, Nat.add_assoc]
    unfold attempts
    rw [List.map_append, List.sum_append]
    rfl

/-! ### What each endpoint has got -/

end Fabric

namespace Inbox

/-- The accounts of an endpoint are settled: what it has taken, what was thrown away with it and
what waits for it are what it was delivered. Nothing is thrown away before the endpoint is. -/
structure Settled (box : Inbox) (delivered taken discarded : List Bytes) : Prop where
  balance : taken ++ discarded ++ box.queue = delivered
  kept : box.held = true → discarded = []
  closed : box.held = false → box.queue = []
  fits : box.queue.length ≤ box.capacity

theorem Moves.settled {box box' : Inbox} {delivered taken discarded units got : List Bytes}
    {gone : Option (List Bytes)} (hmoves : box.Moves units got gone box')
    (hsettled : box.Settled delivered taken discarded) :
    box'.Settled (delivered ++ units) (taken ++ got) (discarded ++ gone.getD []) := by
  obtain ⟨hbalance, hkept, hclosed, hfits⟩ := hsettled
  cases hmoves with
  | gets hgets =>
    obtain ⟨rfl, hroom⟩ := hgets
    rw [List.append_nil, Option.getD_none, List.append_nil]
    refine ⟨?_, hkept, fun hgone ↦ ?_, ?_⟩
    · rw [← hbalance, List.append_assoc _ box.queue]
    · have hnone : units = [] := by
        by_contra hsome
        exact absurd ((hroom hsome).1.symm.trans hgone) (by decide)
      rw [hnone, List.append_nil]
      exact hclosed hgone
    · by_cases hsome : units = []
      · rw [hsome, List.append_nil]
        exact hfits
      · rw [List.length_append]
        exact (hroom hsome).2
  | gives unit rest hqueue =>
    have hheld : box.held = true := by
      by_contra hgone
      exact absurd (hqueue.symm.trans (hclosed (Bool.eq_false_iff.mpr hgone))) (by simp)
    have hnone := hkept hheld
    refine ⟨?_, fun _ ↦ ?_, fun hgone ↦ absurd (hheld.symm.trans hgone) (by decide), ?_⟩
    · rw [List.append_nil, Option.getD_none, List.append_nil, ← hbalance, hnone, hqueue]
      simp
    · rw [Option.getD_none, List.append_nil]
      exact hnone
    · rw [hqueue] at hfits
      exact Nat.le_of_succ_le hfits
  | closes =>
    refine ⟨?_, fun hheld ↦ absurd hheld (by simp), fun _ ↦ rfl, Nat.zero_le _⟩
    rw [List.append_nil, List.append_nil, List.append_nil, Option.getD_some, ← List.append_assoc]
    exact hbalance

end Inbox

theorem Endpoint.settled_inbox (e : Endpoint) : e.inbox.Settled [] [] [] :=
  ⟨rfl, fun _ ↦ rfl, fun hgone ↦ absurd hgone (by simp [Endpoint.inbox]), Nat.zero_le _⟩

namespace Fabric

variable {f : Fabric} {i : ℕ} {box : Inbox}

/-- Nothing is delivered to a number that no endpoint has. -/
theorem countedFor_of_none {parcels : List Parcel} (hnone : f.inboxes[i]? = none) :
    countedFor i f parcels = [] := by
  induction parcels generalizing f with
  | nil => rfl
  | cons p rest ih =>
    have hstill : (f.deliver p.key p.bytes).inboxes[i]? = none := by
      rw [List.getElem?_eq_none_iff, length_inboxes_deliver]
      exact List.getElem?_eq_none_iff.mp hnone
    rw [countedFor, ih hstill, hnone]
    simp

theorem delivers_of_none (event : Event) (hnone : f.inboxes[i]? = none) :
    f.delivers i event = [] := by
  cases event with
  | send attached s => exact countedFor_of_none hnone
  | register _ | disconnect _ _ | poll _ | receive _ | drop _ => rfl

theorem takes_of_none (event : Event) (hnone : f.inboxes[i]? = none) : f.takes i event = [] := by
  have hpoll (j : ℕ) : f.takes i (.poll j) = [] := by
    show (if j = i then (f.take j).1.toList else []) = []
    split
    next hj =>
      subst hj
      rw [take_of_none hnone]
      rfl
    · rfl
  cases event with
  | poll j => exact hpoll j
  | receive j => exact (takes_receive f i j).trans (hpoll j)
  | register _ | disconnect _ _ | send _ _ | drop _ => rfl

theorem discards_of_none (event : Event) (hnone : f.inboxes[i]? = none) :
    (f.discards i event).getD [] = [] := by
  cases event with
  | drop j =>
    unfold discards waiting
    rw [hnone]
    dsimp only
    split <;> rfl
  | register _ | disconnect _ _ | send _ _ | poll _ | receive _ => rfl

theorem inboxes_of_step_none {event : Event} (hnone : (f.step event).inboxes[i]? = none) :
    f.inboxes[i]? = none := by
  cases hbox : f.inboxes[i]? with
  | none => rfl
  | some box =>
    obtain ⟨box', hbox', -⟩ := moves_step event hbox
    exact absurd (hnone.symm.trans hbox') (by simp)

section Runs

variable {rate : Rate} {draws : ℕ → Bool}

/-- Nothing has happened to an endpoint that has not been registered. -/
theorem run_of_none {events : List Event}
    (hnone : ((opened rate draws).run events).inboxes[i]? = none) :
    (opened rate draws).deliveredTo i events = [] ∧ (opened rate draws).takenBy i events = [] ∧
      (opened rate draws).discardedWith i events = [] := by
  induction events using List.reverseRecOn with
  | nil => exact ⟨rfl, rfl, rfl⟩
  | append_singleton events event ih =>
    rw [run_concat] at hnone
    have hbefore := inboxes_of_step_none hnone
    obtain ⟨hdelivered, htaken, hdiscarded⟩ := ih hbefore
    rw [deliveredTo_concat, takenBy_concat, discardedWith_concat, hdelivered, htaken, hdiscarded]
    exact ⟨delivers_of_none event hbefore, takes_of_none event hbefore,
      discards_of_none event hbefore⟩

theorem settled_run {events : List Event}
    (hbox : ((opened rate draws).run events).inboxes[i]? = some box) :
    box.Settled ((opened rate draws).deliveredTo i events) ((opened rate draws).takenBy i events)
      ((opened rate draws).discardedWith i events) := by
  induction events using List.reverseRecOn generalizing box with
  | nil => exact absurd hbox (by simp [opened, run])
  | append_singleton events event ih =>
    rw [run_concat] at hbox
    rw [deliveredTo_concat, takenBy_concat, discardedWith_concat]
    cases hbefore : ((opened rate draws).run events).inboxes[i]? with
    | some earlier =>
      obtain ⟨box', hbox', hmoves⟩ := moves_step event hbefore
      rw [Option.some.inj (hbox.symm.trans hbox')]
      exact hmoves.settled (ih hbefore)
    | none =>
      obtain ⟨hdelivered, htaken, hdiscarded⟩ := run_of_none hbefore
      obtain ⟨e, -, rfl⟩ := exists_opens_of_step hbefore hbox
      rw [hdelivered, htaken, hdiscarded, delivers_of_none event hbefore,
        takes_of_none event hbefore, discards_of_none event hbefore]
      exact e.settled_inbox

end Runs

/-! ### Shares in what has been delivered -/

theorem exists_inbox_of_taker {key : String} (h : f.taker? key = some i) :
    ∃ box, f.inboxes[i]? = some box := by
  cases hbox : f.inboxes[i]? with
  | some box => exact ⟨box, rfl⟩
  | none =>
    have hroute := taker?_eq_some h
    unfold taker? at h
    rw [hroute] at h
    simp [hbox] at h

/-- A delivery that is counted belongs to one endpoint. -/
theorem delivered_deliver {n : ℕ} (hn : f.inboxes.length ≤ n) (p : Parcel) :
    (f.deliver p.key p.bytes).delivered = f.delivered + ∑ i ∈ Finset.range n,
      (if f.CountsFor p i then (f.inboxes[i]?.map (·.unitOf p.bytes)).toList else []).length := by
  cases htaker : f.taker? p.key with
  | none =>
    have hnobody (i : ℕ) : ¬f.CountsFor p i := by
      rw [countsFor_iff, htaker]
      simp
    rw [deliver_of_no_taker htaker]
    simp [hnobody]
  | some j =>
    obtain ⟨box, hbox⟩ := exists_inbox_of_taker htaker
    have hj : j ∈ Finset.range n :=
      Finset.mem_range.mpr (Nat.lt_of_lt_of_le (List.getElem?_eq_some_iff.mp hbox).1 hn)
    have hcounts (i : ℕ) : f.CountsFor p i ↔ i = j := by
      rw [countsFor_iff, htaker, Option.some.injEq, eq_comm]
    rw [deliver_of_taker htaker, Finset.sum_eq_single_of_mem j hj]
    · rw [if_pos ((hcounts j).mpr rfl), hbox]
      rfl
    · intro i _ hi
      rw [if_neg fun h ↦ hi ((hcounts i).mp h)]
      rfl

theorem delivered_deliverAll {n : ℕ} (hn : f.inboxes.length ≤ n) (parcels : List Parcel) :
    (f.deliverAll parcels).delivered =
      f.delivered + ∑ i ∈ Finset.range n, (countedFor i f parcels).length := by
  induction parcels generalizing f with
  | nil => simp [deliverAll, countedFor]
  | cons p rest ih =>
    have hrest := ih (f := f.deliver p.key p.bytes) (by rwa [length_inboxes_deliver])
    rw [delivered_deliver hn p, Nat.add_assoc, ← Finset.sum_add_distrib] at hrest
    refine hrest.trans (congrArg _ (Finset.sum_congr rfl fun i _ ↦ ?_))
    rw [countedFor, List.length_append]

theorem delivered_step {n : ℕ} (hn : f.inboxes.length ≤ n) (event : Event) :
    (f.step event).delivered = f.delivered + ∑ i ∈ Finset.range n, (f.delivers i event).length := by
  have hstill {event : Event} (hsame : (f.step event).delivered = f.delivered)
      (hnothing : ∀ i, f.delivers i event = []) :
      (f.step event).delivered =
        f.delivered + ∑ i ∈ Finset.range n, (f.delivers i event).length := by
    rw [hsame, Finset.sum_eq_zero fun i _ ↦ by rw [hnothing]; rfl, Nat.add_zero]
  cases event with
  | register e =>
    refine hstill ?_ fun _ ↦ rfl
    rw [step_register]
    split <;> rfl
  | send attached s =>
    show (f.send attached s).delivered = _
    rw [send_eq]
    exact delivered_deliverAll hn _
  | disconnect addr port => exact hstill rfl fun _ ↦ rfl
  | poll j => exact hstill (f.delivered_take j) fun _ ↦ rfl
  | receive j =>
    refine hstill ?_ fun _ ↦ rfl
    rw [step_receive]
    exact f.delivered_take j
  | drop j => exact hstill rfl fun _ ↦ rfl

theorem delivered_run (rate : Rate) (draws : ℕ → Bool) {events : List Event} {n : ℕ}
    (hn : (endpoints events).length ≤ n) :
    ((opened rate draws).run events).delivered =
      ∑ i ∈ Finset.range n, ((opened rate draws).deliveredTo i events).length := by
  induction events using List.reverseRecOn with
  | nil => simp [opened, run, deliveredTo, along]
  | append_singleton events event ih =>
    have hbefore := (endpoints_length_le_concat events event).trans hn
    have hinboxes : ((opened rate draws).run events).inboxes.length ≤ n := by
      rwa [length_inboxes_run]
    rw [run_concat, delivered_step hinboxes, ih hbefore, ← Finset.sum_add_distrib]
    refine Finset.sum_congr rfl fun i _ ↦ ?_
    rw [deliveredTo_concat, List.length_append]

/-! ### The accounts of the network -/

theorem discardedWith_eq_nil {events : List Event} (h : .drop i ∉ events) :
    f.discardedWith i events = [] := by
  induction events using List.reverseRecOn with
  | nil => rfl
  | append_singleton events event ih =>
    rw [List.mem_append, not_or, List.mem_singleton, eq_comm] at h
    rw [discardedWith_concat, ih h.1, discards_of_ne h.2]
    rfl

/-- What the network owes to an endpoint after a run: what the endpoint has taken, what was thrown
away with it and what waits for it are the units delivered to it; no more waits than there is room
for; a packet that comes next is delivered to it exactly if that is its key, if the endpoint is on
the network and has room, and if the packet is not lost; and all that waits is got before the
endpoint is told to wait or that it is off the network. -/
structure Settles (f : Fabric) (events : List Event) (i : ℕ) (e : Endpoint) : Prop where
  balance : f.takenBy i events ++ f.discardedWith i events ++ (f.run events).waiting i =
    f.deliveredTo i events
  keeps : .drop i ∉ events → f.discardedWith i events = []
  fits : ((f.run events).waiting i).length ≤ max e.capacity 1
  counts : .drop i ∉ events → ∀ p, (f.run events).CountsFor p i ↔ (f.run events).loses = false ∧
    p.key = e.key ∧ ¬Removed events i ∧ ((f.run events).waiting i).length < max e.capacity 1
  removed : Removed events i → ∀ n, (f.run events).receipts i n =
    (((f.run events).waiting i).map Receipt.unit ++ List.replicate n Receipt.disconnected).take n
  present : ¬Removed events i → ∀ n, (f.run events).receipts i n =
    (((f.run events).waiting i).map Receipt.unit ++ List.replicate n Receipt.pending).take n

/-- After any run of a network every delivery that was tried is counted once, those that are counted
as delivered are shared out among the endpoints, and the accounts of every endpoint are settled. -/
theorem accounts_for_every_packet (rate : Rate) (draws : ℕ → Bool) (events : List Event) :
    ((opened rate draws).run events).delivered + ((opened rate draws).run events).dropped =
        attempts events ∧
      ((opened rate draws).run events).delivered = ∑ i ∈ Finset.range (endpoints events).length,
        ((opened rate draws).deliveredTo i events).length ∧
      ∀ i e, (endpoints events)[i]? = some e → (opened rate draws).Settles events i e := by
  refine ⟨?_, delivered_run rate draws (Nat.le_refl _), fun i e he ↦ ?_⟩
  · rw [counted_run]
    exact Nat.zero_add _
  · obtain ⟨box, hbox, hserves⟩ := exists_serves_run rate draws he
    have hsettled := settled_run hbox
    have hrouted := isRouted_run rate draws he
    refine ⟨?_, discardedWith_eq_nil, ?_, fun hdrop p ↦ countsFor_run he hdrop p,
      fun hremoved n ↦ ?_, fun hpresent n ↦ ?_⟩
    · rw [waiting_eq hbox]
      exact hsettled.balance
    · rw [waiting_eq hbox, ← hserves.capacity]
      exact hsettled.fits
    · have hgone : ((opened rate draws).run events).silence i = .disconnected :=
        if_neg fun hreached ↦ hrouted.mp hreached hremoved
      rw [receipts_eq, hgone]
    · have hreached : ((opened rate draws).run events).silence i = .pending :=
        if_pos (hrouted.mpr hpresent)
      rw [receipts_eq, hreached]

/-- An endpoint with room for one unit, to which two are sent before it is replaced. -/
def replacing : List Event :=
  [.register ⟨"10.0.0.1", 8000, 4, false⟩, .register ⟨"10.0.0.2", 8000, 0, false⟩,
    .send none ⟨"10.0.0.2", 8000, [0x31]⟩, .send none ⟨"10.0.0.2", 8000, [0x32]⟩,
    .register ⟨"10.0.0.2", 8000, 4, true⟩]

theorem accounts_for_packets_to_replaced :
    (endpoints replacing)[1]? = some ⟨"10.0.0.2", 8000, 0, false⟩ ∧ Removed replacing 1 ∧
      .drop 1 ∉ replacing ∧ attempts replacing = 2 ∧
      ((opened (.zero false) fun _ ↦ false).run replacing).receipts 1 2 =
        [.unit [0x31], .disconnected] := by
  have he : (endpoints replacing)[1]? = some ⟨"10.0.0.2", 8000, 0, false⟩ := rfl
  have hremoved : Removed replacing 1 :=
    ⟨replacing.take 4, _, [], rfl, _, he, _, rfl, rfl⟩
  have hwaiting : ((opened (.zero false) fun _ ↦ false).run replacing).waiting 1 = [[0x31]] := by
    decide +kernel
  have hsettles := (accounts_for_every_packet (.zero false) (fun _ ↦ false) replacing).2.2 1 _ he
  refine ⟨he, hremoved, by simp [replacing], rfl, ?_⟩
  rw [hsettles.removed hremoved 2, hwaiting]
  rfl

/-- An endpoint that is thrown away while a unit waits for it. -/
def leaving : List Event :=
  [.register ⟨"10.0.0.1", 8000, 4, false⟩, .register ⟨"10.0.0.2", 8000, 4, false⟩,
    .send none ⟨"10.0.0.2", 8000, [0x78]⟩, .drop 1]

/-- The unit that waited is counted as delivered, but it was not taken and waits no more. -/
theorem unit_lost_with_endpoint :
    (endpoints leaving)[1]? = some ⟨"10.0.0.2", 8000, 4, false⟩ ∧
      (opened (.zero false) fun _ ↦ false).takenBy 1 leaving ++
          ((opened (.zero false) fun _ ↦ false).run leaving).waiting 1 ≠
        (opened (.zero false) fun _ ↦ false).deliveredTo 1 leaving := by
  refine ⟨rfl, ?_⟩
  decide +kernel

end Fabric

end Gossip
