import Gossip.Proofs.Cluster

/-!
What a node does to the metadata it stores. Whatever it hears, it takes in alike: the metadata of a
swap, and that of a heartbeat that is an update, replaces what is stored if it is newer, and all
else leaves the store alone. Only publishing replaces what is stored without a comparison.
-/

set_option autoImplicit false
set_option relaxedAutoImplicit false

namespace Gossip

/-! ### News -/

/-- The metadata of a heartbeat that counts: that of an update. -/
def Heartbeat.news? (h : Heartbeat) : Option Metadata :=
  if h.isUpdate then some h.metadata else none

/-- The metadata of a message that counts. -/
def Message.news? : Message → Option Metadata
  | .heartbeat h => h.news?
  | .forward h _ => h.news?
  | .swapRequest swap => some swap.metadata
  | .swapResponse swap => some swap.metadata

theorem Message.news?_of_wave {message : Message} {h : Heartbeat}
    (hwave : message.wave? = some h) : message.news? = h.news? := by
  cases message with
  | heartbeat _ | forward _ _ =>
    cases hwave
    rfl
  | swapRequest _ | swapResponse _ => exact absurd hwave (by simp [Message.wave?])

namespace Metadata

/-- What is stored after news has been taken in, if there is any. -/
def learn (current : Metadata) (news : Option Metadata) : Metadata :=
  match news with
  | none => current
  | some m => (current.adopt m).1

variable {current m : Metadata}

theorem learn_of_newer (h : m.Newer current) : current.learn (some m) = m := by
  rw [learn, adopt, if_pos h]

theorem learn_of_not_newer (h : ¬m.Newer current) : current.learn (some m) = current := by
  rw [learn, adopt, if_neg h]

theorem learn_some (current m : Metadata) :
    current.learn (some m) = if m.Newer current then m else current := by
  by_cases h : m.Newer current
  · rw [learn_of_newer h, if_pos h]
  · rw [learn_of_not_newer h, if_neg h]

/-- Of a heartbeat, the metadata of an update that is newer is taken in. -/
theorem learn_news (current : Metadata) (h : Heartbeat) :
    current.learn h.news? =
      if h.isUpdate ∧ h.metadata.Newer current then h.metadata else current := by
  unfold Heartbeat.news?
  by_cases hupdate : h.isUpdate
  · rw [if_pos hupdate, learn_some]
    simp only [hupdate, true_and]
  · rw [if_neg hupdate, if_neg fun h ↦ hupdate h.1]
    rfl

theorem learn_eq_or (current : Metadata) (news : Option Metadata) :
    current.learn news = current ∨ news = some (current.learn news) := by
  cases news with
  | none => exact Or.inl rfl
  | some m =>
    by_cases h : m.Newer current
    · exact Or.inr (by rw [learn_of_newer h])
    · exact Or.inl (learn_of_not_newer h)

/-- A version never goes back. -/
theorem version_le_learn (current : Metadata) (news : Option Metadata) :
    current.version ≤ (current.learn news).version := by
  cases news with
  | none => exact Int64.le_refl _
  | some m =>
    by_cases h : m.Newer current
    · rw [learn_of_newer h]
      exact Int64.le_of_lt h
    · rw [learn_of_not_newer h]
      exact Int64.le_refl _

/-- What has been taken in is not newer than what is stored then. -/
theorem version_news_le_learn (current m : Metadata) :
    m.version ≤ (current.learn (some m)).version := by
  by_cases h : m.Newer current
  · rw [learn_of_newer h]
    exact Int64.le_refl _
  · rw [learn_of_not_newer h]
    exact Int64.not_lt.mp h

theorem learn_eq_news (h : current = m ∨ current.version < m.version) :
    current.learn (some m) = m := by
  rcases h with rfl | hlt
  · rcases current.learn_eq_or (some current) with hsame | hnews
    · exact hsame
    · exact (Option.some.inj hnews).symm
  · exact learn_of_newer hlt

theorem learn_eq_self {news : Option Metadata}
    (h : ∀ m, news = some m → m = current ∨ m.version < current.version) :
    current.learn news = current := by
  cases news with
  | none => rfl
  | some m =>
    rcases h m rfl with rfl | hlt
    · exact learn_eq_news (Or.inl rfl)
    · exact learn_of_not_newer (Int64.not_lt.mpr (Int64.le_of_lt hlt))

end Metadata

/-! ### What the operations of a node store -/

namespace Node

section Store

variable {ω : Type} (link : Link ω) (node : Node)

theorem adopt_node (m : Metadata) (w : ω) :
    (node.adopt link m w).2.1 = { node with metadata := node.metadata.learn (some m) } := by
  unfold adopt Metadata.adopt
  by_cases h : m.Newer node.metadata
  · rw [if_pos h, Metadata.learn_of_newer h]
  · rw [if_neg h, Metadata.learn_of_not_newer h]

theorem metadata_adopt (m : Metadata) (w : ω) :
    (node.adopt link m w).2.1.metadata = node.metadata.learn (some m) :=
  congrArg Node.metadata (node.adopt_node link m w)

theorem metadata_takeUpdate (h : Heartbeat) (w : ω) :
    (node.takeUpdate link h w).1.metadata = node.metadata.learn h.news? := by
  unfold takeUpdate Heartbeat.news?
  by_cases hupdate : h.isUpdate
  · rw [if_pos hupdate, if_pos hupdate]
    exact node.metadata_adopt link h.metadata w
  · rw [if_neg hupdate, if_neg hupdate]
    rfl

/-- Of a node that compares, nothing but the metadata changes. -/
theorem compareSwap_node (swap : Swap) (isRequest : Bool) (w : ω) :
    (node.compareSwap link swap isRequest w).2.1 =
      { node with metadata := node.metadata.learn (some swap.metadata) } := by
  unfold compareSwap
  by_cases hnewer : swap.metadata.Newer node.metadata
  · rw [if_pos hnewer]
    exact node.adopt_node link swap.metadata w
  · rw [if_neg hnewer, Metadata.learn_of_not_newer hnewer]
    split <;> rfl

theorem metadata_compareSwap (swap : Swap) (isRequest : Bool) (w : ω) :
    (node.compareSwap link swap isRequest w).2.1.metadata =
      node.metadata.learn (some swap.metadata) :=
  congrArg Node.metadata (node.compareSwap_node link swap isRequest w)

theorem metadata_spread (h : Heartbeat) (targets : List Member) (w : ω) :
    (node.spread link h targets w).2.1.metadata = node.metadata := by
  unfold spread
  split <;> rfl

variable (moment : Moment)

theorem metadata_broadcast (h : Heartbeat) (w : ω) :
    (node.broadcast link moment h w).2.1.metadata = node.metadata := by
  rw [broadcast_eq]
  split
  · rfl
  · exact metadata_spread link _ _ _ w

theorem metadata_initiate (w : ω) :
    (node.initiate link moment w).2.1.metadata = node.metadata := by
  unfold initiate
  dsimp only
  split <;> rfl

/-- However news comes, it is compared with what is stored and with nothing else. -/
theorem metadata_receive (message : Message) (w : ω) :
    (node.receive link moment message w).1.metadata = node.metadata.learn message.news? := by
  cases hwave : message.wave? with
  | some h =>
    rw [node.receive_of_wave link moment hwave, receiveHeartbeat_eq, metadata_broadcast,
      Message.news?_of_wave hwave]
    exact node.metadata_takeUpdate link h w
  | none =>
    cases message with
    | heartbeat _ | forward _ _ => exact absurd hwave (by simp [Message.wave?])
    | swapRequest swap | swapResponse swap => exact node.metadata_compareSwap link swap _ w

theorem metadata_handle (unit : Bytes) (w : ω) :
    (node.handle link moment unit w).1.metadata =
      node.metadata.learn ((node.read? unit).bind Message.news?) := by
  unfold handle
  cases node.read? unit with
  | none => rfl
  | some message => exact node.metadata_receive link moment message w

/-- A heartbeat that cannot be stored as seen now has been taken in before. -/
theorem metadata_receiveUntimed (message : Message) (w : ω) :
    (node.receiveUntimed link message w).2.1.metadata = node.metadata.learn message.news? := by
  cases message with
  | heartbeat h | forward h _ => exact node.metadata_takeUpdate link h w
  | swapRequest swap | swapResponse swap => exact node.metadata_compareSwap link swap _ w

theorem metadata_tryHandle (clock : Option Moment) (unit : Bytes) (w : ω) :
    (node.tryHandle link clock unit w).2.1.metadata =
      node.metadata.learn ((node.read? unit).bind Message.news?) := by
  cases clock with
  | some moment => exact node.metadata_handle link moment unit w
  | none =>
    unfold tryHandle
    cases node.read? unit with
    | none => rfl
    | some message => exact node.metadata_receiveUntimed link message w

theorem metadata_beat (w : ω) : (node.beat link moment w).1.metadata = node.metadata := by
  unfold beat
  dsimp only
  rw [metadata_initiate, metadata_broadcast]
  rfl

/-- What is published is stored, whether it gets any further or not. -/
theorem metadata_publish (data : Bytes) (w : ω) :
    (node.publish link moment data w).2.1.metadata = .publishedAt data moment.now :=
  metadata_broadcast link _ moment _ _

/-- What publishing returns is what is stored. -/
theorem metadata_publish_of_eq_ok {data : Bytes} {w : ω} {m : Metadata}
    (h : (node.publish link moment data w).1 = .ok m) :
    (node.publish link moment data w).2.1.metadata = m := by
  rw [metadata_publish]
  unfold publish at h
  dsimp only at h
  revert h
  generalize Node.broadcast link moment _ _ _ = result
  cases result.1 with
  | error error => exact fun h ↦ absurd h (by simp [Except.map])
  | ok report => exact Except.ok.inj

end Store

end Node

/-! ### What the sites of a cluster store -/

theorem Site.metadata_hand (s : Site) (moment : Moment) (bytes : Bytes) :
    (s.hand moment bytes).1.node.metadata =
      s.node.metadata.learn ((s.hears bytes).bind Message.news?) :=
  s.node.metadata_handle Egress.link moment (s.unitOf bytes) ⟨s.offload, []⟩

theorem Cluster.metadata_deliver {n : ℕ} (c : Cluster n) (i : Fin n) (moment : Moment)
    (p : InFlight) (j : Fin n) :
    ((c.deliver i moment p).sites j).node.metadata =
      if j = i then (c.sites j).node.metadata.learn (((c.sites j).hears p.bytes).bind Message.news?)
      else (c.sites j).node.metadata := by
  rw [sites_deliver]
  by_cases hj : j = i
  · rw [if_pos hj, if_pos hj, Site.metadata_hand, hj]
  · rw [if_neg hj, if_neg hj]

end Gossip
