import Gossip.Proofs.Metadata.Comparison
import Mathlib.Logic.Relation

/-!
A comparison repairs what it compares, whatever else goes on. A node decides what to do about a swap
by the version that it has read, and may have adopted something else by the time it does it: it then
adopts what it has been told only if that is still newer, and answers with what it stores by then.
So no version ever goes back, and after the comparison neither node is behind what either of them
stored when it began.
-/

set_option autoImplicit false
set_option relaxedAutoImplicit false

namespace Gossip

/-! ### What else goes on -/

/-- What may become of a site between two steps of a comparison: it stays what it is, and takes in
news, if there are any. -/
structure Site.Meanwhile (s after : Site) : Prop where
  continues : after.Continues s
  learns : ∃ news, after.node.metadata = s.node.metadata.learn news

namespace Site

/-- A site may handle whatever is handed to it. -/
theorem meanwhile_hand (s : Site) (moment : Moment) (bytes : Bytes) :
    s.Meanwhile (s.hand moment bytes).1 :=
  ⟨s.continues_hand moment bytes, _, s.metadata_hand moment bytes⟩

/-- A site may do about another swap what it has found to be done. -/
theorem meanwhile_carryOut (s : Site) (swap : Swap) (verdict : Verdict) :
    s.Meanwhile (s.carryOut swap verdict).1 := by
  refine ⟨s.continues_carryOut swap verdict,
    if verdict = .adopt then some swap.metadata else none, ?_⟩
  rw [metadata_carryOut]
  split <;> rfl

theorem Meanwhile.version_le {s after : Site} (h : s.Meanwhile after) :
    s.node.metadata.version ≤ after.node.metadata.version := by
  obtain ⟨news, hlearns⟩ := h.learns
  rw [hlearns]
  exact s.node.metadata.version_le_learn news

end Site

/-! ### An exchange, step by step -/

/-- Where a comparison stands: a request is on its way, the site that has been asked has compared
and is about to act, an answer is on its way, the site that has asked is about to act on it, or it
is finished. -/
inductive Stage where
  | asking (bytes : Bytes)
  | deciding (swap : Swap) (verdict : Verdict)
  | answering (bytes : Bytes)
  | concluding (swap : Swap) (verdict : Verdict)
  | finished

/-- The stage after a site has been sent some parcels, one at most: without one, or with one that is
not addressed to the site, it is finished. -/
def Stage.after (s : Site) (next : Bytes → Stage) : List Parcel → Stage
  | [] => .finished
  | p :: _ => if p.key = s.key then next p.bytes else .finished

/-- How many steps of its own a comparison can still take. -/
def Stage.rest : Stage → ℕ
  | .asking _ => 4
  | .deciding _ _ => 3
  | .answering _ => 2
  | .concluding _ _ => 1
  | .finished => 0

theorem Stage.rest_after_le (s : Site) (sent : List Parcel) {next : Bytes → Stage} {count : ℕ}
    (hnext : ∀ bytes, (next bytes).rest = count) : (Stage.after s next sent).rest ≤ count := by
  unfold after
  split
  · exact Nat.zero_le count
  · split
    · exact Nat.le_of_eq (hnext _)
    · exact Nat.zero_le count

/-- A comparison between a site that asks and one that is asked, with all that it has sent. -/
structure Exchange where
  asker : Site
  asked : Site
  stage : Stage
  sent : List Parcel

namespace Exchange

/-- A site has asked another one. -/
def start (asker asked : Site) (moment : Moment) : Exchange where
  asker := (asker.probe moment).1
  asked := asked
  stage := .after asked .asking (asker.probe moment).2
  sent := (asker.probe moment).2

/-- The comparison itself takes a step: a packet is read and compared with what is stored, or what
has been found to be done is done. -/
def advance (e : Exchange) : Exchange :=
  match e.stage with
  | .asking bytes =>
    match e.asked.hears bytes with
    | some (.swapRequest swap) =>
      { e with stage := .deciding swap (swap.verdict true e.asked.node.metadata.version) }
    | _ => { e with stage := .finished }
  | .deciding swap verdict =>
    { e with
      asked := (e.asked.carryOut swap verdict).1
      stage := .after e.asker .answering (e.asked.carryOut swap verdict).2
      sent := e.sent ++ (e.asked.carryOut swap verdict).2 }
  | .answering bytes =>
    match e.asker.hears bytes with
    | some (.swapResponse swap) =>
      { e with stage := .concluding swap (swap.verdict false e.asker.node.metadata.version) }
    | _ => { e with stage := .finished }
  | .concluding swap verdict =>
    { e with
      asker := (e.asker.carryOut swap verdict).1
      stage := .finished
      sent := e.sent ++ (e.asker.carryOut swap verdict).2 }
  | .finished => e

/-- Two steps with nothing between them are what a site does that handles the request. -/
theorem advance_advance_of_asking {e : Exchange} {bytes : Bytes} {swap : Swap}
    (hstage : e.stage = .asking bytes) (hhears : e.asked.hears bytes = some (.swapRequest swap))
    (moment : Moment) :
    e.advance.advance =
      { e with
        asked := (e.asked.hand moment bytes).1
        stage := .after e.asker .answering (e.asked.hand moment bytes).2
        sent := e.sent ++ (e.asked.hand moment bytes).2 } := by
  rw [Site.hand_of_request hhears]
  simp only [advance, hstage, hhears]

/-- Two steps with nothing between them are what a site does that handles the answer. -/
theorem advance_advance_of_answering {e : Exchange} {bytes : Bytes} {swap : Swap}
    (hstage : e.stage = .answering bytes) (hhears : e.asker.hears bytes = some (.swapResponse swap))
    (moment : Moment) :
    e.advance.advance =
      { e with
        asker := (e.asker.hand moment bytes).1
        stage := .finished
        sent := e.sent ++ (e.asker.hand moment bytes).2 } := by
  rw [Site.hand_of_response hhears]
  simp only [advance, hstage, hhears]

/-- What happens: the comparison takes a step, or something else goes on at one of the sites. -/
inductive Step : Exchange → Exchange → Prop
  | advance (e : Exchange) : Step e e.advance
  | asker (e : Exchange) {s : Site} (h : e.asker.Meanwhile s) : Step e { e with asker := s }
  | asked (e : Exchange) {s : Site} (h : e.asked.Meanwhile s) : Step e { e with asked := s }

/-- Neither site is behind what it was. -/
structure Ahead (e later : Exchange) : Prop where
  asker : e.asker.node.metadata.version ≤ later.asker.node.metadata.version
  asked : e.asked.node.metadata.version ≤ later.asked.node.metadata.version

theorem ahead_advance (e : Exchange) : Ahead e e.advance := by
  have hle {v : Int64} : v ≤ v := Int64.le_refl v
  unfold advance
  split
  · split <;> exact ⟨hle, hle⟩
  next swap verdict _ => exact ⟨hle, (e.asked.meanwhile_carryOut swap verdict).version_le⟩
  · split <;> exact ⟨hle, hle⟩
  next swap verdict _ => exact ⟨(e.asker.meanwhile_carryOut swap verdict).version_le, hle⟩
  · exact ⟨hle, hle⟩

/-- No version ever goes back. -/
theorem Step.ahead {e later : Exchange} (h : Step e later) : Ahead e later := by
  cases h with
  | advance => exact e.ahead_advance
  | asker h => exact ⟨h.version_le, Int64.le_refl _⟩
  | asked h => exact ⟨Int64.le_refl _, h.version_le⟩

end Exchange

/-! ### What a stage has to do with the beginning -/

/-- What is known at a stage, while the sites store some versions and so many packets have been
sent: what is being compared is what the site that has asked stored when it asked; what has been
found to be done brings the sites up to what they stored then; and an answer is not older. -/
inductive Stage.Fits (a b : Site) (asker asked : Int64) : ℕ → Stage → Prop
  | asking {bytes : Bytes} (hcarries : Carries a.node.requestPacket bytes) :
      Fits a b asker asked 1 (.asking bytes)
  | adopting (hle : b.node.metadata.version ≤ a.node.metadata.version) :
      Fits a b asker asked 1 (.deciding a.node.swap .adopt)
  | responding (hasked : a.node.metadata.version ≤ asked) :
      Fits a b asker asked 1 (.deciding a.node.swap .answer)
  | ignoring (hle : b.node.metadata.version ≤ a.node.metadata.version)
      (hasked : a.node.metadata.version ≤ asked) :
      Fits a b asker asked 1 (.deciding a.node.swap .ignore)
  | answering {bytes : Bytes} {swap : Swap}
      (hcarries : Carries ⟨a.node.settings.secret, .swapResponse swap⟩ bytes)
      (hswap : b.node.metadata.version ≤ swap.metadata.version)
      (hasked : a.node.metadata.version ≤ asked) : Fits a b asker asked 2 (.answering bytes)
  | catchingUp {swap : Swap} (hswap : b.node.metadata.version ≤ swap.metadata.version)
      (hasked : a.node.metadata.version ≤ asked) :
      Fits a b asker asked 2 (.concluding swap .adopt)
  | caughtUp {swap : Swap} (hasker : b.node.metadata.version ≤ asker)
      (hasked : a.node.metadata.version ≤ asked) :
      Fits a b asker asked 2 (.concluding swap .ignore)
  | finished {count : ℕ} (hcount : count ≤ 2) (hasker : b.node.metadata.version ≤ asker)
      (hasked : a.node.metadata.version ≤ asked) : Fits a b asker asked count .finished

theorem Stage.Fits.mono {a b : Site} {asker asked asker' asked' : Int64} {count : ℕ}
    {stage : Stage} (h : Fits a b asker asked count stage) (hasker : asker ≤ asker')
    (hasked : asked ≤ asked') : Fits a b asker' asked' count stage := by
  cases h with
  | asking hcarries => exact .asking hcarries
  | adopting hle => exact .adopting hle
  | responding h => exact .responding (Int64.le_trans h hasked)
  | ignoring hle h => exact .ignoring hle (Int64.le_trans h hasked)
  | answering hcarries hswap h => exact .answering hcarries hswap (Int64.le_trans h hasked)
  | catchingUp hswap h => exact .catchingUp hswap (Int64.le_trans h hasked)
  | caughtUp h h' => exact .caughtUp (Int64.le_trans h hasker) (Int64.le_trans h' hasked)
  | finished hcount h h' =>
    exact .finished hcount (Int64.le_trans h hasker) (Int64.le_trans h' hasked)

namespace Exchange

/-- The exchange comes from two sites that have begun it. -/
structure From (a b : Site) (e : Exchange) : Prop where
  asker : e.asker.Continues a
  asked : e.asked.Continues b
  asker_le : a.node.metadata.version ≤ e.asker.node.metadata.version
  asked_le : b.node.metadata.version ≤ e.asked.node.metadata.version
  fits : e.stage.Fits a b e.asker.node.metadata.version e.asked.node.metadata.version e.sent.length

variable {a b : Site} {moment : Moment}

theorem from_start {peer : Member} (hprobed : a.probed moment = .ok (some peer))
    (hpeer : peer.key = b.key) : From a b (start a b moment) := by
  have hsent := Site.parcels_probe hprobed
  have hsame := a.metadata_probe moment
  refine ⟨a.continues_probe moment, .refl b, ?_, Int64.le_refl _, ?_⟩
  · show a.node.metadata.version ≤ (a.probe moment).1.node.metadata.version
    rw [hsame]
    exact Int64.le_refl _
  · show (Stage.after b .asking (a.probe moment).2).Fits a b _ _ (a.probe moment).2.length
    rw [hsent]
    unfold Stage.after
    dsimp only
    rw [if_pos hpeer]
    exact .asking (carries_encode _)

/-- What is found to be done about the request. -/
theorem fits_verdict (a b : Site) (asker : Int64) {asked : Int64}
    (hasked : b.node.metadata.version ≤ asked) :
    (Stage.deciding a.node.swap (a.node.swap.verdict true asked)).Fits a b asker asked 1 := by
  cases hverdict : a.node.swap.verdict true asked with
  | adopt =>
    have hnewer : asked < a.node.metadata.version := version_lt_of_verdict_adopt hverdict
    exact .adopting (Int64.le_trans hasked (Int64.le_of_lt hnewer))
  | answer =>
    have holder : a.node.metadata.version < asked := (verdict_eq_answer_iff.mp hverdict).1
    exact .responding (Int64.le_of_lt holder)
  | ignore =>
    obtain ⟨hle, hge⟩ := of_verdict_ignore hverdict
    exact .ignoring (Int64.le_trans hasked (hge rfl)) hle

/-- What is found to be done about the answer. -/
theorem fits_conclusion {a b : Site} {swap : Swap} {asker asked : Int64}
    (hswap : b.node.metadata.version ≤ swap.metadata.version)
    (hasked : a.node.metadata.version ≤ asked) :
    (Stage.concluding swap (swap.verdict false asker)).Fits a b asker asked 2 := by
  cases hverdict : swap.verdict false asker with
  | adopt => exact .catchingUp hswap hasked
  | answer => exact absurd (verdict_eq_answer_iff.mp hverdict).2 (by decide)
  | ignore =>
    exact .caughtUp (Int64.le_trans hswap (of_verdict_ignore hverdict).1) hasked

theorem continues_advance (e : Exchange) :
    e.advance.asker.Continues e.asker ∧ e.advance.asked.Continues e.asked := by
  unfold advance
  split
  · split <;> exact ⟨.refl _, .refl _⟩
  next swap verdict _ => exact ⟨.refl _, e.asked.continues_carryOut swap verdict⟩
  · split <;> exact ⟨.refl _, .refl _⟩
  next swap verdict _ => exact ⟨e.asker.continues_carryOut swap verdict, .refl _⟩
  · exact ⟨.refl _, .refl _⟩

/-- What has been found to be done about the request is done. -/
theorem From.fits_decided {e : Exchange} (hfrom : From a b e) (hkey : a.key = a.node.self.key)
    (hsecret : b.node.settings.secret = a.node.settings.secret) {swap : Swap} {verdict : Verdict}
    (hstage : e.stage = .deciding swap verdict) :
    (Stage.after e.asker .answering (e.asked.carryOut swap verdict).2).Fits a b
      e.asker.node.metadata.version (e.asked.carryOut swap verdict).1.node.metadata.version
      (e.sent ++ (e.asked.carryOut swap verdict).2).length := by
  obtain ⟨hasker, hasked, hasker_le, hasked_le, hfits⟩ := hfrom
  rw [hstage] at hfits
  rw [List.length_append, Site.parcels_carryOut, Site.metadata_carryOut]
  generalize e.sent.length = count at hfits
  cases hfits with
  | adopting hle =>
    exact .finished (Nat.le_succ 1) (Int64.le_trans hle hasker_le)
      (Metadata.version_news_le_learn _ a.node.metadata)
  | responding hle =>
    have hback : (e.asked.node.answer a.node.swap).key = e.asker.key := by
      rw [hasker.key, hkey]
      rfl
    have hown : e.asked.node.settings.secret = a.node.settings.secret := by
      rw [hasked.settings, hsecret]
    have hcarries : Carries ⟨a.node.settings.secret, .swapResponse e.asked.node.swap⟩
        (e.asked.node.answer a.node.swap).bytes :=
      hown ▸ carries_encode e.asked.node.responsePacket
    rw [if_pos rfl, if_neg (by decide), Stage.after, if_pos hback]
    exact .answering hcarries hasked_le hle
  | ignoring hle hasked' =>
    exact .finished (Nat.le_succ 1) (Int64.le_trans hle hasker_le) hasked'

/-- What has been found to be done about the answer is done. -/
theorem From.fits_concluded {e : Exchange} (hfrom : From a b e) {swap : Swap} {verdict : Verdict}
    (hstage : e.stage = .concluding swap verdict) :
    Stage.finished.Fits a b (e.asker.carryOut swap verdict).1.node.metadata.version
      e.asked.node.metadata.version (e.sent ++ (e.asker.carryOut swap verdict).2).length := by
  have hfits := hfrom.fits
  rw [hstage] at hfits
  rw [List.length_append, Site.parcels_carryOut, Site.metadata_carryOut]
  generalize e.sent.length = count at hfits
  cases hfits with
  | catchingUp hswap hasked =>
    have hlearnt := Metadata.version_news_le_learn e.asker.node.metadata swap.metadata
    exact .finished (Nat.le_refl 2) (Int64.le_trans hswap hlearnt) hasked
  | caughtUp hasker hasked => exact .finished (Nat.le_refl 2) hasker hasked

theorem From.fits_advance {e : Exchange} (hfrom : From a b e) (hkey : a.key = a.node.self.key)
    (hsecret : b.node.settings.secret = a.node.settings.secret) :
    e.advance.stage.Fits a b e.advance.asker.node.metadata.version
      e.advance.asked.node.metadata.version e.advance.sent.length := by
  have hfits := hfrom.fits
  cases hstage : e.stage with
  | asking bytes =>
    rw [hstage] at hfits
    generalize hcount : e.sent.length = count at hfits
    cases hfits with
    | asking hcarries =>
      have hhears : e.asked.hears bytes = some (.swapRequest a.node.swap) := by
        rw [Site.hears_of_carries hcarries, hfrom.asked.settings]
        exact if_pos hsecret.symm
      simp only [advance, hstage, hhears, hcount]
      exact fits_verdict a b _ hfrom.asked_le
  | deciding swap verdict =>
    have hdecided := hfrom.fits_decided hkey hsecret hstage
    simpa only [advance, hstage] using hdecided
  | answering bytes =>
    rw [hstage] at hfits
    generalize hcount : e.sent.length = count at hfits
    cases hfits with
    | @answering _ swap hcarries hswap hasked =>
      have hhears : e.asker.hears bytes = some (.swapResponse swap) := by
        rw [Site.hears_of_carries hcarries, hfrom.asker.settings]
        exact if_pos rfl
      simp only [advance, hstage, hhears, hcount]
      exact fits_conclusion hswap hasked
  | concluding swap verdict =>
    have hconcluded := hfrom.fits_concluded hstage
    simpa only [advance, hstage] using hconcluded
  | finished =>
    simp only [advance, hstage]
    rwa [hstage] at hfits

theorem From.step {e later : Exchange} (hfrom : From a b e) (hkey : a.key = a.node.self.key)
    (hsecret : b.node.settings.secret = a.node.settings.secret) (hstep : Step e later) :
    From a b later := by
  have hahead := hstep.ahead
  have hasker := Int64.le_trans hfrom.asker_le hahead.asker
  have hasked := Int64.le_trans hfrom.asked_le hahead.asked
  cases hstep with
  | advance =>
    obtain ⟨hfirst, hsecond⟩ := e.continues_advance
    exact ⟨hfirst.trans hfrom.asker, hsecond.trans hfrom.asked, hasker, hasked,
      hfrom.fits_advance hkey hsecret⟩
  | asker h =>
    exact ⟨h.continues.trans hfrom.asker, hfrom.asked, hasker, hasked,
      hfrom.fits.mono h.version_le (Int64.le_refl _)⟩
  | asked h =>
    exact ⟨hfrom.asker, h.continues.trans hfrom.asked, hasker, hasked,
      hfrom.fits.mono (Int64.le_refl _) h.version_le⟩

theorem From.run {e later : Exchange} (hfrom : From a b e) (hkey : a.key = a.node.self.key)
    (hsecret : b.node.settings.secret = a.node.settings.secret)
    (hrun : Relation.ReflTransGen Step e later) : From a b later := by
  induction hrun with
  | refl => exact hfrom
  | tail _ hstep ih => exact ih.step hkey hsecret hstep

theorem From.length_sent_le {e : Exchange} (hfrom : From a b e) : e.sent.length ≤ 2 := by
  have hfits := hfrom.fits
  generalize e.stage = stage at hfits
  generalize e.sent.length = count at hfits ⊢
  cases hfits with
  | asking | adopting | responding | ignoring => exact Nat.le_succ 1
  | answering | catchingUp | caughtUp => exact Nat.le_refl 2
  | finished hcount => exact hcount

theorem From.max_le_of_finished {e : Exchange} (hfrom : From a b e)
    (hfinished : e.stage = .finished) :
    max a.node.metadata.version b.node.metadata.version ≤ e.asker.node.metadata.version ∧
      max a.node.metadata.version b.node.metadata.version ≤ e.asked.node.metadata.version := by
  have hfits := hfrom.fits
  generalize e.sent.length = count at hfits
  have hle {v : Int64} (ha : a.node.metadata.version ≤ v) (hb : b.node.metadata.version ≤ v) :
      max a.node.metadata.version b.node.metadata.version ≤ v := by
    by_cases h : a.node.metadata.version ≤ b.node.metadata.version
    · rw [max_version_of_le h]
      exact hb
    · rw [max_version_of_lt (Int64.not_le.mp h)]
      exact ha
  rw [hfinished] at hfits
  cases hfits with
  | finished _ hasker hasked => exact ⟨hle hfrom.asker_le hasker, hle hasked hfrom.asked_le⟩

/-! ### The end of an exchange -/

theorem rest_advance_lt (e : Exchange) (h : e.stage ≠ .finished) :
    e.advance.stage.rest < e.stage.rest := by
  obtain ⟨asker, asked, stage, sent⟩ := e
  cases stage with
  | asking bytes =>
    unfold advance
    dsimp only
    split <;> exact Nat.lt_of_le_of_lt (by simp [Stage.rest]) (Nat.lt_succ_self 3)
  | deciding swap verdict => exact Nat.lt_succ_of_le (Stage.rest_after_le asker _ fun _ ↦ rfl)
  | answering bytes =>
    unfold advance
    dsimp only
    split <;> exact Nat.lt_of_le_of_lt (by simp [Stage.rest]) (Nat.lt_succ_self 1)
  | concluding swap verdict => exact Nat.zero_lt_one
  | finished => exact absurd rfl h

/-- Nothing keeps a comparison from its end. -/
theorem exists_finished (e : Exchange) :
    ∃ later, Relation.ReflTransGen Step e later ∧ later.stage = .finished := by
  induction hrest : e.stage.rest using Nat.strong_induction_on generalizing e with
  | _ steps ih =>
    by_cases hfinished : e.stage = .finished
    · exact ⟨e, .refl, hfinished⟩
    · obtain ⟨later, hrun, hdone⟩ := ih _ (hrest ▸ e.rest_advance_lt hfinished) e.advance rfl
      exact ⟨later, .head (.advance e) hrun, hdone⟩

end Exchange

/-- Assumes: a cluster of any size with nothing in flight, in which one site asks another one, of
the same secret, to compare what they store. The comparison can be run to its end. However it is
run, at most two packets are sent, and in the end both sites store the newer metadata, or each its
own if there is no newer. An answer is never answered. Whatever else goes on at the two sites, at
most two packets are sent, no version goes back, and the comparison comes to an end, after which
neither site is behind what either of them stored in the beginning. -/
theorem comparison_repairs {n : ℕ} {c : Cluster n} {a b : Fin n} {moment : Moment}
    (hasks : c.Asks a b moment) (root : List ℕ) :
    (∃ hops after, Run (c.probe a moment root) hops after ∧ after.flight = 0) ∧
      (∀ hops after, Run (c.probe a moment root) hops after →
        hops.length + after.flight.card ≤ 2 ∧
          (after.flight = 0 → Repaired (c.sites a).node.metadata (c.sites b).node.metadata
            (after.sites a).node.metadata (after.sites b).node.metadata)) ∧
      (∀ (ω : Type) (link : Link ω) (send : Send → Action ω) (node : Node) (swap : Swap) (w : ω),
        node.onSwap { link with send } (.swapResponse swap) w =
          node.onSwap link (.swapResponse swap) w) ∧
      ∀ e, Relation.ReflTransGen Exchange.Step (.start (c.sites a) (c.sites b) moment) e →
        e.sent.length ≤ 2 ∧ (∀ later, e.Step later → e.Ahead later) ∧
          (∃ later, Relation.ReflTransGen Exchange.Step e later ∧ later.stage = .finished) ∧
          (e.stage = .finished →
            max (c.sites a).node.metadata.version (c.sites b).node.metadata.version ≤
                e.asker.node.metadata.version ∧
              max (c.sites a).node.metadata.version (c.sites b).node.metadata.version ≤
                e.asked.node.metadata.version) := by
  refine ⟨hasks.exists_run root, fun hops after hrun ↦ ?_,
    fun ω link send node swap w ↦ node.onSwap_response link send swap w, fun e hrun ↦ ?_⟩
  · have hcomparing := hasks.comparing_run hrun
    exact ⟨hcomparing.length_add_card_le, hcomparing.repaired⟩
  · obtain ⟨peer, hprobed, hpeer⟩ := hasks.probed
    have hfrom := (Exchange.from_start hprobed hpeer).run hasks.key_eq hasks.secret_eq hrun
    exact ⟨hfrom.length_sent_le, fun later hstep ↦ hstep.ahead, e.exists_finished,
      hfrom.max_le_of_finished⟩

/-- A mesh of two, one of which has published what has never reached the other. -/
def Cluster.parted : Cluster 2 := { (mesh 2 1 dawn.now).publish 1 dawn [1] [] with flight := 0 }

theorem Cluster.asks_parted : parted.Asks 0 1 dawn := by
  have hmesh : (mesh 2 1 dawn.now).Meshed := meshed_mesh (by decide) (by decide) dawn.now
  have hsites (i : Fin 2) : (parted.sites i).Continues ((mesh 2 1 dawn.now).sites i) :=
    (mesh 2 1 dawn.now).continues_publish 1 dawn [1] [] i
  refine ⟨fun i j hkey ↦ hmesh.key_injective ?_, by decide, ?_, ?_, rfl, .ofNumber 1, rfl, ?_⟩
  · exact ((hsites i).key.symm.trans hkey).trans (hsites j).key
  · rw [(hsites 0).key, (hsites 0).self]
    exact hmesh.key_eq 0
  · rw [(hsites 0).settings, (hsites 1).settings]
    exact hmesh.secret_eq 1 0
  · exact (hsites 1).key.symm

theorem comparison_repairs_of_two :
    ∃ hops after, Run (Cluster.parted.probe 0 dawn []) hops after ∧ after.flight = 0 ∧
      hops.length ≤ 2 ∧ ∀ i, (after.sites i).node.metadata = .publishedAt [1] dawn.now := by
  obtain ⟨⟨hops, after, hrun, hdone⟩, hends, -⟩ := comparison_repairs Cluster.asks_parted []
  obtain ⟨hfew, hends⟩ := hends hops after hrun
  have hasker : (Cluster.parted.sites 0).node.metadata = {} := rfl
  have hasked : (Cluster.parted.sites 1).node.metadata = .publishedAt [1] dawn.now :=
    Site.metadata_publish _ dawn [1]
  have hrepaired := hends hdone
  rw [hasker, hasked] at hrepaired
  obtain ⟨hfirst, hsecond⟩ := hrepaired.of_lt (by decide)
  have hboth : ∀ i, (after.sites i).node.metadata = .publishedAt [1] dawn.now
    | 0 => hfirst
    | 1 => hsecond
  exact ⟨hops, after, hrun, hdone, by omega, hboth⟩

end Gossip
