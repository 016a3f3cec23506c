import Aurum.Broker.Coherent

/-!
# Broker — what an action does

The executor seen from outside: the state of every message of every
queue, and for every consumer its queue, its next tag and the messages
outstanding at it. `Effect` lists the ways a view can change and the
events that go with each; every action of a coherent executor has one of
these effects. The code's data (bit planes, windows, worklists, segments)
does not appear in it.
-/

namespace Aurum.Protocol

open Aurum.Bits Aurum.Queue Aurum.Consumer List

/-- The `(tag, seq)` pairs a segment of a delivery event announces. -/
def DeliveryEventSegment.entries : DeliveryEventSegment → List (Nat × Nat)
  | .range seg => tagged seg.startTag (range' seg.startSeq seg.len)
  | .mask seg => tagged seg.baseTag (DeliveryMask.mk seg.block seg.word seg.mask).seqs

/-- The rounds of the iterator visit the set bits in order. -/
theorem DeliveryMaskSegment.handlesFrom_eq (blockBase baseTag : Nat) :
    ∀ (rounds : Nat) (bits : Word) (tagOffset : Nat), countOnes bits ≤ rounds →
      handlesFrom blockBase baseTag rounds bits tagOffset =
        tagged (baseTag + tagOffset) ((positions bits).map (blockBase + ·)) := by
  intro rounds
  induction rounds with
  | zero =>
    intro bits tagOffset hle
    obtain rfl : bits = 0#64 := countOnes_eq_zero.mp (Nat.le_zero.mp hle)
    simp [handlesFrom]
  | succ rounds ih =>
    intro bits tagOffset hle
    by_cases hbits : bits = 0#64
    · simp [handlesFrom, hbits]
    · have hcount := countOnes_clearLowest hbits
      rw [handlesFrom, if_neg hbits, ih _ _ (by omega), positions_eq_cons hbits]
      simp [tagged, Nat.add_assoc]

/-- **`iter_handles`** gives every message its sequence number. -/
theorem DeliveryMaskSegment.iterHandles_eq (m : DeliveryMaskSegment) :
    m.iterHandles = (DeliveryEventSegment.mask m).entries := by
  rw [iterHandles, handlesFrom_eq _ _ _ _ _ (countOnes_le m.mask)]
  simp only [DeliveryEventSegment.entries, DeliveryMask.seqs, Nat.add_zero]
  refine congrArg (tagged m.baseTag) (map_congr_left fun i _ => ?_)
  simp only [seqOfBit, MSGS_PER_BLOCK]
  omega

/-- The `(tag, seq)` pairs of a delivery event. -/
def DeliveryEventBatch.entries (batch : DeliveryEventBatch) : List (Nat × Nat) :=
  batch.segments.flatMap DeliveryEventSegment.entries

/-- Events that neither announce messages nor report a consumer. -/
def Event.Quiet : Event → Prop
  | .delivery _ | .consumer _ _ => False
  | .settlement _ | .confirm _ | .error _ => True

end Aurum.Protocol

namespace Aurum.Broker

open Aurum.Bits Aurum.Queue Aurum.Consumer Aurum.Protocol InMemoryShardExecutor Function List Option
open ConsumerRuntimeState

/-- A consumer seen from outside. -/
structure Seat where
  queueId : Nat
  nextTag : Nat
  entries : List (Nat × Nat)

/-- An executor seen from outside. -/
structure View where
  state : Nat → Nat → Option MessageState
  seat : Nat → Option Seat

variable {σ : Type} {s : InMemoryShardExecutor σ}

variable (s)

/-- `debug_state_of` on a queue of the executor. -/
def InMemoryShardExecutor.stateOf (queueId seq : Nat) : Option MessageState :=
  (s.queues queueId).bind fun queue => queue.queue.debugStateOf seq

def ConsumerRuntimeState.seat (state : ConsumerRuntimeState) : Seat :=
  ⟨state.queueId, state.session.nextTag, state.session.entries⟩

def InMemoryShardExecutor.view : View where
  state := s.stateOf
  seat := fun c => (s.consumers c).map seat

variable {s}

/-- The messages `S` of its queue are handed to consumer `c` at `seat`. -/
def View.deliver (v : View) (c : Nat) (seat : Seat) (S : List Nat) : View where
  state := update v.state seat.queueId (setAll (v.state seat.queueId) S .inflight)
  seat := update v.seat c (some ⟨seat.queueId, seat.nextTag + S.length,
    seat.entries ++ tagged seat.nextTag S⟩)

/-- The state of a settled message. -/
def outcome (requeues : Bool) : MessageState := if requeues then .retry else .acked

/-- **The effects.** `requeues` tells what happens to messages that leave
a consumer. -/
inductive Effect (v : View) (requeues : Bool) : List Event → View → Prop
  | quiet {es : List Event} (hes : ∀ e ∈ es, e.Quiet) : Effect v requeues es v
  | published (q next count : Nat) (hnext : ∀ x, v.state q x = none ↔ next ≤ x) :
      Effect v requeues []
        { v with
          state := update v.state q
            (HybridRangeBlockQueue.publishAll (v.state q) next count) }
  | started (c q : Nat) (hc : v.seat c = none) :
      Effect v requeues [.consumer c .started]
        { v with seat := update v.seat c (some ⟨q, 1, []⟩) }
  | delivered (c : Nat) (seat : Seat) (S : List Nat) (batch : DeliveryEventBatch)
      (hc : v.seat c = some seat) (hnodup : S.Nodup)
      (havail : ∀ x ∈ S, v.state seat.queueId x = some .ready ∨
        v.state seat.queueId x = some .sparseReady)
      (hbatch : batch.consumerId = c ∧ batch.queueId = seat.queueId ∧
        batch.entries = tagged seat.nextTag S) :
      Effect v requeues [.delivery batch] (v.deliver c seat S)
  | settled (c : Nat) (seat : Seat) (take : Nat → Bool) (hc : v.seat c = some seat)
      (hin : ∀ e ∈ seat.entries, v.state seat.queueId e.2 = some .inflight) :
      Effect v requeues []
        ⟨update v.state seat.queueId (setAll (v.state seat.queueId)
            ((taken take seat.entries).map Prod.snd) (outcome requeues)),
          update v.seat c
            (some { seat with entries := taken (fun t => !take t) seat.entries })⟩
  | retried (q : Nat) (S : List Nat) (hS : ∀ x, x ∈ S ↔ v.state q x = some .retry) :
      Effect v requeues []
        { v with state := update v.state q (setAll (v.state q) S .sparseReady) }
  | cancelled (c : Nat) (seat : Seat) (hc : v.seat c = some seat)
      (hin : ∀ e ∈ seat.entries, v.state seat.queueId e.2 = some .inflight) :
      Effect v requeues [.consumer c .cancelled]
        ⟨update v.state seat.queueId (setAll (v.state seat.queueId)
            (seat.entries.map Prod.snd) (outcome requeues)),
          update v.seat c none⟩

/-! ## Views of updated executors -/

variable {queueId c : Nat} {queue : QueueState} {st : Nat → Option MessageState}
  {state : ConsumerRuntimeState} {q : HybridRangeBlockQueue} {out : List TaggedDeliverySegment}
  {session : ConsumerSession} {s' : InMemoryShardExecutor σ}

theorem view_state_of (hq : s.queues queueId = some queue) (hd : queue.queue.Denotes st) :
    s.view.state queueId = st := by
  funext x
  simp only [view, stateOf, hq, bind_some, hd.debugStateOf]

theorem view_seat_of (hc : s.consumers c = some state) : s.view.seat c = some state.seat := by
  simp [view, hc]

theorem stateOf_update (hd : queue.queue.Denotes st) :
    (s.setQueue queueId queue).stateOf = update s.stateOf queueId st := by
  funext k x
  simp only [stateOf, setQueue, update_apply]
  split
  · simp [hd.debugStateOf]
  · rfl

theorem view_setQueue (queueId : Nat) (queue : QueueState) (hd : queue.queue.Denotes st) :
    (s.setQueue queueId queue).view =
      { s.view with state := update s.view.state queueId st } := by
  simp only [view, stateOf_update hd]
  rfl

theorem view_setConsumer (c : Nat) (state : ConsumerRuntimeState) : (s.setConsumer c state).view =
      { s.view with seat := update s.view.seat c (some state.seat) } := by
  simp only [view, setConsumer, View.mk.injEq]
  refine ⟨rfl, ?_⟩
  funext k
  simp only [update_apply]
  split <;> rfl

theorem view_putBack (c : Nat) (state : ConsumerRuntimeState) (queue : QueueState)
    (session : ConsumerSession) (hd : q.Denotes st) :
    (s.putBack c state queue session q).view =
      ⟨update s.view.state state.queueId st,
        update s.view.seat c
          (some ⟨state.queueId, session.nextTag, session.entries⟩)⟩ := by
  rw [putBack, view_setConsumer, view_setQueue _ _ hd]
  rfl

theorem stateOf_putBack (c : Nat) (state : ConsumerRuntimeState) (queue : QueueState)
    (session : ConsumerSession) (hd : q.Denotes st) (k x : Nat) :
    (s.putBack c state queue session q).stateOf k x =
      if k = state.queueId then st x else s.stateOf k x := by
  have hview := congrFun (congrFun (congrArg View.state
    (view_putBack (s := s) c state queue session hd)) k) x
  change (s.putBack c state queue session q).stateOf k x = _ at hview
  rw [hview]
  dsimp only
  rw [update_apply]
  split
  · rfl
  · rfl

/-! ## Delivery -/

/-- The event segment of one delivered segment. -/
def eventSegment (queue : Option QueueState) : TaggedDeliverySegment → DeliveryEventSegment
  | .range firstTag range redelivered => .range (rangeSegment queue firstTag range redelivered)
  | .mask firstTag mask _ redelivered =>
    .mask ⟨firstTag, mask.block, mask.word, mask.mask, redelivered⟩

theorem entries_eventSegment (queue : Option QueueState) (seg : TaggedDeliverySegment) :
    (eventSegment queue seg).entries = seg.entries := by
  cases seg <;> rfl

/-- No two ranges meet in one delivery, so nothing is merged. -/
theorem foldl_pushSegment (h : Handout st out) (queue : Option QueueState) :
    out.foldl (pushSegment queue) [] = out.map (eventSegment queue) := by
  obtain ⟨ranges, masks, rfl, hone, hfresh, hsparse⟩ := h
  have hmasks : ∀ (masks : List TaggedDeliverySegment) (acc : List DeliveryEventSegment),
      (∀ seg ∈ masks, seg.Sparse st) →
      masks.foldl (pushSegment queue) acc = acc ++ masks.map (eventSegment queue) := by
    intro masks
    induction masks with
    | nil => simp
    | cons seg masks ih =>
      intro acc hall
      rw [foldl_cons, ih _ fun seg' h => hall seg' (by simp [h])]
      cases seg with
      | range _ _ _ => exact absurd (hall _ mem_cons_self) id
      | mask firstTag mask count redelivered => simp [pushSegment, eventSegment]
  have hranges : ranges.foldl (pushSegment queue) [] = ranges.map (eventSegment queue) := by
    obtain rfl | ⟨seg, rfl⟩ : ranges = [] ∨ ∃ seg, ranges = [seg] := by
      cases ranges <;> simp_all
    · rfl
    · cases seg with
      | range _ _ _ => rfl
      | mask _ _ _ _ => exact absurd (hfresh _ mem_cons_self) id
  rw [foldl_append, hranges, hmasks _ _ hsparse, map_append]

theorem deliverFromQueue_out_nil {session' : ConsumerSession} {q' : HybridRangeBlockQueue}
    {max : Nat} (h : session.deliverFromQueue q max = .ok (session', q', out, 0)) : out = [] := by
  unfold ConsumerSession.deliverFromQueue at h
  split at h
  · cases h
  · dsimp only at h
    split at h
    · cases h
      rfl
    · split at h
      · cases h
        rfl
      · next hn =>
        simp only [Except.ok.injEq, Prod.mk.injEq] at h
        exact absurd h.2.2.2 hn

/-- The event of one delivery round. -/
def deliveryEvent (c : Nat) (state : ConsumerRuntimeState) (queue : QueueState)
    (out : List TaggedDeliverySegment) : DeliveryEventBatch :=
  ⟨c, state.queueId, state.channelId, out.map (eventSegment (some queue))⟩

theorem entries_deliveryEvent (c : Nat) (state : ConsumerRuntimeState) (queue : QueueState)
    (out : List TaggedDeliverySegment) :
    (deliveryEvent c state queue out).entries = out.flatMap TaggedDeliverySegment.entries := by
  simp only [deliveryEvent, DeliveryEventBatch.entries, flatMap_map, entries_eventSegment]

/-- **One round of `deliver_consumer`**: the session takes what it can
and, if that is anything, one event announces it. -/
theorem deliverRound_spec (h : Coherent s) (hc : s.consumers c = some state) :
    ∃ queue st S session q out n, s.queues state.queueId = some queue ∧
      QueueOk s.consumers state.queueId queue st ∧
      SessionDelivers state.session queue.queue st (min state.session.credit.available 256) S
        session q out n ∧
      s.deliverRound state.queueId c =
        ({ s.putBack c state queue session q with
            sink := s.sink ++
              if n = 0 then [] else [.delivery (deliveryEvent c state queue out)] }, n) := by
  obtain ⟨⟨hlive, -, hout⟩, -⟩ := h.consumer c state hc
  obtain ⟨queue, st, pre, post, hq, hst, howns⟩ := h.owns_of hc
  obtain ⟨S, session, q, out, n, heq, hdel⟩ :=
    deliverFromQueue_spec (howns.ok state.session (by simp)) howns.denotes hlive 256
  refine ⟨queue, st, S, session, q, out, n, hq, hst, hdel, ?_⟩
  have hclear : { state with session := session, out := [] } =
      { state with session := session } := by
    rw [← hout]
  simp only [deliverRound, hq, hc, heq]
  by_cases hn : n = 0
  · subst hn
    obtain rfl := deliverFromQueue_out_nil heq
    rw [if_pos rfl, if_pos rfl, hclear, append_nil]
    rfl
  · have hne : out ≠ [] := by
      rintro rfl
      have hlen := congrArg length hdel.out
      rw [length_tagged, ← hdel.count] at hlen
      exact hn hlen.symm
    rw [if_neg hn, if_neg hn]
    simp only [emitDelivery, setConsumer, setQueue, update_self,
      if_neg hne, update_idem, hclear, foldl_pushSegment hdel.handout]
    rfl

/-! ## Every action has an effect -/

/-- Whether the messages an action takes from a consumer are requeued. -/
def Action.requeues : Action σ → Bool
  | .nack _ req => decide (req.reason = .requeue)
  | .cancel _ disp => decide (disp = .requeueUnacked)
  | _ => false

/-- An action that keeps the registries coherent and has an effect. -/
def HasEffect (s : InMemoryShardExecutor σ) (requeues : Bool) (s' : InMemoryShardExecutor σ) :
    Prop :=
  Coherent s' ∧ ∃ es, s'.sink = s.sink ++ es ∧ Effect s.view requeues es s'.view

/-- What looks the same and sends nothing. -/
theorem hasEffect_same (h' : Coherent s') (hsink : s'.sink = s.sink) (hview : s'.view = s.view)
    (requeues : Bool) : HasEffect s requeues s' :=
  ⟨h', [], by rw [hsink, append_nil], hview ▸ .quiet (by simp)⟩

section

variable (h : Coherent s)
include h

theorem hasEffect_refl (requeues : Bool) : HasEffect s requeues s :=
  hasEffect_same h rfl rfl requeues

theorem hasEffect_emit {e : Event} (he : e.Quiet) (requeues : Bool) :
    HasEffect s requeues (s.emit e) :=
  ⟨h.congr rfl rfl, [e], rfl, .quiet (by simpa using he)⟩

theorem hasEffect_declare (queueId : Nat) (requeues : Bool) :
    HasEffect s requeues (s.act (.declare queueId)) := by
  simp only [act]
  split
  · next hq =>
    refine hasEffect_same (s := s) (h.declare hq) rfl ?_ requeues
    -- neither a missing nor an empty queue has messages
    have hstate : update s.view.state queueId (fun _ => none) = s.view.state := by
      refine update_eq_self_iff.mpr ?_
      funext x
      simp [view, stateOf, hq]
    rw [view_setQueue _ QueueState.empty HybridRangeBlockQueue.denotes_empty, hstate]
  · exact hasEffect_refl h requeues

theorem hasEffect_publish (batch : ShardPublishBatch) (requeues : Bool) :
    HasEffect s requeues (s.act (.publish batch)) := by
  simp only [act]
  split
  · exact hasEffect_refl h requeues
  · next queue hq =>
    obtain ⟨st, hst⟩ := h.queue _ queue hq
    have hd := hst.owns.denotes
    refine ⟨h.setQueue hq rfl fun st ss howns => ⟨_, howns.publish batch.count⟩, [],
      (append_nil _).symm, ?_⟩
    rw [view_setQueue _ (publishTo queue batch) (hd.publishContiguous batch.count).1,
      ← view_state_of hq hd]
    refine .published _ _ _ fun x => ?_
    rw [view_state_of hq hd]
    exact hd.dom x

theorem hasEffect_retry (queueId : Nat) (requeues : Bool) :
    HasEffect s requeues (s.act (.retry queueId)) := by
  simp only [act, retryQueue]
  split
  · exact hasEffect_refl h requeues
  · next queue hq =>
    obtain ⟨st, hst⟩ := h.queue _ queue hq
    have hd := hst.owns.denotes
    obtain ⟨S, hd', -, hS, -, -⟩ := hd.retryAllNow
    refine ⟨h.setQueue hq rfl fun st ss howns => howns.retry, [], (append_nil _).symm, ?_⟩
    rw [view_setQueue _ { queue with queue := queue.queue.retryAllNow.1 } hd',
      ← view_state_of hq hd]
    refine .retried _ S fun x => ?_
    rw [view_state_of hq hd]
    exact hS x

theorem hasEffect_rotate (queueId index : Nat) (requeues : Bool) :
    HasEffect s requeues (s.act (.rotate queueId index)) := by
  simp only [act]
  split
  · exact hasEffect_refl h requeues
  · next queue hq =>
    obtain ⟨st, hst⟩ := h.queue _ queue hq
    have hd := hst.owns.denotes
    have hcoh : Coherent (s.setQueue queueId { queue with nextConsumerIndex := index }) :=
      h.setQueue hq rfl fun st ss howns => ⟨st, howns⟩
    refine hasEffect_same (s := s) hcoh rfl ?_ requeues
    rw [view_setQueue _ { queue with nextConsumerIndex := index } hd,
      ← view_state_of hq hd, update_eq_self]

theorem hasEffect_start (cmd : ConsumeStart) (requeues : Bool) :
    HasEffect s requeues (s.act (.start cmd)) := by
  simp only [act]
  split
  · next queue hq hc =>
    obtain ⟨st, hst⟩ := h.queue _ queue hq
    have hd : (queue.attach cmd.consumerId).queue.Denotes st := by
      rw [QueueState.attach]
      split <;> exact hst.owns.denotes
    refine ⟨(h.start hq hc).congr rfl rfl, _, rfl, ?_⟩
    change Effect s.view requeues _ ((s.setConsumer cmd.consumerId (startState cmd)).setQueue
      cmd.queueId (queue.attach cmd.consumerId)).view
    rw [view_setQueue _ _ hd, view_setConsumer]
    dsimp only
    rw [← view_state_of hq hst.owns.denotes, update_eq_self]
    exact .started _ cmd.queueId (by simp [view, hc])
  · exact hasEffect_refl h requeues

theorem hasEffect_deliver (c : Nat) (requeues : Bool) :
    HasEffect s requeues (s.act (.deliver c)) := by
  simp only [act]
  split
  · exact hasEffect_refl h requeues
  · next state hc =>
    obtain ⟨queue, st, S, session, q, out, n, hq, hst, hdel, heq⟩ := deliverRound_spec h hc
    have hd := hst.owns.denotes
    have hcoh : Coherent (s.putBack c state queue session q) := by
      obtain ⟨hstate, -⟩ := h.consumer c state hc
      refine h.putBack hc hq (hdel.frame.1.trans hstate.session) fun st' pre post howns => ?_
      obtain rfl := howns.denotes.unique hd
      exact ⟨_, howns.deliver hdel⟩
    have hview := view_putBack (s := s) c state queue session hdel.denotes
    rw [hdel.nextTag, hdel.entries, ← view_state_of hq hd] at hview
    rw [heq]
    refine ⟨hcoh.congr rfl rfl, _, rfl, ?_⟩
    change Effect s.view requeues _ (s.putBack c state queue session q).view
    rw [hview]
    split
    · next hn =>
      -- nothing was delivered: the queue may differ inside, not in its messages
      have hS : S = [] := eq_nil_of_length_eq_zero (by rw [← hdel.count, hn])
      have hseat := view_seat_of hc
      rw [seat] at hseat
      rw [hS, setAll_nil, update_eq_self, tagged_nil, append_nil, length_nil,
        Nat.add_zero, ← hseat, update_eq_self]
      exact .quiet (by simp)
    · refine .delivered c state.seat S _ (view_seat_of hc) hdel.nodup ?_ ⟨rfl, rfl, ?_⟩
      · change ∀ x ∈ S, s.view.state state.queueId x = _ ∨ s.view.state state.queueId x = _
        rw [view_state_of hq hd]
        exact hdel.available
      · rw [entries_deliveryEvent]
        exact hdel.out

/-- **A settlement** at one consumer. -/
theorem hasEffect_settle (hc : s.consumers c = some state)
    (hq : s.queues state.queueId = some queue) (hst : QueueOk s.consumers state.queueId queue st)
    {requeues : Bool} {take : Nat → Bool}
    (hset : Settles take (outcome requeues) state.session queue.queue st session q)
    (hlive : session.cancelled = state.session.cancelled) :
    HasEffect s requeues (s.putBack c state queue session q) := by
  have hd := hst.owns.denotes
  have hne : outcome requeues ≠ .inflight := by cases requeues <;> simp [outcome]
  obtain ⟨pre, post, -, -, -, howns⟩ := hst.split hc rfl
  refine ⟨?_, [], (append_nil _).symm, ?_⟩
  · obtain ⟨hstate, -⟩ := h.consumer c state hc
    refine h.putBack hc hq (hlive.trans hstate.session) fun st' pre post howns' => ?_
    obtain rfl := howns'.denotes.unique hd
    exact ⟨_, howns'.settle hne hset⟩
  · rw [view_putBack c state queue session hset.denotes, hset.nextTag, hset.entries,
      ← view_state_of hq hd]
    refine .settled c state.seat take (view_seat_of hc) fun e he => ?_
    change s.view.state state.queueId e.2 = _
    rw [view_state_of hq hd]
    exact howns.entries_inflight (by simp) e he

end

theorem target_eq_outcome (reason : NackReason) :
    target reason = outcome (decide (reason = .requeue)) := by
  cases reason <;> rfl

theorem dispositionTarget_eq_outcome (disp : CancelDisposition) :
    disp.target = outcome (decide (disp = .requeueUnacked)) := by
  cases disp <;> rfl

theorem hasEffect_nack (h : Coherent s) (c : Nat) (req : NackRequest) :
    HasEffect s (decide (req.reason = .requeue)) (s.act (.nack c req)) := by
  simp only [act]
  cases hc : s.consumers c with
  | none => simpa only [onSession, hc] using hasEffect_refl h _
  | some state =>
    obtain ⟨queue, st, pre, post, hq, hst, howns⟩ := h.owns_of hc
    rw [onSession_eq hc hq]
    rcases howns.nack_cases (s := state.session) (by simp) req with
      ⟨session, q, heq, hset, hlive, -⟩ | ⟨heq, -⟩
    · rw [target_eq_outcome] at hset
      rw [heq]
      exact hasEffect_settle h hc hq hst hset hlive
    · rw [heq]
      exact hasEffect_refl h _

theorem view_removeConsumer (c : Nat) (state : ConsumerRuntimeState) (queue : QueueState)
    (disp : CancelDisposition) (hd : (state.session.cancel disp queue.queue).2.1.Denotes st) :
    (s.removeConsumer c state queue disp).view =
      ⟨update s.view.state state.queueId st, update s.view.seat c none⟩ := by
  have hset := view_setQueue (s := s) state.queueId
    ({ queue with queue := (state.session.cancel disp queue.queue).2.1 }.detach c) hd
  have hstate := congrArg View.state hset
  dsimp only at hstate
  simp only [view, removeConsumer, View.mk.injEq] at hstate ⊢
  refine ⟨hstate, ?_⟩
  funext k
  simp only [setQueue, update_apply]
  split <;> rfl

/-- What `cancel` does to a session and its queue. -/
theorem cancel_settles {pre post : List ConsumerSession}
    (ho : Owns queue.queue st (pre ++ state.session :: post)) (disp : CancelDisposition) :
    Settles (fun _ => true) disp.target state.session queue.queue st
      (state.session.cancel disp queue.queue).1 (state.session.cancel disp queue.queue).2.1 :=
  (cancel_spec (ho.ok state.session (by simp)) ho.denotes (ho.entries_inflight (by simp)) disp).1

theorem act_cancel (hc : s.consumers c = some state) (hq : s.queues state.queueId = some queue)
    (disp : CancelDisposition) :
    s.act (.cancel c disp) =
      (s.removeConsumer c state queue disp).emit (.consumer c .cancelled) := by
  simp only [act, hc, hq]

/-- **A cancelled consumer**: its messages are requeued or dropped, and
its seat is gone. -/
theorem view_cancel (h : Coherent s) (hc : s.consumers c = some state) (disp : CancelDisposition) :
    (s.act (.cancel c disp)).view =
      ⟨update s.view.state state.queueId (setAll (s.view.state state.queueId)
          (state.session.entries.map Prod.snd) (outcome (decide (disp = .requeueUnacked)))),
        update s.view.seat c none⟩ := by
  obtain ⟨queue, st, pre, post, hq, -, howns⟩ := h.owns_of hc
  have hden := (cancel_settles howns disp).denotes
  rw [taken_all fun _ _ => rfl, dispositionTarget_eq_outcome] at hden
  rw [act_cancel hc hq]
  change (s.removeConsumer c state queue disp).view = _
  rw [view_removeConsumer c state queue disp hden, ← view_state_of hq howns.denotes]

theorem hasEffect_cancel (h : Coherent s) (c : Nat) (disp : CancelDisposition) :
    HasEffect s (decide (disp = .requeueUnacked)) (s.act (.cancel c disp)) := by
  cases hc : s.consumers c with
  | none => simpa only [act, hc] using hasEffect_refl h _
  | some state =>
    obtain ⟨queue, st, pre, post, hq, -, howns⟩ := h.owns_of hc
    refine ⟨?_, [.consumer c .cancelled], by rw [act_cancel hc hq]; rfl, ?_⟩
    · rw [act_cancel hc hq]
      refine Coherent.congr (h.remove hc hq fun st' pre post ho => ?_) rfl rfl
      have hset := cancel_settles ho disp
      refine ⟨_, (ho.settle (by cases disp <;> simp [CancelDisposition.target]) hset).leave ?_⟩
      rw [hset.entries]
      exact taken_none fun _ _ => rfl
    · rw [view_cancel h hc]
      refine .cancelled c state.seat (view_seat_of hc) fun e he => ?_
      change s.view.state state.queueId e.2 = _
      rw [view_state_of hq howns.denotes]
      exact howns.entries_inflight (by simp) e he

/-- **Every action of a coherent executor has an effect.** -/
theorem act_effect (h : Coherent s) (a : Action σ) : HasEffect s a.requeues (s.act a) := by
  cases a with
  | declare queueId => exact hasEffect_declare h queueId _
  | publish batch => exact hasEffect_publish h batch _
  | persist d =>
    have hcoh : Coherent (s.act (.persist d)) := h.congr rfl rfl
    exact hasEffect_same hcoh rfl rfl _
  | start cmd => exact hasEffect_start h cmd _
  | deliver c => exact hasEffect_deliver h c _
  | ack c req =>
    rw [act_ack]
    exact hasEffect_nack h c _
  | nack c req => exact hasEffect_nack h c req
  | cancel c disp => exact hasEffect_cancel h c disp
  | retry queueId => exact hasEffect_retry h queueId _
  | rotate queueId index => exact hasEffect_rotate h queueId index _
  | settlement batch => exact hasEffect_emit h (e := .settlement batch) trivial _
  | confirm batch => exact hasEffect_emit h (e := .confirm batch) trivial _
  | error errors => exact hasEffect_emit h (e := .error errors) trivial _

/-! ## What an action writes -/

variable (s)

/-- `next_seq` of a queue of the executor; 0 if there is none. -/
def InMemoryShardExecutor.nextSeqOf (queueId : Nat) : Nat :=
  ((s.queues queueId).map fun queue => queue.queue.nextSeq).getD 0

/-- The handles of the messages of a queue. -/
def InMemoryShardExecutor.payloadsOf (queueId : Nat) : Nat → Option Nat :=
  ((s.queues queueId).map QueueState.seqPayloads).getD fun _ => none

/-- The channel of a registered consumer. -/
def InMemoryShardExecutor.channelOf (c : Nat) : Option Nat :=
  (s.consumers c).map channelId

variable {s}

/-- The consumer events an action may report. -/
def Action.Reports : Action σ → Nat → ConsumerEventKind → Prop
  | .start cmd, c, kind => cmd.consumerId = c ∧ kind = .started
  | .cancel c' _, c, kind => c' = c ∧ kind = .cancelled
  | _, _, _ => False

/-- **What an action writes** beside the states and seats of the messages. -/
structure Writes (s : InMemoryShardExecutor σ) (a : Action σ) (s' : InMemoryShardExecutor σ) :
    Prop where
  shardId : s'.shardId = s.shardId
  /-- only a publish adds messages and handles -/
  queues : (∀ batch, a ≠ .publish batch) →
    s'.payloadsOf = s.payloadsOf ∧ (Coherent s → s'.nextSeqOf = s.nextSeqOf)
  /-- a consumer that is not registered may be started, and one may be
  cancelled -/
  channels : s'.channelOf = s.channelOf ∨
    (∃ cmd, a = .start cmd ∧ s.channelOf cmd.consumerId = none ∧
      s'.channelOf = update s.channelOf cmd.consumerId (some cmd.channelId)) ∨
    ∃ c disp, a = .cancel c disp ∧ s'.channelOf = update s.channelOf c none
  /-- a consumer is reported by no action that does not name it, and
  driving a queue sends deliveries only -/
  events : ∃ es, s'.sink = s.sink ++ es ∧
    (∀ c kind, Event.consumer c kind ∈ es → a.Reports c kind) ∧
    (a.Drives → ∀ e ∈ es, ∃ batch, e = .delivery batch)

section

variable {a : Action σ} {k : Nat} {queue' : QueueState} {state' : ConsumerRuntimeState}

theorem channelOf_update {entry : Option ConsumerRuntimeState} {channel : Option Nat}
    (hs' : s'.consumers = update s.consumers c entry)
    (hentry : entry.map channelId = channel) :
    s'.channelOf = update s.channelOf c channel := by
  funext j
  by_cases hj : j = c <;> simp [channelOf, hs', hj, hentry]

theorem channelOf_eq (hc : s.consumers c = some state)
    (hs' : s'.consumers = update s.consumers c (some state'))
    (hid : state'.channelId = state.channelId) : s'.channelOf = s.channelOf := by
  rw [channelOf_update hs' rfl, update_eq_self_iff, channelOf, hc, map_some,
    map_some, hid]

/-- The entry of a queue replaced by one with as many messages and the
same handles. -/
theorem keeps_update (hs' : s'.queues = update s.queues k (some queue'))
    (hp : queue'.seqPayloads = s.payloadsOf k)
    (hn : Coherent s → queue'.queue.nextSeq = s.nextSeqOf k) :
    s'.payloadsOf = s.payloadsOf ∧ (Coherent s → s'.nextSeqOf = s.nextSeqOf) := by
  refine ⟨funext fun j => ?_, fun h => funext fun j => ?_⟩
  · by_cases hj : j = k
    · simp [payloadsOf, hs', hj, hp]
    · simp [payloadsOf, hs', hj]
  · by_cases hj : j = k
    · simp [nextSeqOf, hs', hj, hn h]
    · simp [nextSeqOf, hs', hj]

theorem keeps_entry (hq : s.queues k = some queue)
    (hs' : s'.queues = update s.queues k (some queue'))
    (hp : queue'.seqPayloads = queue.seqPayloads)
    (hn : Coherent s → queue'.queue.nextSeq = queue.queue.nextSeq) :
    s'.payloadsOf = s.payloadsOf ∧ (Coherent s → s'.nextSeqOf = s.nextSeqOf) :=
  keeps_update hs' (by rw [hp, payloadsOf, hq]; rfl) fun h => by rw [hn h, nextSeqOf, hq]; rfl

/-- No consumer comes or goes and nothing is sent. -/
theorem writes_silent (hshard : s'.shardId = s.shardId) (hqueues : (∀ batch, a ≠ .publish batch) →
      s'.payloadsOf = s.payloadsOf ∧ (Coherent s → s'.nextSeqOf = s.nextSeqOf))
    (hchannels : s'.channelOf = s.channelOf) (hsink : s'.sink = s.sink) : Writes s a s' :=
  ⟨hshard, hqueues, .inl hchannels, [], by rw [hsink, append_nil], by simp, by simp⟩

theorem writes_same (s : InMemoryShardExecutor σ) (a : Action σ) : Writes s a s :=
  writes_silent rfl (fun _ => ⟨rfl, fun _ => rfl⟩) rfl rfl

theorem writes_nack (s : InMemoryShardExecutor σ) (c : Nat) (req : NackRequest) :
    Writes s a (s.act (.nack c req)) := by
  simp only [act, onSession]
  split
  · exact writes_same s a
  · next state hc =>
    split
    · exact writes_same s a
    · next queue hq =>
      split
      · exact writes_same s a
      · next session q r hcall =>
        refine writes_silent rfl (fun _ => keeps_entry hq rfl rfl fun h => ?_)
          (channelOf_eq hc rfl rfl) rfl
        obtain ⟨queue', st, pre, post, hq', -, howns⟩ := h.owns_of hc
        obtain rfl := some.inj (hq.symm.trans hq')
        rcases howns.nack_cases (s := state.session) (by simp) req with
          ⟨session', q', heq, hset, -⟩ | ⟨heq, -⟩
        · cases hcall.symm.trans heq
          exact hset.nextSeq
        · cases hcall.symm.trans heq

theorem writes_deliver (s : InMemoryShardExecutor σ) (c : Nat) :
    Writes s (.deliver c) (s.act (.deliver c)) := by
  simp only [act, deliverRound]
  split
  · exact writes_same s _
  · next state hc =>
    split
    · next queue state' hq hc' =>
      obtain rfl := some.inj (hc.symm.trans hc')
      split
      · exact writes_silent rfl (fun _ => ⟨rfl, fun _ => rfl⟩) (channelOf_eq hc rfl rfl) rfl
      · next session q out n hcall =>
        have hkeeps : ∀ {s' : InMemoryShardExecutor σ}, s'.queues = update s.queues
            state.queueId (some { queue with queue := q }) →
            s'.payloadsOf = s.payloadsOf ∧ (Coherent s → s'.nextSeqOf = s.nextSeqOf) := by
          refine fun hs' => keeps_entry hq hs' rfl fun h => ?_
          obtain ⟨hstate, -⟩ := h.consumer c state hc
          obtain ⟨queue', st, pre, post, hq', -, howns⟩ := h.owns_of hc
          obtain rfl := some.inj (hq.symm.trans hq')
          obtain ⟨S, session', q', out', n', heq, hdel⟩ := deliverFromQueue_spec
            (howns.ok state.session (by simp)) howns.denotes hstate.session 256
          cases hcall.symm.trans heq
          exact hdel.nextSeq
        have hsame : Writes s (.deliver c) ((s.setQueue state.queueId
            { queue with queue := q }).setConsumer c
              { state with session := session, out := out }) :=
          writes_silent rfl (fun _ => hkeeps rfl) (channelOf_eq hc rfl rfl) rfl
        split
        · exact hsame
        · simp only [emitDelivery, setConsumer, update_self]
          split
          · exact hsame
          · refine ⟨rfl, fun _ => hkeeps rfl, .inl (channelOf_eq hc (update_idem ..) rfl),
              [_], rfl, by simp, by simp⟩
    · exact writes_same s _

/-- **Every action writes no more than that.** -/
theorem act_writes (s : InMemoryShardExecutor σ) (a : Action σ) : Writes s a (s.act a) := by
  cases a with
  | declare queueId =>
    simp only [act]
    split
    · next hq =>
      refine writes_silent rfl (fun _ => keeps_update rfl ?_ fun _ => ?_) rfl rfl
      · rw [payloadsOf, hq]
        rfl
      · rw [nextSeqOf, hq]
        rfl
    · exact writes_same s _
  | publish batch =>
    simp only [act]
    split
    · exact writes_same s _
    · exact writes_silent rfl (fun h => absurd rfl (h batch)) rfl rfl
  | persist d => exact writes_silent rfl (fun _ => ⟨rfl, fun _ => rfl⟩) rfl rfl
  | start cmd =>
    simp only [act]
    split
    · next queue hq hc =>
      refine ⟨rfl, fun _ => keeps_entry hq rfl ?_ fun _ => ?_,
        .inr (.inl ⟨cmd, rfl, by rw [channelOf, hc]; rfl, channelOf_update rfl rfl⟩),
        [.consumer cmd.consumerId .started], rfl, by simp [Action.Reports, eq_comm], False.elim⟩
      · rw [QueueState.attach]
        split <;> rfl
      · rw [QueueState.attach]
        split <;> rfl
    · exact writes_same s _
  | deliver c => exact writes_deliver s c
  | ack c req =>
    rw [act_ack]
    exact writes_nack s c _
  | nack c req => exact writes_nack s c req
  | cancel c disp =>
    simp only [act]
    split
    · exact writes_same s _
    · next state hc =>
      split
      · exact writes_same s _
      · next queue hq =>
        refine ⟨rfl, fun _ => keeps_entry hq rfl rfl fun h => ?_,
          .inr (.inr ⟨c, disp, rfl, channelOf_update rfl rfl⟩),
          [.consumer c .cancelled], rfl, by simp [Action.Reports, eq_comm], False.elim⟩
        obtain ⟨queue', st, pre, post, hq', -, howns⟩ := h.owns_of hc
        obtain rfl := some.inj (hq.symm.trans hq')
        exact (cancel_settles howns disp).nextSeq
  | retry queueId =>
    simp only [act, retryQueue]
    split
    · exact writes_same s _
    · next queue hq =>
      refine writes_silent rfl (fun _ => keeps_entry hq rfl rfl fun h => ?_) rfl rfl
      obtain ⟨st, hst⟩ := h.queue _ queue hq
      obtain ⟨S, -, -, -, -, hnext⟩ := hst.owns.denotes.retryAllNow
      exact hnext
  | rotate queueId index =>
    simp only [act]
    split
    · exact writes_same s _
    · next queue hq =>
      exact writes_silent rfl (fun _ => keeps_entry hq rfl rfl fun _ => rfl) rfl rfl
  | settlement batch | confirm batch | error batch =>
    exact ⟨rfl, fun _ => ⟨rfl, fun _ => rfl⟩, .inl rfl, [_], rfl, by simp, False.elim⟩

end

theorem reaches_nextSeq (h : Coherent s)
    (hr : Reaches (fun a => ∀ batch, a ≠ .publish batch) s s') (k : Nat) :
    s'.nextSeqOf k = s.nextSeqOf k := by
  obtain ⟨actions, hall, rfl⟩ := hr
  induction actions generalizing s with
  | nil => rfl
  | cons a actions ih =>
    rw [foldl_cons, ih (act_effect h a).1 fun b hb => hall b (by simp [hb]),
      ((act_writes s a).queues (hall a (by simp))).2 h]

theorem coherent_foldl (h : Coherent s) (actions : List (Action σ)) :
    Coherent (actions.foldl act s) := by
  induction actions generalizing s with
  | nil => exact h
  | cons a actions ih => exact ih (act_effect h a).1

theorem coherent_of_reaches {P : Action σ → Prop} (h : Coherent s) (hreach : Reaches P s s') :
    Coherent s' := by
  obtain ⟨actions, -, rfl⟩ := hreach
  exact coherent_foldl h actions

theorem coherent_run (store : ShardStorage σ) (shardId : Nat) (durable : Option σ)
    (batches : List ShardCommandBatch) : Coherent ((new shardId durable).run store batches) :=
  coherent_of_reaches (coherent_new shardId durable)
    (reaches_run (fun _ => trivial) store (new shardId durable) batches)

end Aurum.Broker
