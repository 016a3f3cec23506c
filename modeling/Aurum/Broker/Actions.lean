import Aurum.Broker.Shard
import Aurum.Consumer.SessionSpec

/-!
# Broker — the executor as a sequence of actions

Every command handler of the executor is a sequence of primitive actions:
one queue is created, one session takes, settles or gives back messages
of its queue, one event is sent. Between two actions nothing happens, so
a property of every action is a property of every run, whatever the
nesting of the loops of `drive_queue` and `deliver_consumer`.
-/

namespace Aurum.Broker

open Aurum.Bits Aurum.Queue Aurum.Consumer Aurum.Protocol List Function

/-- The primitive actions of an executor. -/
inductive Action (σ : Type) where
  | declare (queueId : Nat)
  | publish (batch : ShardPublishBatch)
  | persist (d : σ)
  | start (cmd : ConsumeStart)
  | deliver (consumerId : Nat)
  | ack (consumerId : Nat) (req : AckRequest)
  | nack (consumerId : Nat) (req : NackRequest)
  | cancel (consumerId : Nat) (disp : CancelDisposition)
  | retry (queueId : Nat)
  | rotate (queueId index : Nat)
  | settlement (batch : SettlementResultBatch)
  | confirm (batch : PublishConfirmBatch)
  | error (errors : List CommandError)

/-- Actions that name no consumer a client asked for and add no messages. -/
def Action.plain {σ : Type} : Action σ → Bool
  | .publish _ | .start _ | .ack _ _ | .nack _ _ | .cancel _ _ => false
  | _ => true

/-- The actions of `drive_queue`. -/
def Action.Drives {σ : Type} : Action σ → Prop
  | .deliver _ | .rotate _ _ => True
  | _ => False

theorem Action.Drives.plain {σ : Type} {a : Action σ} (h : a.Drives) : a.plain = true := by
  cases a with
  | deliver c => rfl
  | rotate q i => rfl
  | _ => exact absurd h id

namespace InMemoryShardExecutor

variable {σ : Type}

/-- A call on the session of a consumer and its queue. -/
def onSession {β : Type} (s : InMemoryShardExecutor σ) (consumerId : Nat)
    (call : ConsumerSession → HybridRangeBlockQueue →
      Except ConsumerError (ConsumerSession × HybridRangeBlockQueue × β)) :
    InMemoryShardExecutor σ :=
  match s.consumers consumerId with
  | none => s
  | some state =>
    match s.queues state.queueId with
    | none => s
    | some queue =>
      match call state.session queue.queue with
      | .error _ => s
      | .ok (session, q, _) => s.putBack consumerId state queue session q

/-- What an action does. -/
def act (s : InMemoryShardExecutor σ) : Action σ → InMemoryShardExecutor σ
  | .declare queueId =>
    match s.queues queueId with
    | none => s.setQueue queueId QueueState.empty
    | some _ => s
  | .publish batch =>
    match s.queues batch.queueId with
    | none => s
    | some queue => s.setQueue batch.queueId (publishTo queue batch)
  | .persist d => { s with durable := some d }
  | .start cmd =>
    match s.queues cmd.queueId, s.consumers cmd.consumerId with
    | some queue, none =>
      ((s.setConsumer cmd.consumerId (startState cmd)).setQueue cmd.queueId
        (queue.attach cmd.consumerId)).emit (.consumer cmd.consumerId .started)
    | _, _ => s
  | .deliver consumerId =>
    match s.consumers consumerId with
    | none => s
    | some state => (s.deliverRound state.queueId consumerId).1
  | .ack consumerId req => s.onSession consumerId fun session queue => session.ack req queue
  | .nack consumerId req => s.onSession consumerId fun session queue => session.nack req queue
  | .cancel consumerId disp =>
    match s.consumers consumerId with
    | none => s
    | some state =>
      match s.queues state.queueId with
      | none => s
      | some queue =>
        (s.removeConsumer consumerId state queue disp).emit (.consumer consumerId .cancelled)
  | .retry queueId => s.retryQueue queueId
  | .rotate queueId index =>
    match s.queues queueId with
    | none => s
    | some queue => s.setQueue queueId { queue with nextConsumerIndex := index }
  | .settlement batch => s.emit (.settlement batch)
  | .confirm batch => s.emit (.confirm batch)
  | .error errors => s.emit (.error errors)

/-- `s'` is `s` after some actions, all of which satisfy `P`. -/
def Reaches (P : Action σ → Prop) (s s' : InMemoryShardExecutor σ) : Prop :=
  ∃ actions : List (Action σ), (∀ a ∈ actions, P a) ∧ actions.foldl act s = s'

variable {P : Action σ → Prop}

theorem Reaches.refl (s : InMemoryShardExecutor σ) : Reaches P s s := ⟨[], by simp, rfl⟩

variable {s s' : InMemoryShardExecutor σ} {reason : NackReason} {cmd : NackCommand}
  {r : AckApplyResult} {consumerId queueId : Nat} {items : List RejectCommand}

theorem Reaches.trans {s'' : InMemoryShardExecutor σ} (h : Reaches P s s') (h' : Reaches P s' s'') :
    Reaches P s s'' := by
  obtain ⟨as, has, rfl⟩ := h
  obtain ⟨bs, hbs, rfl⟩ := h'
  refine ⟨as ++ bs, fun a ha => ?_, foldl_append⟩
  rcases mem_append.mp ha with ha | ha
  · exact has a ha
  · exact hbs a ha

theorem reaches_act (s : InMemoryShardExecutor σ) {a : Action σ} (ha : P a) :
    Reaches P s (s.act a) :=
  ⟨[a], by simpa using ha, rfl⟩

theorem Reaches.mono {Q : Action σ → Prop} (h : Reaches P s s') (hPQ : ∀ a, P a → Q a) :
    Reaches Q s s' := by
  obtain ⟨actions, hall, heq⟩ := h
  exact ⟨actions, fun a ha => hPQ a (hall a ha), heq⟩

/-- A fold of steps that are actions is actions. -/
theorem reaches_foldl {α : Type} {f : InMemoryShardExecutor σ → α → InMemoryShardExecutor σ} :
    ∀ {items : List α} (_ : ∀ s, ∀ a ∈ items, Reaches P s (f s a)) (s : InMemoryShardExecutor σ),
      Reaches P s (items.foldl f s) := by
  intro items
  induction items with
  | nil => exact fun _ s => .refl s
  | cons a items ih =>
    intro hf s
    exact (hf s a mem_cons_self).trans
      (ih (fun s b hb => hf s b (mem_cons_of_mem a hb)) (f s a))

/-! ## Writing a session back -/

section

variable {state : ConsumerRuntimeState} {queue : QueueState}

@[simp] theorem putBack_consumers (session : ConsumerSession) (q : HybridRangeBlockQueue) :
    (s.putBack consumerId state queue session q).consumers =
      update s.consumers consumerId (some { state with session := session }) := rfl

@[simp] theorem putBack_queues (session : ConsumerSession) (q : HybridRangeBlockQueue) :
    (s.putBack consumerId state queue session q).queues =
      update s.queues state.queueId (some { queue with queue := q }) := rfl

theorem putBack_self (hc : s.consumers consumerId = some state)
    (hq : s.queues state.queueId = some queue) :
    s.putBack consumerId state queue state.session queue.queue = s := by
  have h1 : update s.consumers consumerId (some state) = s.consumers := by
    rw [← hc, update_eq_self]
  have h2 : update s.queues state.queueId (some queue) = s.queues := by
    rw [← hq, update_eq_self]
  simp only [putBack, setConsumer, setQueue, h1, h2]

theorem putBack_putBack (session session' : ConsumerSession) (q q' : HybridRangeBlockQueue) :
    (s.putBack consumerId state queue session q).putBack consumerId
      { state with session := session } { queue with queue := q } session' q' =
      s.putBack consumerId state queue session' q' := by
  simp [putBack, setConsumer, setQueue]

/-- A call on a session that was just written back. -/
theorem onSession_putBack {β : Type} (session : ConsumerSession) (q : HybridRangeBlockQueue)
    (call : ConsumerSession → HybridRangeBlockQueue →
      Except ConsumerError (ConsumerSession × HybridRangeBlockQueue × β)) :
    (s.putBack consumerId state queue session q).onSession consumerId call =
      match call session q with
      | .error _ => s.putBack consumerId state queue session q
      | .ok (session', q', _) => s.putBack consumerId state queue session' q' := by
  simp only [onSession, putBack_consumers, putBack_queues, update_self]
  cases call session q with
  | error e => rfl
  | ok res => exact putBack_putBack session res.1 q res.2.1

theorem onSession_eq {β : Type} (hc : s.consumers consumerId = some state)
    (hq : s.queues state.queueId = some queue)
    (call : ConsumerSession → HybridRangeBlockQueue →
      Except ConsumerError (ConsumerSession × HybridRangeBlockQueue × β)) :
    s.onSession consumerId call =
      match call state.session queue.queue with
      | .error _ => s
      | .ok (session, q, _) => s.putBack consumerId state queue session q := by
  simp only [onSession, hc, hq]

/-- An ack does what the nack does that drops its messages. -/
theorem act_ack (s : InMemoryShardExecutor σ) (c : Nat) (req : AckRequest) :
    s.act (.ack c req) = s.act (.nack c ⟨req.tag, req.mode, .reject⟩) := by
  simp only [act, onSession]
  split
  · rfl
  · next state _ =>
    split
    · rfl
    · next queue _ =>
      rcases ack_drops state.session req queue.queue with
        ⟨e, hack, hnack⟩ | ⟨session, q, r, ranges, hack, hnack⟩
      · simp only [hack, hnack]
      · simp only [hack, hnack]

end

/-! ## The requests of a settlement command -/

/-- One request on a session and its queue: what it settles is added up,
and a refused one is skipped. -/
def requestStep (reason : NackReason) (acc : ConsumerSession × HybridRangeBlockQueue × Nat)
    (req : AckRequest) : ConsumerSession × HybridRangeBlockQueue × Nat :=
  match acc.1.nack ⟨req.tag, req.mode, reason⟩ acc.2.1 with
  | .error _ => acc
  | .ok (session, queue, r) => (session, queue, (acc.2.2 + r.nacked) % 2 ^ 32)

def nackRequests : NackCommand → List AckRequest
  | .tag tag mode _ => [⟨tag, mode⟩]
  | .range _ last _ => [⟨last, .multiple⟩]
  | .mask base mask _ => (nackMaskTags base 64 mask 0).map (⟨·, .one⟩)

def ackRequests : AckCommand → List AckRequest
  | .tag tag mode => [⟨tag, mode⟩]
  | .range _ last => [⟨last, .multiple⟩]
  | .mask base mask => (ackMaskTags base 64 mask 0).map (⟨·, .one⟩)

section

variable {session session' : ConsumerSession} {queue queue' : HybridRangeBlockQueue}

theorem requestStep_of {req : AckRequest} {r : NackApplyResult}
    (h : session.nack ⟨req.tag, req.mode, reason⟩ queue = .ok (session', queue', r)) :
    requestStep reason (session, queue, 0) req = (session', queue', r.nacked) := by
  simp only [requestStep, h, Nat.zero_add, Nat.mod_eq_of_lt (nacked_lt h)]

/-- **The session calls of a nack command** are its requests in order. -/
theorem nackSession_requests {n : Nat}
    (h : nackSession session queue cmd = .ok (session', queue', n)) :
    (nackRequests cmd).foldl (requestStep (toReason cmd.disposition)) (session, queue, 0) =
      (session', queue', n) := by
  have hone : ∀ tag mode reason, ((session.nack ⟨tag, mode, reason⟩ queue).bind fun res =>
      .ok (res.1, res.2.1, res.2.2.nacked)) = .ok (session', queue', n) →
      requestStep reason (session, queue, 0) ⟨tag, mode⟩ = (session', queue', n) := by
    intro tag mode reason hres
    cases hnack : session.nack ⟨tag, mode, reason⟩ queue with
    | error e =>
      rw [hnack] at hres
      cases hres
    | ok res =>
      rw [hnack] at hres
      exact (requestStep_of hnack).trans (Except.ok.inj hres)
  cases cmd with
  | tag tag mode disposition => exact hone _ _ _ h
  | range start last disposition => exact hone _ _ _ h
  | mask base mask disposition =>
    rw [nackRequests, foldl_map]
    exact Except.ok.inj h

/-- **So are those of an ack command**, which drop their messages. -/
theorem ackSession_requests {cmd : AckCommand}
    (h : ackSession session queue cmd = .ok (session', queue', r)) :
    (ackRequests cmd).foldl (requestStep .reject) (session, queue, 0) =
      (session', queue', r.acked) := by
  have hone : ∀ req, session.ack req queue = .ok (session', queue', r) →
      requestStep .reject (session, queue, 0) req = (session', queue', r.acked) := by
    intro req hres
    rcases ack_drops session req queue with ⟨e, hack, -⟩ | ⟨s', q', n, ranges, hack, hnack⟩
    · cases hack.symm.trans hres
    · cases hack.symm.trans hres
      rw [requestStep_of hnack]
  cases cmd with
  | tag tag mode => exact hone _ h
  | range start last => exact hone _ h
  | mask base mask =>
    -- both loops take the same rounds; one of them also collects ranges
    have hround : ∀ (acc : ConsumerSession × HybridRangeBlockQueue × AckApplyResult) tag,
        requestStep .reject (acc.1, acc.2.1, acc.2.2.acked) ⟨tag, .one⟩ =
          ((ackMaskStep acc tag).1, (ackMaskStep acc tag).2.1,
           (ackMaskStep acc tag).2.2.acked) := by
      intro acc tag
      rcases ack_drops acc.1 ⟨tag, .one⟩ acc.2.1 with
        ⟨e, hack, hnack⟩ | ⟨s', q', r, ranges, hack, hnack⟩
      · simp only [requestStep, ackMaskStep, hack, hnack]
      · simp only [requestStep, ackMaskStep, hack, hnack]
    rw [ackRequests, foldl_map]
    have hloop := @foldl_hom _ _ _ (fun acc : ConsumerSession × HybridRangeBlockQueue ×
      AckApplyResult => (acc.1, acc.2.1, acc.2.2.acked)) ackMaskStep
      (fun acc tag => requestStep .reject acc ⟨tag, .one⟩) (ackMaskTags base 64 mask 0)
      (session, queue, ⟨0, 0, []⟩) hround
    rw [Except.ok.inj h] at hloop
    exact hloop

end

section

variable {state : ConsumerRuntimeState} {queue : QueueState} {session : ConsumerSession}
  {q : HybridRangeBlockQueue} {n : Nat}

/-- Requests are actions. -/
theorem reaches_requests (hP : ∀ req : AckRequest, ∃ a, P a ∧ ∀ s : InMemoryShardExecutor σ,
      s.act a = s.act (.nack consumerId ⟨req.tag, req.mode, reason⟩))
    (hc : s.consumers consumerId = some state) (hq : s.queues state.queueId = some queue)
    {reqs : List AckRequest}
    (h : reqs.foldl (requestStep reason) (state.session, queue.queue, 0) = (session, q, n)) :
    Reaches P s (s.putBack consumerId state queue session q) := by
  have hall := @List.foldlRecOn _ _ (fun acc => Reaches P s (s.putBack consumerId state queue acc.1
    acc.2.1)) reqs (requestStep reason) (state.session, queue.queue, 0)
    (by rw [putBack_self hc hq]; exact .refl s) fun acc hacc req _ => ?_
  · rwa [h] at hall
  · obtain ⟨a, ha, hact⟩ := hP req
    have hstep := reaches_act (s.putBack consumerId state queue acc.1 acc.2.1) ha
    rw [hact, act, onSession_putBack] at hstep
    refine hacc.trans ?_
    rw [requestStep]
    cases hnack : acc.1.nack ⟨req.tag, req.mode, reason⟩ acc.2.1 with
    | error e => exact .refl _
    | ok res =>
      rw [hnack] at hstep
      exact hstep

/-- The session calls of an ack command. -/
theorem reaches_ackSession (hP : ∀ req, P (.ack consumerId req))
    (hc : s.consumers consumerId = some state) (hq : s.queues state.queueId = some queue)
    {cmd : AckCommand} (h : ackSession state.session queue.queue cmd = .ok (session, q, r)) :
    Reaches P s (s.putBack consumerId state queue session q) :=
  reaches_requests (fun req => ⟨.ack consumerId req, hP req, fun s => act_ack s consumerId req⟩)
    hc hq (ackSession_requests h)

/-- The session calls of a nack command. -/
theorem reaches_nackSession
    (hP : ∀ tag mode, P (.nack consumerId ⟨tag, mode, toReason cmd.disposition⟩))
    (hc : s.consumers consumerId = some state) (hq : s.queues state.queueId = some queue)
    (h : nackSession state.session queue.queue cmd = .ok (session, q, n)) :
    Reaches P s (s.putBack consumerId state queue session q) :=
  reaches_requests (fun req => ⟨_, hP req.tag req.mode, fun _ => rfl⟩) hc hq
    (nackSession_requests h)

/-- The session call of a reject command. -/
theorem reaches_rejectSession {cmd : RejectCommand}
    (hP : ∀ tag mode, P (.nack consumerId ⟨tag, mode, toReason cmd.disposition⟩))
    (hc : s.consumers consumerId = some state) (hq : s.queues state.queueId = some queue)
    (h : rejectSession state.session queue.queue cmd = .ok (session, q, n)) :
    Reaches P s (s.putBack consumerId state queue session q) :=
  @reaches_nackSession _ P s (.tag cmd.tag .one cmd.disposition) consumerId state queue session q
    n hP hc hq h

end

/-! ## Delivery -/

theorem emitDelivery_queueId {k : Nat} :
    ((s.emitDelivery consumerId queueId).consumers k).map ConsumerRuntimeState.queueId =
      (s.consumers k).map ConsumerRuntimeState.queueId := by
  unfold emitDelivery
  split
  · rfl
  · next state hc =>
    split
    · rfl
    · simp only [emit, setConsumer]
      by_cases hk : k = consumerId
      · subst hk
        simp [hc]
      · simp [hk]

variable (s)

/-- A round of delivery keeps every consumer at its queue. -/
theorem deliverRound_queueId (queueId consumerId k : Nat) :
    (((s.deliverRound queueId consumerId).1.consumers k).map ConsumerRuntimeState.queueId) =
      (s.consumers k).map ConsumerRuntimeState.queueId := by
  have hset : ∀ (s : InMemoryShardExecutor σ) (state state' : ConsumerRuntimeState),
      s.consumers consumerId = some state → state'.queueId = state.queueId →
      ((s.setConsumer consumerId state').consumers k).map ConsumerRuntimeState.queueId =
        (s.consumers k).map ConsumerRuntimeState.queueId := by
    intro s state state' hc hq
    simp only [setConsumer]
    by_cases hk : k = consumerId
    · subst hk
      simp [hc, hq]
    · simp [hk]
  unfold deliverRound
  split
  · next queue state hq hc =>
    split
    · exact hset s state _ hc rfl
    · next session q out n _ =>
      dsimp only
      split
      · exact hset (s.setQueue queueId { queue with queue := q }) state _ hc rfl
      · rw [emitDelivery_queueId]
        exact hset (s.setQueue queueId { queue with queue := q }) state _ hc rfl
  · rfl

/-! ## Command handlers -/

theorem reaches_execWith (consumerId : Nat) {call : ConsumerSession → HybridRangeBlockQueue →
      Except ConsumerError (ConsumerSession × HybridRangeBlockQueue × Nat)}
    (hcall : ∀ state queue session q n, s.consumers consumerId = some state →
      s.queues state.queueId = some queue →
      call state.session queue.queue = .ok (session, q, n) →
      Reaches P s (s.putBack consumerId state queue session q)) :
    Reaches P s (s.execWith consumerId call).1 := by
  unfold execWith
  split
  · exact .refl s
  · next state hc =>
    split
    · exact .refl s
    · next queue hq =>
      split
      · exact .refl s
      · next session q n h => exact hcall state queue session q n hc hq h

variable {s}

theorem reaches_execAckCommand (hpersist : ∀ d, P (.persist d)) (store : ShardStorage σ)
    (s : InMemoryShardExecutor σ) (hA : ∀ req, P (.ack consumerId req)) (cmd : AckCommand) :
    Reaches P s (execAckCommand store s consumerId cmd).1 := by
  unfold execAckCommand
  split
  · exact .refl s
  · next state hc =>
    split
    · exact .refl s
    · next queue hq =>
      split
      · exact .refl s
      · next session q result hack =>
        have hput := reaches_ackSession hA hc hq hack
        dsimp only
        split
        · exact hput
        · exact hput.trans (reaches_act _ (hpersist _))

theorem reaches_settleItems {α : Type}
    {exec : InMemoryShardExecutor σ → α → InMemoryShardExecutor σ × Except CommandError Nat}
    (hexec : ∀ s a, Reaches P s (exec s a).1) :
    ∀ (items : List α) (s : InMemoryShardExecutor σ) (settled : Nat) (errs : List CommandError),
      Reaches P s (settleItems exec items s settled errs).1 := by
  intro items
  induction items with
  | nil => exact fun s _ _ => .refl s
  | cons cmd items ih =>
    intro s settled errs
    have h := hexec s cmd
    rw [settleItems]
    split <;> next heq => exact (heq ▸ h).trans (ih _ _ _)

section

variable (s : InMemoryShardExecutor σ) {c : Nat}

theorem reaches_ackItems (hpersist : ∀ d, P (.persist d)) (hA : ∀ req, P (.ack c req))
    (store : ShardStorage σ) (items : List AckCommand) :
    Reaches P s (settleItems (ackItem store c) items s 0 []).1 :=
  reaches_settleItems (fun s cmd => reaches_execAckCommand hpersist store s hA cmd) items s 0 []

theorem reaches_nackItems (hN : ∀ tag mode reason, P (.nack c ⟨tag, mode, reason⟩))
    (items : List NackCommand) :
    Reaches P s (settleItems (fun s => s.execNackCommand c) items s 0 []).1 :=
  reaches_settleItems (fun s _ => reaches_execWith s c fun _ _ _ _ _ hc hq h =>
    reaches_nackSession (fun tag mode => hN tag mode _) hc hq h) items s 0 []

theorem reaches_rejectItems (hN : ∀ tag mode reason, P (.nack c ⟨tag, mode, reason⟩))
    (items : List RejectCommand) :
    Reaches P s (settleItems (fun s => s.execRejectCommand c) items s 0 []).1 :=
  reaches_settleItems (fun s _ => reaches_execWith s c fun _ _ _ _ _ hc hq h =>
    reaches_rejectSession (fun tag mode => hN tag mode _) hc hq h) items s 0 []

end

section

variable {ids : List Nat} (hdeliver : ∀ c ∈ ids, P (.deliver c))
include hdeliver

theorem reaches_deliverLoop {c : Nat} (hc : c ∈ ids) :
    ∀ (rounds : Nat) (s : InMemoryShardExecutor σ) (total : Nat),
      (s.consumers c).map ConsumerRuntimeState.queueId = some queueId →
      Reaches P s (deliverLoop queueId c rounds s total).1 := by
  intro rounds
  induction rounds with
  | zero => exact fun s _ _ => .refl s
  | succ rounds ih =>
    intro s total h
    have hround := reaches_act s (hdeliver c hc)
    obtain ⟨state, hstate, rfl⟩ := Option.map_eq_some_iff.mp h
    simp only [act, hstate] at hround
    rw [deliverLoop]
    dsimp only
    split
    · exact hround
    · exact hround.trans (ih _ _ (by rw [deliverRound_queueId, h]))

theorem reaches_deliverConsumer {c : Nat} (hc : c ∈ ids) (s : InMemoryShardExecutor σ) :
    Reaches P s (s.deliverConsumer c).1 := by
  unfold deliverConsumer
  split
  · exact .refl s
  · next state hstate => exact reaches_deliverLoop hdeliver hc _ s 0 (by rw [hstate]; rfl)

theorem reaches_drivePass (start : Nat) (s : InMemoryShardExecutor σ) :
    Reaches P s (drivePass ids start s).1 := by
  have hone : ∀ (acc : InMemoryShardExecutor σ × Nat) i,
      Reaches P acc.1 (driveOne ids start acc i).1 := by
    intro acc i
    unfold driveOne
    split
    · exact .refl _
    · next c hget => exact reaches_deliverConsumer hdeliver (mem_of_getElem? hget) _
  exact @List.foldlRecOn _ _ (fun acc => Reaches P s acc.1) _ _ (s, 0) (.refl s)
    fun acc h i _ => h.trans (hone acc i)

theorem reaches_driveLoop (hrotate : ∀ i, P (.rotate queueId i)) :
    ∀ (passes : Nat) (s : InMemoryShardExecutor σ),
      Reaches P s (driveLoop queueId ids passes s) := by
  intro passes
  induction passes with
  | zero => exact fun s => .refl s
  | succ passes ih =>
    intro s
    rw [driveLoop]
    dsimp only
    generalize ((s.queues queueId).map QueueState.nextConsumerIndex).getD 0 = start
    have hpass := reaches_drivePass hdeliver start s
    generalize drivePass ids start s = res at hpass ⊢
    split
    · exact hpass
    · exact hpass.trans ((reaches_act res.1 (hrotate ((start + 1) % ids.length))).trans (ih _))

end

/-- `drive_queue` delivers to the consumers of the queue and rotates. -/
theorem reaches_drive (hrotate : ∀ i, P (.rotate queueId i))
    (hdeliver : ∀ queue, s.queues queueId = some queue → ∀ c ∈ queue.consumers, P (.deliver c)) :
    Reaches P s (s.driveQueue queueId) := by
  unfold driveQueue
  split
  · exact .refl s
  · next queue hq =>
    split
    · exact .refl s
    · exact reaches_driveLoop (hdeliver queue hq) hrotate _ s

theorem drives_driveQueue (s : InMemoryShardExecutor σ) (queueId : Nat) :
    Reaches Action.Drives s (s.driveQueue queueId) :=
  reaches_drive (fun _ => trivial) fun _ _ _ _ => trivial

/-- **What comes after the items** of a settlement batch: if they settled
anything, the settlement event, what is done to the queue first, and a drive. -/
def afterItems (kind : SettlementKind)
    (first : InMemoryShardExecutor σ → Nat → InMemoryShardExecutor σ) (c n : Nat)
    (s : InMemoryShardExecutor σ) : InMemoryShardExecutor σ :=
  if 0 < n then
    let s := s.emit (.settlement ⟨c, kind, n⟩)
    match s.consumers c with
    | none => s
    | some state => (first s state.queueId).driveQueue state.queueId
  else s

section

variable {c n : Nat} {errs : List CommandError}

theorem execAckBatch_eq (store : ShardStorage σ) (s : InMemoryShardExecutor σ)
    {items : List AckCommand} (h : settleItems (ackItem store c) items s 0 [] = (s', n, errs)) :
    s.execAckBatch store c items = (afterItems .ack (fun s _ => s) c n s').reportErrors errs := by
  rw [execAckBatch, h]
  rfl

theorem execNackBatch_eq (s : InMemoryShardExecutor σ) {items : List NackCommand}
    (h : settleItems (fun s => s.execNackCommand c) items s 0 [] = (s', n, errs)) :
    s.execNackBatch c items = (afterItems .nack retryQueue c n s').reportErrors errs := by
  rw [execNackBatch, h]
  rfl

theorem execRejectBatch_eq (s : InMemoryShardExecutor σ)
    (h : settleItems (fun s => s.execRejectCommand c) items s 0 [] = (s', n, errs)) :
    s.execRejectBatch c items = afterItems .reject (fun s _ => s) c n s' := by
  rw [execRejectBatch, h]
  rfl

end

section

variable (hP : ∀ a : Action σ, a.plain = true → P a)
include hP

theorem reaches_driveQueue (s : InMemoryShardExecutor σ) (queueId : Nat) :
    Reaches P s (s.driveQueue queueId) :=
  (drives_driveQueue s queueId).mono fun a ha => hP a ha.plain

theorem reaches_reportErrors (s : InMemoryShardExecutor σ) (errs : List CommandError) :
    Reaches P s (s.reportErrors errs) := by
  unfold reportErrors
  split
  · exact .refl s
  · exact reaches_act s (hP (.error errs) rfl)

theorem reaches_execDeclareQueue (s : InMemoryShardExecutor σ) (queueId : Nat) :
    Reaches P s (s.execDeclareQueue queueId) := by
  unfold execDeclareQueue
  split
  · next hq =>
    have h := reaches_act s (hP (.declare queueId) rfl)
    simp only [act, hq] at h
    exact h
  · exact reaches_act s (hP (.error _) rfl)

theorem reaches_execPublish (store : ShardStorage σ) (s : InMemoryShardExecutor σ)
    {batch : ShardPublishBatch} (hpub : P (.publish batch)) :
    Reaches P s (s.execPublish store batch) := by
  unfold execPublish
  split
  · exact reaches_act s (hP (.error _) rfl)
  · next queue hq =>
    -- the store is the only part the append changes
    have hstore : Reaches P s (storePublish store s queue batch).1 ∧
        (storePublish store s queue batch).1.queues batch.queueId = some queue := by
      unfold storePublish
      split
      · exact ⟨.refl s, hq⟩
      · exact ⟨reaches_act s (hP (.persist _) rfl), hq⟩
    generalize storePublish store s queue batch = res at hstore ⊢
    obtain ⟨s1, ok⟩ := res
    obtain ⟨h1, hq1⟩ := hstore
    dsimp only at h1 hq1 ⊢
    cases ok with
    | false => exact h1.trans (reaches_act s1 (hP (.error _) rfl))
    | true =>
      have h2 := reaches_act s1 hpub
      simp only [act, hq1] at h2
      refine h1.trans (h2.trans ?_)
      dsimp only
      split
      · exact reaches_driveQueue hP _ _
      · exact (reaches_act _ (hP (.confirm _) rfl)).trans (reaches_driveQueue hP _ _)

theorem reaches_execConsumeStart (s : InMemoryShardExecutor σ) {cmd : ConsumeStart}
    (hS : P (.start cmd)) : Reaches P s (s.execConsumeStart cmd) := by
  unfold execConsumeStart
  split
  · exact reaches_act s (hP (.error _) rfl)
  · next queue hq =>
    split
    · exact reaches_act s (hP (.error _) rfl)
    · next hc =>
      have h := reaches_act s hS
      simp only [act, hq, hc] at h
      exact h.trans (reaches_driveQueue hP _ _)

theorem reaches_execCreditUpdate (s : InMemoryShardExecutor σ) (cmd : CreditUpdate) :
    Reaches P s (s.execCreditUpdate cmd) := by
  unfold execCreditUpdate
  split
  · exact reaches_act s (hP (.error _) rfl)
  · exact reaches_driveQueue hP s _

theorem reaches_afterItems {first : InMemoryShardExecutor σ → Nat → InMemoryShardExecutor σ}
    (hfirst : ∀ s q, Reaches P s (first s q)) (kind : SettlementKind) (c n : Nat)
    (s : InMemoryShardExecutor σ) : Reaches P s (afterItems kind first c n s) := by
  unfold afterItems
  split
  · refine (reaches_act s (hP (.settlement ⟨c, kind, n⟩) rfl)).trans ?_
    dsimp only
    split
    · exact .refl _
    · exact (hfirst _ _).trans (reaches_driveQueue hP _ _)
  · exact .refl _

/-- What an ack batch does after its items. -/
theorem reaches_ackReport (store : ShardStorage σ) (s : InMemoryShardExecutor σ) (consumerId : Nat)
    (items : List AckCommand) :
    Reaches P (settleItems (ackItem store consumerId) items s 0 []).1
      (s.execAckBatch store consumerId items) := by
  rw [execAckBatch_eq store s rfl]
  exact (reaches_afterItems hP (fun s _ => .refl s) _ _ _ _).trans (reaches_reportErrors hP _ _)

theorem reaches_execAckBatch (store : ShardStorage σ) (s : InMemoryShardExecutor σ)
    (hA : ∀ req, P (.ack consumerId req)) (items : List AckCommand) :
    Reaches P s (s.execAckBatch store consumerId items) :=
  (reaches_ackItems s (fun d => hP (.persist d) rfl) hA store items).trans
    (reaches_ackReport hP store s consumerId items)

/-- What a nack batch does after its items. -/
theorem reaches_nackReport (s : InMemoryShardExecutor σ) (consumerId : Nat)
    (items : List NackCommand) :
    Reaches P (settleItems (fun s => s.execNackCommand consumerId) items s 0 []).1
      (s.execNackBatch consumerId items) := by
  rw [execNackBatch_eq s rfl]
  exact (reaches_afterItems hP (fun s q => reaches_act s (hP (.retry q) rfl)) _ _ _ _).trans
    (reaches_reportErrors hP _ _)

theorem reaches_execNackBatch (s : InMemoryShardExecutor σ) (consumerId : Nat)
    {items : List NackCommand}
    (hN : ∀ tag mode reason, P (.nack consumerId ⟨tag, mode, reason⟩)) :
    Reaches P s (s.execNackBatch consumerId items) :=
  (reaches_nackItems s hN items).trans (reaches_nackReport hP s consumerId items)

theorem reaches_execRejectBatch (s : InMemoryShardExecutor σ) (consumerId : Nat)
    (hN : ∀ tag mode reason, P (.nack consumerId ⟨tag, mode, reason⟩)) :
    Reaches P s (s.execRejectBatch consumerId items) := by
  rw [execRejectBatch_eq s rfl]
  exact (reaches_rejectItems s hN items).trans
    (reaches_afterItems hP (fun s _ => .refl s) _ _ _ _)

theorem reaches_execCancel (s : InMemoryShardExecutor σ) {cmd : CancelConsumer}
    (hC : P (.cancel cmd.consumerId (toDisposition cmd.disposition))) :
    Reaches P s (s.execCancel cmd) := by
  unfold execCancel
  split
  · exact reaches_act s (hP (.error _) rfl)
  · next state hc =>
    split
    · exact reaches_act s (hP (.error _) rfl)
    · split
      · exact .refl s
      · next queue hq =>
        have h := reaches_act s hC
        simp only [act, hc, hq] at h
        refine h.trans ?_
        dsimp only
        split
        · exact reaches_driveQueue hP _ _
        · exact .refl _

end

/-- The actions a command batch may take: those it asks for, and plain
ones. -/
def Allows (batch : ShardCommandBatch) (a : Action σ) : Prop :=
  a.plain = true ∨
    match batch, a with
    | .publish b, .publish b' => b' = b
    | .consume items, .start cmd => cmd ∈ items
    | .ack c _, .ack c' _ => c' = c
    | .nack c _, .nack c' _ => c' = c
    | .reject c _, .nack c' _ => c' = c
    | .cancel items, .cancel c disp =>
      ∃ cmd ∈ items, cmd.consumerId = c ∧ toDisposition cmd.disposition = disp
    | _, _ => False

/-- **Every command batch is a sequence of the actions it asks for.** -/
theorem reaches_allowed (store : ShardStorage σ) (s : InMemoryShardExecutor σ)
    (batch : ShardCommandBatch) : Reaches (Allows batch) s (s.execute store batch) := by
  have hplain : ∀ a : Action σ, a.plain = true → Allows batch a := fun a ha => .inl ha
  cases batch with
  | declare items => exact reaches_foldl (fun s q _ => reaches_execDeclareQueue hplain s q) s
  | publish batch => exact reaches_execPublish hplain store s (.inr rfl)
  | consume items =>
    exact reaches_foldl (fun s cmd hcmd => reaches_execConsumeStart hplain s (.inr hcmd)) s
  | credit items => exact reaches_foldl (fun s cmd _ => reaches_execCreditUpdate hplain s cmd) s
  | ack consumerId items => exact reaches_execAckBatch hplain store s (fun _ => .inr rfl) items
  | nack consumerId items =>
    exact reaches_execNackBatch hplain s consumerId fun _ _ _ => .inr rfl
  | reject consumerId items =>
    exact reaches_execRejectBatch hplain s consumerId fun _ _ _ => .inr rfl
  | cancel items =>
    exact reaches_foldl
      (fun s cmd hcmd => reaches_execCancel hplain s (.inr ⟨cmd, hcmd, rfl, rfl⟩)) s

/-- Every command batch is a sequence of actions. -/
theorem reaches_execute (hP : ∀ a, P a) (store : ShardStorage σ) (s : InMemoryShardExecutor σ)
    (batch : ShardCommandBatch) : Reaches P s (s.execute store batch) :=
  (reaches_allowed store s batch).mono fun a _ => hP a

/-- **So is every run.** -/
theorem reaches_run (hP : ∀ a, P a) (store : ShardStorage σ) (s : InMemoryShardExecutor σ)
    (batches : List ShardCommandBatch) : Reaches P s (s.run store batches) :=
  reaches_foldl (fun s batch _ => reaches_execute hP store s batch) s

end InMemoryShardExecutor

end Aurum.Broker
