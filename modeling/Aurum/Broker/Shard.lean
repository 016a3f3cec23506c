import Aurum.Protocol
import Mathlib.Logic.Function.Basic

/-!
# Broker — the shard executor

`InMemoryShardExecutor` with its queue and consumer registries: command
batches go in, events leave through the sink. The sink is part of the
state, as the list of the calls made on it so far. The hash maps are
functions to `Option`; `QueueState.id` and the `ACTIVE` flags, which no
code reads, are left out.

`execute` always returns `Ok(())`, so the model returns the executor
alone. The durable store is a parameter: the executor only appends to
it, and learns whether the append succeeded.
-/

namespace Aurum.Broker

open Aurum.Bits Aurum.Queue Aurum.Consumer Aurum.Protocol Function

variable (queue : Option QueueState)

/-! ## Registries -/

structure QueueState where
  queue : HybridRangeBlockQueue
  consumers : List Nat
  nextConsumerIndex : Nat
  seqPayloads : Nat → Option Nat

/-- The entry `create_queue` inserts. -/
def QueueState.empty : QueueState := ⟨HybridRangeBlockQueue.empty, [], 0, fun _ => none⟩

/-- `attach_consumer`, on the entry of the queue. -/
def QueueState.attach (queue : QueueState) (consumerId : Nat) : QueueState :=
  if consumerId ∈ queue.consumers then queue
  else { queue with consumers := queue.consumers ++ [consumerId] }

/-- `detach_consumer`, on the entry of the queue. -/
def QueueState.detach (queue : QueueState) (consumerId : Nat) : QueueState :=
  let consumers := queue.consumers.filter (· ≠ consumerId)
  { queue with
    consumers := consumers
    nextConsumerIndex :=
      if consumers.length ≤ queue.nextConsumerIndex then 0 else queue.nextConsumerIndex }

/-- `ConsumerRuntimeState`; `cancelled` is its `CANCELLED` flag. -/
structure ConsumerRuntimeState where
  queueId : Nat
  channelId : Nat
  session : ConsumerSession
  out : List TaggedDeliverySegment
  cancelled : Bool
deriving DecidableEq, Repr

/-- The calls the executor makes on `AppendOnlyShardStorage`; each returns
the store and whether it succeeded. -/
structure ShardStorage (σ : Type) where
  appendPublish : σ → (queueId baseSeq : Nat) → List (List UInt8) → σ × Bool
  appendAckRanges : σ → (queueId : Nat) → List AckRange → σ × Bool

/-- A store that accepts everything and keeps nothing. -/
def ShardStorage.null : ShardStorage Unit := ⟨fun d _ _ _ => (d, true), fun d _ _ => (d, true)⟩

/-- `InMemoryShardExecutor`, with the events its sink received. -/
structure InMemoryShardExecutor (σ : Type) where
  shardId : Nat
  queues : Nat → Option QueueState
  consumers : Nat → Option ConsumerRuntimeState
  durable : Option σ
  sink : List Event

def maxDeliveryPasses : Nat := 16

/-- `PrefetchMode` of a consume command. -/
def prefetchMode (prefetch : UInt32) : PrefetchMode :=
  if prefetch = 0 then .unlimited else .limited prefetch

def toReason : NackDisposition → NackReason
  | .requeue => .requeue
  | .deadLetter => .deadLetter
  | .drop => .reject

/-- The session disposition `exec_cancel` passes on. -/
def toDisposition : CancelDispositionCommand → CancelDisposition
  | .requeueUnacked => .requeueUnacked
  | .dropUnacked | .deadLetterUnacked => .dropUnacked

/-- `map_err` of `exec_ack_command`. -/
def ackError (consumerId : Nat) : ConsumerError → CommandError
  | .invalidDeliveryTag => .consumer .invalidDeliveryTag consumerId
  | .deliveryTagAlreadySettled => .consumer .deliveryTagAlreadySettled consumerId
  | .consumerCancelled => .consumer .consumerCancelled consumerId
  | _ => .consumer .internalInvariantViolation consumerId

/-- The tags the mask loop of `exec_ack_command` asks for: it clears the
lowest bit of `remaining` and counts its rounds, at most 64. -/
def ackMaskTags (base : Nat) : Nat → Word → Nat → List Nat
  | 0, _, _ => []
  | rounds + 1, remaining, seq =>
    if remaining = 0#64 then []
    else (base + seq) :: ackMaskTags base rounds (remaining &&& (remaining - 1#64)) (seq + 1)

/-- The tags the mask loop of `exec_nack_command` asks for: it shifts each
set bit out and keeps its position. -/
def nackMaskTags (base : Nat) : Nat → Word → Nat → List Nat
  | 0, _, _ => []
  | rounds + 1, remaining, bitPos =>
    if remaining = 0#64 then []
    else
      let tz := trailingZeros remaining
      (base + (bitPos + tz)) ::
        nackMaskTags base rounds ((remaining >>> tz) >>> 1) (bitPos + tz + 1)

/-- One round of the ack mask loop: a refused tag is skipped. -/
def ackMaskStep (acc : ConsumerSession × HybridRangeBlockQueue × AckApplyResult) (tag : Nat) :
    ConsumerSession × HybridRangeBlockQueue × AckApplyResult :=
  match acc.1.ack ⟨tag, .one⟩ acc.2.1 with
  | .error _ => acc
  | .ok (session, queue, r) =>
    (session, queue,
      { acc.2.2 with
        acked := (acc.2.2.acked + r.acked) % 2 ^ 32
        ranges := acc.2.2.ranges ++ r.ranges })

/-- One round of the nack mask loop. -/
def nackMaskStep (reason : NackReason) (acc : ConsumerSession × HybridRangeBlockQueue × Nat)
    (tag : Nat) : ConsumerSession × HybridRangeBlockQueue × Nat :=
  match acc.1.nack ⟨tag, .one, reason⟩ acc.2.1 with
  | .error _ => acc
  | .ok (session, queue, r) => (session, queue, (acc.2.2 + r.nacked) % 2 ^ 32)

/-- The session calls of one ack command. -/
def ackSession (session : ConsumerSession) (queue : HybridRangeBlockQueue) :
    AckCommand → Except ConsumerError (ConsumerSession × HybridRangeBlockQueue × AckApplyResult)
  | .tag tag mode => session.ack ⟨tag, mode⟩ queue
  | .range _ last => session.ack ⟨last, .multiple⟩ queue
  | .mask base mask =>
    .ok ((ackMaskTags base 64 mask 0).foldl ackMaskStep (session, queue, ⟨0, 0, []⟩))

/-- The session calls of one nack command. -/
def nackSession (session : ConsumerSession) (queue : HybridRangeBlockQueue) :
    NackCommand → Except ConsumerError (ConsumerSession × HybridRangeBlockQueue × Nat)
  | .tag tag mode disposition => do
      let (session, queue, r) ← session.nack ⟨tag, mode, toReason disposition⟩ queue
      .ok (session, queue, r.nacked)
  | .range _ last disposition => do
      let (session, queue, r) ← session.nack ⟨last, .multiple, toReason disposition⟩ queue
      .ok (session, queue, r.nacked)
  | .mask base mask disposition =>
    .ok ((nackMaskTags base 64 mask 0).foldl (nackMaskStep (toReason disposition))
      (session, queue, 0))

/-- The session call of one reject command. -/
def rejectSession (session : ConsumerSession) (queue : HybridRangeBlockQueue)
    (cmd : RejectCommand) :
    Except ConsumerError (ConsumerSession × HybridRangeBlockQueue × Nat) := do
  let (session, queue, r) ← session.nack ⟨cmd.tag, .one, toReason cmd.disposition⟩ queue
  .ok (session, queue, r.nacked)

/-! ## Events of a delivery -/

/-- The handle an event gives for `seq`: the published one, or the number
itself if none was stored. -/
def handleOf (seq : Nat) : Nat :=
  (queue.bind fun q => q.seqPayloads seq).getD seq

/-- The event segment of a delivered range. -/
def rangeSegment (firstTag : Nat) (range : DeliveryRange)
    (redelivered : Bool) : DeliveryRangeSegment where
  startTag := firstTag
  startSeq := range.startSeq
  len := range.len
  payloads := .contiguous (handleOf queue range.startSeq) range.len
  redelivered := redelivered

/-- `prev` extended by a range of `len` more messages. -/
def growSegment (prev : DeliveryRangeSegment) (len : Nat) : DeliveryRangeSegment :=
  { prev with
    len := prev.len + len
    payloads := match prev.payloads with
      | .contiguous base n => .contiguous base (n + len)
      | .sparse handles => .sparse handles }

/-- One round of the loop of `emit_delivery`: a range that continues the
last segment is merged into it. -/
def pushSegment (segments : List DeliveryEventSegment) :
    TaggedDeliverySegment → List DeliveryEventSegment
  | .range firstTag range redelivered =>
    match segments.getLast? with
    | some (.range prev) =>
      if prev.startSeq + prev.len = range.startSeq then
        segments.dropLast ++ [.range (growSegment prev range.len)]
      else segments ++ [.range (rangeSegment queue firstTag range redelivered)]
    | _ => segments ++ [.range (rangeSegment queue firstTag range redelivered)]
  | .mask firstTag mask _ redelivered =>
    segments ++ [.mask ⟨firstTag, mask.block, mask.word, mask.mask, redelivered⟩]

namespace InMemoryShardExecutor

variable {σ : Type} (s : InMemoryShardExecutor σ) (store : ShardStorage σ) (queueId : Nat)

/-- `InMemoryShardExecutor::new` (no store) and `with_durable_storage`. -/
def new (shardId : Nat) (durable : Option σ) : InMemoryShardExecutor σ where
  shardId := shardId
  queues := fun _ => none
  consumers := fun _ => none
  durable := durable
  sink := []

/-- A call of the sink. -/
def emit (e : Event) : InMemoryShardExecutor σ :=
  { s with sink := s.sink ++ [e] }

/-- The entry of a queue replaced. -/
def setQueue (queue : QueueState) : InMemoryShardExecutor σ :=
  { s with queues := update s.queues queueId (some queue) }

/-- The entry of a consumer replaced. -/
def setConsumer (consumerId : Nat) (state : ConsumerRuntimeState) : InMemoryShardExecutor σ :=
  { s with consumers := update s.consumers consumerId (some state) }

/-- A session of a consumer and its queue written back. -/
def putBack (s : InMemoryShardExecutor σ) (consumerId : Nat) (state : ConsumerRuntimeState)
    (queue : QueueState) (session : ConsumerSession) (q : HybridRangeBlockQueue) :
    InMemoryShardExecutor σ :=
  (s.setQueue state.queueId { queue with queue := q }).setConsumer consumerId
    { state with session := session }

/-! ## Delivery -/

def emitDelivery (consumerId queueId : Nat) : InMemoryShardExecutor σ :=
  match s.consumers consumerId with
  | none => s
  | some state =>
    if state.out = [] then s
    else
      let segments := state.out.foldl (pushSegment (s.queues queueId)) []
      (s.setConsumer consumerId { state with out := [] }).emit
        (.delivery ⟨consumerId, queueId, state.channelId, segments⟩)

/-- One round of the loop of `deliver_consumer`: the executor and the
number of messages delivered, 0 where the source leaves the loop. -/
def deliverRound (queueId consumerId : Nat) : InMemoryShardExecutor σ × Nat :=
  match s.queues queueId, s.consumers consumerId with
  | some queue, some state =>
    -- `deliver_from_queue` clears `out` before anything else
    match state.session.deliverFromQueue queue.queue 256 with
    | .error _ => (s.setConsumer consumerId { state with out := [] }, 0)
    | .ok (session, q, out, n) =>
      let s := s.setQueue queueId { queue with queue := q }
      let s := s.setConsumer consumerId { state with session := session, out := out }
      if n = 0 then (s, 0) else (s.emitDelivery consumerId queueId, n)
  | _, _ => (s, 0)

/-- The loop of `deliver_consumer`. -/
def deliverLoop (queueId consumerId : Nat) :
    Nat → InMemoryShardExecutor σ → Nat → InMemoryShardExecutor σ × Nat
  | 0, s, total => (s, total)
  | rounds + 1, s, total =>
    let (s, n) := s.deliverRound queueId consumerId
    if n = 0 then (s, total) else deliverLoop queueId consumerId rounds s ((total + n) % 2 ^ 32)

/-- `deliver_consumer`. Every round but the last delivers a message of the
queue, so `len() + 1` rounds are enough. -/
def deliverConsumer (consumerId : Nat) : InMemoryShardExecutor σ × Nat :=
  match s.consumers consumerId with
  | none => (s, 0)
  | some state =>
    let len := ((s.queues state.queueId).map fun q => q.queue.nextSeq).getD 0
    deliverLoop state.queueId consumerId (len + 1) s 0

/-- One consumer of a pass of `drive_queue`. -/
def driveOne (consumerIds : List Nat) (start : Nat) (acc : InMemoryShardExecutor σ × Nat)
    (i : Nat) : InMemoryShardExecutor σ × Nat :=
  match consumerIds[(start + i) % consumerIds.length]? with
  | none => acc
  | some cid =>
    let (s, n) := acc.1.deliverConsumer cid
    (s, (acc.2 + n) % 2 ^ 32)

/-- One pass of `drive_queue` over the consumers, from `start` on. -/
def drivePass (consumerIds : List Nat) (start : Nat) (s : InMemoryShardExecutor σ) :
    InMemoryShardExecutor σ × Nat :=
  (List.range consumerIds.length).foldl (driveOne consumerIds start) (s, 0)

/-- The passes of `drive_queue`. -/
def driveLoop (queueId : Nat) (consumerIds : List Nat) :
    Nat → InMemoryShardExecutor σ → InMemoryShardExecutor σ
  | 0, s => s
  | passes + 1, s =>
    let start := ((s.queues queueId).map QueueState.nextConsumerIndex).getD 0
    let (s, delivered) := drivePass consumerIds start s
    if delivered = 0 then s
    else
      let s := match s.queues queueId with
        | none => s
        | some queue => s.setQueue queueId
            { queue with nextConsumerIndex := (start + 1) % consumerIds.length }
      driveLoop queueId consumerIds passes s

def driveQueue : InMemoryShardExecutor σ :=
  match s.queues queueId with
  | none => s
  | some queue =>
    if queue.consumers = [] then s
    else driveLoop queueId queue.consumers maxDeliveryPasses s

/-! ## Settlement helpers -/

def execAckCommand (s : InMemoryShardExecutor σ) (consumerId : Nat)
    (cmd : AckCommand) : InMemoryShardExecutor σ × Except CommandError AckApplyResult :=
  match s.consumers consumerId with
  | none => (s, .error (.consumer .consumerNotFound consumerId))
  | some state =>
    match s.queues state.queueId with
    | none => (s, .error (.queue .queueNotFound state.queueId))
    | some queue =>
      match ackSession state.session queue.queue cmd with
      | .error e => (s, .error (ackError consumerId e))
      | .ok (session, q, result) =>
        let s := s.putBack consumerId state queue session q
        match s.durable with
        | none => (s, .ok result)
        | some d =>
          let (d, ok) := store.appendAckRanges d state.queueId result.ranges
          ({ s with durable := some d },
            if ok then .ok result
            else .error (.global .internalInvariantViolation))

/-- `exec_nack_command` and `exec_reject_command`, given the calls on the
session: every refusal is reported as an invalid tag. -/
def execWith (consumerId : Nat) (call : ConsumerSession → HybridRangeBlockQueue →
      Except ConsumerError (ConsumerSession × HybridRangeBlockQueue × Nat)) :
    InMemoryShardExecutor σ × Except CommandError Nat :=
  match s.consumers consumerId with
  | none => (s, .error (.consumer .consumerNotFound consumerId))
  | some state =>
    match s.queues state.queueId with
    | none => (s, .error (.queue .queueNotFound state.queueId))
    | some queue =>
      match call state.session queue.queue with
      | .error _ => (s, .error (.consumer .invalidDeliveryTag consumerId))
      | .ok (session, q, nacked) => (s.putBack consumerId state queue session q, .ok nacked)

def execNackCommand (consumerId : Nat) (cmd : NackCommand) :
    InMemoryShardExecutor σ × Except CommandError Nat :=
  s.execWith consumerId fun session queue => nackSession session queue cmd

def execRejectCommand (consumerId : Nat) (cmd : RejectCommand) :
    InMemoryShardExecutor σ × Except CommandError Nat :=
  s.execWith consumerId fun session queue => rejectSession session queue cmd

/-- The loop over the items of a settlement batch: the executor, the
settled count and the errors. -/
def settleItems {α : Type}
    (exec : InMemoryShardExecutor σ → α → InMemoryShardExecutor σ × Except CommandError Nat) :
    List α → InMemoryShardExecutor σ → Nat → List CommandError →
      InMemoryShardExecutor σ × Nat × List CommandError
  | [], s, settled, errs => (s, settled, errs)
  | cmd :: items, s, settled, errs =>
    match exec s cmd with
    | (s, .ok n) => settleItems exec items s ((settled + n) % 2 ^ 32) errs
    | (s, .error e) => settleItems exec items s settled (errs ++ [e])

/-- `exec_ack_command` reduced to the count its caller reads. -/
def ackItem (store : ShardStorage σ) (consumerId : Nat) (s : InMemoryShardExecutor σ)
    (cmd : AckCommand) : InMemoryShardExecutor σ × Except CommandError Nat :=
  let (s, res) := execAckCommand store s consumerId cmd
  (s, res.map AckApplyResult.acked)

/-- `retry_all_now` on a queue. -/
def retryQueue : InMemoryShardExecutor σ :=
  match s.queues queueId with
  | none => s
  | some queue => s.setQueue queueId { queue with queue := queue.queue.retryAllNow.1 }

/-- The errors of a batch, if there are any. -/
def reportErrors (errs : List CommandError) : InMemoryShardExecutor σ :=
  if errs = [] then s else s.emit (.error errs)

/-! ## Command handlers -/

def execDeclareQueue : InMemoryShardExecutor σ :=
  match s.queues queueId with
  | none => s.setQueue queueId QueueState.empty
  | some _ => s.emit (.error [.queue .duplicateQueue queueId])

/-- The buffers `exec_publish` hands to the store. -/
def payloadBufs (batch : ShardPublishBatch) : List (List UInt8) :=
  if batch.records = [] then List.replicate batch.count [0]
  else batch.records.map fun r => List.replicate r.payloadLen 0

/-- `seq_payloads` with the handles of `records` from `base` on. -/
def insertPayloads (payloads : Nat → Option Nat) (base : Nat) (records : List PublishRecord) :
    Nat → Option Nat :=
  (records.zipIdx).foldl (fun m r => update m (base + r.2) (some r.1.payload)) payloads

/-- The queue and the payload map after a publish. -/
def publishTo (queue : QueueState) (batch : ShardPublishBatch) : QueueState :=
  { queue with
    queue := (queue.queue.publishContiguous batch.count).1
    seqPayloads := insertPayloads queue.seqPayloads queue.queue.nextSeq batch.records }

/-- The append `exec_publish` makes first, if there is a store. -/
def storePublish (s : InMemoryShardExecutor σ) (queue : QueueState)
    (batch : ShardPublishBatch) : InMemoryShardExecutor σ × Bool :=
  match s.durable with
  | none => (s, true)
  | some d =>
    let (d, ok) := store.appendPublish d batch.queueId queue.queue.nextSeq (payloadBufs batch)
    ({ s with durable := some d }, ok)

def execPublish (s : InMemoryShardExecutor σ)
    (batch : ShardPublishBatch) : InMemoryShardExecutor σ :=
  match s.queues batch.queueId with
  | none => s.emit (.error [.queue .queueNotFound batch.queueId])
  | some queue =>
    match storePublish store s queue batch with
    | (s, false) => s.emit (.error [.global .internalInvariantViolation])
    | (s, true) =>
      let s := s.setQueue batch.queueId (publishTo queue batch)
      let s := if batch.confirmMode = .none then s
        else s.emit
          (.confirm ⟨batch.source, batch.batchId, batch.count, none, batch.confirmMode⟩)
      s.driveQueue batch.queueId

/-- The entry of a starting consumer. -/
def startState (cmd : ConsumeStart) : ConsumerRuntimeState where
  queueId := cmd.queueId
  channelId := cmd.channelId
  session := ConsumerSession.new cmd.consumerId cmd.channelId (prefetchMode cmd.prefetch)
  out := []
  cancelled := false

/-- `exec_consume_start`. The queue exists when the consumer is attached,
so the source's second `QueueNotFound` is never reached. -/
def execConsumeStart (cmd : ConsumeStart) : InMemoryShardExecutor σ :=
  match s.queues cmd.queueId with
  | none => s.emit (.error [.queue .queueNotFound cmd.queueId])
  | some queue =>
    match s.consumers cmd.consumerId with
    | some _ => s.emit (.error [.consumer .duplicateConsumer cmd.consumerId])
    | none =>
      let s := s.setConsumer cmd.consumerId (startState cmd)
      let s := s.setQueue cmd.queueId (queue.attach cmd.consumerId)
      let s := s.emit (.consumer cmd.consumerId .started)
      s.driveQueue cmd.queueId

/-- `exec_credit_update`; the update itself is ignored. -/
def execCreditUpdate (cmd : CreditUpdate) : InMemoryShardExecutor σ :=
  match s.consumers cmd.consumerId with
  | none => s.emit (.error [.consumer .consumerNotFound cmd.consumerId])
  | some state => s.driveQueue state.queueId

def execAckBatch (s : InMemoryShardExecutor σ) (consumerId : Nat)
    (items : List AckCommand) : InMemoryShardExecutor σ :=
  let (s, settled, errs) := settleItems (ackItem store consumerId) items s 0 []
  let s := if 0 < settled then
      let s := s.emit (.settlement ⟨consumerId, .ack, settled⟩)
      match s.consumers consumerId with
      | none => s
      | some state => s.driveQueue state.queueId
    else s
  s.reportErrors errs

def execNackBatch (consumerId : Nat) (items : List NackCommand) : InMemoryShardExecutor σ :=
  let (s, settled, errs) := settleItems (fun s => s.execNackCommand consumerId) items s 0 []
  let s := if 0 < settled then
      let s := s.emit (.settlement ⟨consumerId, .nack, settled⟩)
      match s.consumers consumerId with
      | none => s
      | some state => (s.retryQueue state.queueId).driveQueue state.queueId
    else s
  s.reportErrors errs

/-- `exec_reject_batch`: errors are dropped, and nothing is retried. -/
def execRejectBatch (consumerId : Nat) (items : List RejectCommand) : InMemoryShardExecutor σ :=
  let (s, settled, _) := settleItems (fun s => s.execRejectCommand consumerId) items s 0 []
  if 0 < settled then
    let s := s.emit (.settlement ⟨consumerId, .reject, settled⟩)
    match s.consumers consumerId with
    | none => s
    | some state => s.driveQueue state.queueId
  else s

/-- The cancel of a consumer and its removal from both registries. -/
def removeConsumer (consumerId : Nat)
    (state : ConsumerRuntimeState) (queue : QueueState) (disp : CancelDisposition) :
    InMemoryShardExecutor σ :=
  let q := (state.session.cancel disp queue.queue).2.1
  let s := s.setQueue state.queueId ({ queue with queue := q }.detach consumerId)
  { s with consumers := update s.consumers consumerId none }

def execCancel (cmd : CancelConsumer) : InMemoryShardExecutor σ :=
  match s.consumers cmd.consumerId with
  | none => s.emit (.error [.consumer .consumerNotFound cmd.consumerId])
  | some state =>
    if state.cancelled then s.emit (.error [.consumer .consumerCancelled cmd.consumerId])
    else
      match s.queues state.queueId with
      | none => s
      | some queue =>
        let s := s.removeConsumer cmd.consumerId state queue (toDisposition cmd.disposition)
        let s := s.emit (.consumer cmd.consumerId .cancelled)
        if cmd.disposition = .requeueUnacked then s.driveQueue state.queueId else s

def execute (s : InMemoryShardExecutor σ) : ShardCommandBatch → InMemoryShardExecutor σ
  | .declare items => items.foldl execDeclareQueue s
  | .publish batch => s.execPublish store batch
  | .consume items => items.foldl execConsumeStart s
  | .credit items => items.foldl execCreditUpdate s
  | .ack consumerId items => s.execAckBatch store consumerId items
  | .nack consumerId items => s.execNackBatch consumerId items
  | .reject consumerId items => s.execRejectBatch consumerId items
  | .cancel items => items.foldl execCancel s

/-- A sequence of `execute` calls. -/
def run (store : ShardStorage σ) (s : InMemoryShardExecutor σ)
    (batches : List ShardCommandBatch) : InMemoryShardExecutor σ :=
  batches.foldl (execute store) s

end InMemoryShardExecutor

end Aurum.Broker
