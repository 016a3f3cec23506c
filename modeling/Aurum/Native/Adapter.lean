import Aurum.Broker.Forms
import Aurum.Service.Basic

/-!
# Native protocol — the inbound adapter

`NativeInboundAdapter`: translates the decoded body of a frame into a
command of the broker or an immediate response, and keeps the ids and
payload handles a session hands out. Consumer ids, tags and handles are
`Nat`; flags that no executor code reads are left out.
-/

namespace Aurum.Native

open Aurum.Routing Aurum.Protocol Aurum.Broker Aurum.Service

/-! ## Bodies -/

structure PublishDescriptor where
  payloadOffset : Nat
  payloadLen : Nat
deriving DecidableEq, Repr

inductive NativeAckOp where
  | one (tag : Nat)
  | range (firstTag len : Nat)
  | multipleUpTo (tag : Nat)
deriving DecidableEq, Repr

inductive NativeNackOp where
  | one (tag : Nat) (disposition : NackDisposition)
  | range (firstTag len : Nat) (disposition : NackDisposition)
  | multipleUpTo (tag : Nat) (disposition : NackDisposition)
deriving DecidableEq, Repr

/-- The decoded body of a frame; `unreadable` stands for an unknown
operation and for a body that cannot be decoded. -/
inductive NativeBody where
  | hello (clientMajor clientMinor clientCapabilities : Nat)
  | heartbeat
  | resolveRoute (exchangeIdHint : Nat) (exchange routingKey : Text)
  | publish (routeTableVersion routeIdPacked : Nat) (descriptors : List PublishDescriptor)
      (payloads : List UInt8)
  | consumeStart (queueId consumerIdHint : Nat) (prefetch : UInt32)
  | credit (consumerId : Nat)
  | ack (consumerId : Nat) (ops : List NativeAckOp)
  | nack (consumerId : Nat) (ops : List NativeNackOp)
  | cancel (consumerId cancelDisposition : Nat)
  | unreadable
deriving DecidableEq, Repr

/-- The hint of `CONSUME_START`. -/
def NativeBody.hint : NativeBody → Option Nat
  | .consumeStart _ hint _ => some hint
  | _ => none

structure NativeFrame where
  correlationId : Nat
  streamId : Nat
  body : NativeBody
deriving DecidableEq, Repr

/-- `NativeErrorCode`, as far as the adapter uses it, and a body that
cannot be decoded. -/
inductive NativeAdapterError where
  | unsupportedVersion
  | invalidDeliveryTag
  | unreadable
deriving DecidableEq, Repr

/-! ## Sessions -/

structure ConsumerInfo where
  queueId : Nat
  prefetch : UInt32
deriving DecidableEq, Repr

structure NativeSessionState where
  protocolMajor : Nat
  protocolMinor : Nat
  connectionId : Nat
  capabilities : Nat
  lastSeenRouteTableVersion : Nat
  nextConsumerId : Nat
  consumers : Nat → Option ConsumerInfo
  helloDone : Bool

/-- `NativeSessionState::new`; the capabilities are route ids, publish
batches, ack and nack ranges, and delivery batches. -/
def NativeSessionState.new (connectionId : Nat) : NativeSessionState :=
  ⟨0, 1, connectionId, 87, initialVersion, 1, fun _ => none, false⟩

def NativeSessionState.assignConsumerId (s : NativeSessionState) (hint : Nat) :
    NativeSessionState × Nat :=
  if hint = 0 then ({ s with nextConsumerId := s.nextConsumerId + 1 }, s.nextConsumerId)
  else (s, hint)

structure NativeInboundAdapter where
  session : NativeSessionState
  nextPayloadHandle : Nat

def NativeInboundAdapter.new (connectionId : Nat) : NativeInboundAdapter :=
  ⟨.new connectionId, 1⟩

/-- `NativeInboundResult`; the two immediate responses are told apart by
`helloOk`. -/
inductive NativeInboundResult where
  | brokerCommand (cmd : BrokerCommandBatch)
  | immediateResponse (helloOk : Bool)
deriving DecidableEq, Repr

/-! ## Translation -/

/-- The last tag of a range operation: `checked_add` on `u64`. -/
def rangeEnd (firstTag len : Nat) : Except NativeAdapterError Nat :=
  if len = 0 ∨ 2 ^ 64 ≤ firstTag + (len - 1) then .error .invalidDeliveryTag
  else .ok (firstTag + (len - 1))

/-- One operation of `translate_ack`. -/
def translateAckOp : NativeAckOp → Except NativeAdapterError AckCommand
  | .one tag => .ok (.tag tag .one)
  | .range firstTag len => (rangeEnd firstTag len).map (.range firstTag)
  | .multipleUpTo tag => .ok (.tag tag .multiple)

/-- One operation of `translate_nack`. -/
def translateNackOp : NativeNackOp → Except NativeAdapterError NackCommand
  | .one tag disposition => .ok (.tag tag .one disposition)
  | .range firstTag len disposition =>
    (rangeEnd firstTag len).map fun last => .range firstTag last disposition
  | .multipleUpTo tag disposition => .ok (.tag tag .multiple disposition)

/-- The loop of `translate_publish`: the handle after it, and the records
unless a descriptor lies outside of the payloads. -/
def publishRecords (payloads : List UInt8) :
    Nat → List PublishDescriptor → Nat × Except NativeAdapterError (List PublishRecord)
  | handle, [] => (handle, .ok [])
  | handle, d :: ds =>
    if payloads.length < d.payloadOffset + d.payloadLen then (handle, .error .unreadable)
    else
      let (next, records) := publishRecords payloads (handle + 1) ds
      (next, records.map (⟨handle, d.payloadLen⟩ :: ·))

namespace NativeInboundAdapter

def translatePublish (a : NativeInboundAdapter) (correlationId version packed : Nat)
    (descriptors : List PublishDescriptor) (payloads : List UInt8) :
    NativeInboundAdapter × Except NativeAdapterError NativeInboundResult :=
  let (handle, records) := publishRecords payloads a.nextPayloadHandle descriptors
  (⟨{ a.session with lastSeenRouteTableVersion := version }, handle⟩,
    records.map fun records => .brokerCommand (.ingress (.publish
      ⟨correlationId, a.session.connectionId,
        .route ⟨⟨packed % 2 ^ 32, packed / 2 ^ 32⟩, version⟩, .accepted, records⟩)))

def translateConsumeStart (a : NativeInboundAdapter) (streamId queueId hint : Nat)
    (prefetch : UInt32) : NativeInboundAdapter × NativeInboundResult :=
  let (session, id) := a.session.assignConsumerId hint
  ({ a with session := { session with
      consumers := Function.update session.consumers id (some ⟨queueId, prefetch⟩) } },
    .brokerCommand (.shard (.consume [⟨id, streamId, queueId, prefetch⟩])))

/-- The command of `translate_cancel`. -/
def cancelCommand (consumerId disposition : Nat) : CancelConsumer :=
  ⟨consumerId, if disposition = 1 then .requeueUnacked else .dropUnacked⟩

def translateFrame (a : NativeInboundAdapter) (f : NativeFrame) :
    NativeInboundAdapter × Except NativeAdapterError NativeInboundResult :=
  match f.body with
  | .hello major minor capabilities =>
    if major = 0 then
      ({ a with session := { a.session with
          protocolMajor := major
          protocolMinor := minor
          capabilities := capabilities
          helloDone := true } }, .ok (.immediateResponse true))
    else (a, .error .unsupportedVersion)
  | .heartbeat => (a, .ok (.immediateResponse false))
  | .resolveRoute hint exchange routingKey =>
    let cmd : ResolveRouteCommand :=
      if exchange = [] ∧ hint ≠ 0 then ⟨f.correlationId, hint, [], routingKey⟩
      else ⟨f.correlationId, 0, exchange, routingKey⟩
    (a, .ok (.brokerCommand (.ingress (.resolveRoute [cmd]))))
  | .publish version packed descriptors payloads =>
    a.translatePublish f.correlationId version packed descriptors payloads
  | .consumeStart queueId hint prefetch =>
    let (a, result) := a.translateConsumeStart f.streamId queueId hint prefetch
    (a, .ok result)
  | .credit consumerId => (a, .ok (.brokerCommand (.shard (.credit [⟨consumerId⟩]))))
  | .ack consumerId ops =>
    (a, (ops.mapM translateAckOp).map fun items => .brokerCommand (.shard (.ack consumerId items)))
  | .nack consumerId ops =>
    (a, (ops.mapM translateNackOp).map fun items =>
      .brokerCommand (.shard (.nack consumerId items)))
  | .cancel consumerId disposition =>
    (a, .ok (.brokerCommand (.shard (.cancel [cancelCommand consumerId disposition]))))
  | .unreadable => (a, .error .unreadable)

end NativeInboundAdapter

/-! ## Ranges of tags -/

variable {firstTag len : Nat}

/-- A range operation that is translated ends `len - 1` tags later. -/
theorem rangeEnd_ok {last : Nat} (h : rangeEnd firstTag len = .ok last) :
    0 < len ∧ last = firstTag + len - 1 := by
  unfold rangeEnd at h
  split at h
  · cases h
  · next hno =>
    cases h
    omega

theorem translateAckOp_range {cmd : AckCommand}
    (h : translateAckOp (.range firstTag len) = .ok cmd) :
    0 < len ∧ cmd = .range firstTag (firstTag + len - 1) := by
  rw [translateAckOp] at h
  cases hend : rangeEnd firstTag len with
  | error e =>
    rw [hend] at h
    cases h
  | ok last =>
    rw [hend] at h
    cases h
    obtain ⟨hlen, rfl⟩ := rangeEnd_ok hend
    exact ⟨hlen, rfl⟩

theorem translateNackOp_range {disposition : NackDisposition} {cmd : NackCommand}
    (h : translateNackOp (.range firstTag len disposition) = .ok cmd) :
    0 < len ∧ cmd = .range firstTag (firstTag + len - 1) disposition := by
  rw [translateNackOp] at h
  cases hend : rangeEnd firstTag len with
  | error e =>
    rw [hend] at h
    cases h
  | ok last =>
    rw [hend] at h
    cases h
    obtain ⟨hlen, rfl⟩ := rangeEnd_ok hend
    exact ⟨hlen, rfl⟩

open InMemoryShardExecutor in
/-- **Settlement ranges.** A native range is the command range with the
last tag `first_tag + len - 1`. In every executor state that batches lead
to, an ack or nack range settles its range and nothing else if and only if
its last tag is not outstanding or no tag below the range is. -/
theorem range_means_its_tags {σ : Type} (store : ShardStorage σ) (shardId : Nat)
    (durable : Option σ) (batches : List ShardCommandBatch) (c : Nat)
    (hc : ((new shardId durable).run store batches).consumers c ≠ none) :
    (∀ start last, start ≤ last →
      ((RangeMeans c start last .acked ((new shardId durable).run store batches)
          (ackItem store c ((new shardId durable).run store batches) (.range start last)).1 ↔
        (last ∈ heldTags ((new shardId durable).run store batches) c →
          ∀ t ∈ heldTags ((new shardId durable).run store batches) c, start ≤ t)) ∧
      ∀ disposition, (RangeMeans c start last (Consumer.target (toReason disposition))
          ((new shardId durable).run store batches)
          (((new shardId durable).run store batches).execNackCommand c
            (.range start last disposition)).1 ↔
        (last ∈ heldTags ((new shardId durable).run store batches) c →
          ∀ t ∈ heldTags ((new shardId durable).run store batches) c, start ≤ t)))) ∧
    (∀ firstTag len cmd, translateAckOp (.range firstTag len) = .ok cmd →
      0 < len ∧ cmd = .range firstTag (firstTag + len - 1)) ∧
    ∀ firstTag len disposition cmd,
      translateNackOp (.range firstTag len disposition) = .ok cmd →
      0 < len ∧ cmd = .range firstTag (firstTag + len - 1) disposition := by
  obtain ⟨state, hc⟩ := Option.ne_none_iff_exists'.mp hc
  have h := coherent_run store shardId durable batches
  refine ⟨fun start last hle => ⟨?_, fun disposition => ?_⟩, fun _ _ _ => translateAckOp_range,
    fun _ _ _ _ => translateNackOp_range⟩
  · exact (ackRange_upTo store h hc start last).rangeMeans_iff hle
  · exact (nackRange_upTo h hc start last disposition).rangeMeans_iff hle

open InMemoryShardExecutor in
/-- A range that begins at the first outstanding tag. -/
theorem first_range_acked : RangeMeans 1 1 2 .acked ((new 0 none).run .null threeDelivered)
      (ackItem .null 1 ((new 0 none).run .null threeDelivered) (.range 1 2)).1 :=
  (((range_means_its_tags .null 0 none threeDelivered 1 (by decide +kernel)).1 1 2
    (by decide)).1).mpr (by decide +kernel)

open InMemoryShardExecutor in
/-- **The range `[2, 3]` acks tag 1 as well.** -/
theorem range_acks_below : heldTags ((new 0 none).run .null threeDelivered) 1 = [1, 2, 3] ∧
      heldTags (ackItem .null 1 ((new 0 none).run .null threeDelivered) (.range 2 3)).1 1 = [] ∧
      (ackItem .null 1 ((new 0 none).run .null threeDelivered) (.range 2 3)).1.stateOf 0 0 =
        some .acked ∧
      ¬ RangeMeans 1 2 3 .acked ((new 0 none).run .null threeDelivered)
        (ackItem .null 1 ((new 0 none).run .null threeDelivered) (.range 2 3)).1 := by
  refine ⟨by decide +kernel, by decide +kernel, by decide +kernel, fun hmeans => ?_⟩
  have hheld := hmeans.only 0 1 0 (by decide +kernel) (.inl (by decide))
  exact absurd hheld (by decide +kernel)

end Aurum.Native
