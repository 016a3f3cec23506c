import Aurum.Consumer.Session

/-!
# Protocol — shard commands and events

`aurum-internal-protocol`: the command batches a shard executor accepts
and the events it hands to its sink. Ids, tags and payload handles are
`Nat`. Fields no executor code reads (routing hints, message properties,
the deltas of a credit update, delivery metadata, batch flags) are left
out; the `batch_id` of an error is never set and is left out too.
-/

namespace Aurum.Protocol

open Aurum.Bits Aurum.Queue Aurum.Consumer

/-! ## Commands -/

inductive ConfirmMode where
  | none
  | accepted
  | localDurable
  | quorum
deriving DecidableEq, Repr

structure PublishRecord where
  payload : Nat
  payloadLen : Nat
deriving DecidableEq, Repr

structure ShardPublishBatch where
  batchId : Nat
  source : Nat
  queueId : Nat
  confirmMode : ConfirmMode
  recordCount : Nat
  records : List PublishRecord
deriving DecidableEq, Repr

def ShardPublishBatch.new (queueId : Nat) (records : List PublishRecord) : ShardPublishBatch :=
  ⟨0, 0, queueId, .none, 0, records⟩

def ShardPublishBatch.contiguous (queueId count : Nat) : ShardPublishBatch :=
  ⟨0, 0, queueId, .none, count, []⟩

/-- `ShardPublishBatch::count`; `records.len() as u32` truncates. -/
def ShardPublishBatch.count (b : ShardPublishBatch) : Nat :=
  if 0 < b.recordCount then b.recordCount else b.records.length % 2 ^ 32

structure ConsumeStart where
  consumerId : Nat
  channelId : Nat
  queueId : Nat
  prefetch : UInt32
deriving DecidableEq, Repr

structure CreditUpdate where
  consumerId : Nat
deriving DecidableEq, Repr

inductive CancelDispositionCommand where
  | requeueUnacked
  | dropUnacked
  | deadLetterUnacked
deriving DecidableEq, Repr

structure CancelConsumer where
  consumerId : Nat
  disposition : CancelDispositionCommand
deriving DecidableEq, Repr

abbrev SettlementMode := AckMode

inductive NackDisposition where
  | requeue
  | deadLetter
  | drop
deriving DecidableEq, Repr

inductive AckCommand where
  | tag (tag : Nat) (mode : SettlementMode)
  | range (start last : Nat)
  | mask (base : Nat) (mask : Word)
deriving DecidableEq, Repr

inductive NackCommand where
  | tag (tag : Nat) (mode : SettlementMode) (disposition : NackDisposition)
  | range (start last : Nat) (disposition : NackDisposition)
  | mask (base : Nat) (mask : Word) (disposition : NackDisposition)
deriving DecidableEq, Repr

def NackCommand.disposition : NackCommand → NackDisposition
  | .tag _ _ disposition | .range _ _ disposition | .mask _ _ disposition => disposition

structure RejectCommand where
  tag : Nat
  disposition : NackDisposition
deriving DecidableEq, Repr

/-- `ShardCommandBatch`, with the fields of the batch structures. A
declaration is the id of its queue. -/
inductive ShardCommandBatch where
  | declare (items : List Nat)
  | publish (batch : ShardPublishBatch)
  | consume (items : List ConsumeStart)
  | credit (items : List CreditUpdate)
  | ack (consumerId : Nat) (items : List AckCommand)
  | nack (consumerId : Nat) (items : List NackCommand)
  | reject (consumerId : Nat) (items : List RejectCommand)
  | cancel (items : List CancelConsumer)
deriving DecidableEq, Repr

/-! ## Events -/

inductive PayloadSpan where
  | contiguous (base len : Nat)
  | sparse (handles : List Nat)
deriving DecidableEq, Repr

def PayloadSpan.get : PayloadSpan → Nat → Option Nat
  | .contiguous base len, i => if i < len then some (base + i) else none
  | .sparse handles, i => handles[i]?

structure DeliveryRangeSegment where
  startTag : Nat
  startSeq : Nat
  len : Nat
  payloads : PayloadSpan
  redelivered : Bool
deriving DecidableEq, Repr

structure DeliveryMaskSegment where
  baseTag : Nat
  block : Nat
  word : Nat
  mask : Word
  redelivered : Bool
deriving DecidableEq, Repr

/-- The rounds of the iterator behind `iter_handles`; a word has at most
64 of them. -/
def DeliveryMaskSegment.handlesFrom (blockBase baseTag : Nat) : Nat → Word → Nat → List (Nat × Nat)
  | 0, _, _ => []
  | rounds + 1, bits, tagOffset =>
    if bits = 0#64 then []
    else (baseTag + tagOffset, blockBase + trailingZeros bits) ::
      handlesFrom blockBase baseTag rounds (bits &&& (bits - 1#64)) (tagOffset + 1)

/-- `DeliveryMaskSegment::iter_handles`: `(tag, handle)` pairs. -/
def DeliveryMaskSegment.iterHandles (m : DeliveryMaskSegment) : List (Nat × Nat) :=
  handlesFrom (m.block * 256 + m.word * 64) m.baseTag 64 m.mask 0

inductive DeliveryEventSegment where
  | range (seg : DeliveryRangeSegment)
  | mask (seg : DeliveryMaskSegment)
deriving DecidableEq, Repr

structure DeliveryEventBatch where
  consumerId : Nat
  queueId : Nat
  channelId : Nat
  segments : List DeliveryEventSegment
deriving DecidableEq, Repr

structure PublishConfirmBatch where
  source : Nat
  batchId : Nat
  accepted : Nat
  firstSeq : Option Nat
  mode : ConfirmMode
deriving DecidableEq, Repr

inductive SettlementKind where
  | ack
  | nack
  | reject
  | cancel
deriving DecidableEq, Repr

structure SettlementResultBatch where
  consumerId : Nat
  kind : SettlementKind
  settled : Nat
deriving DecidableEq, Repr

inductive ConsumerEventKind where
  | started
  | cancelled
  | creditExhausted
deriving DecidableEq, Repr

inductive CommandErrorKind where
  | invalidRoute
  | staleRouteEpoch
  | queueNotFound
  | consumerNotFound
  | invalidDeliveryTag
  | deliveryTagAlreadySettled
  | creditExceeded
  | permissionDenied
  | backpressure
  | internalInvariantViolation
  | duplicateQueue
  | duplicateConsumer
  | consumerCancelled
  | exchangeNotFound
  | unroutable
  | routeIdInvalid
  | routeGenerationMismatch
deriving DecidableEq, Repr

structure CommandError where
  kind : CommandErrorKind
  queueId : Option Nat
  consumerId : Option Nat
deriving DecidableEq, Repr

def CommandError.consumer (kind : CommandErrorKind) (consumerId : Nat) : CommandError :=
  ⟨kind, none, some consumerId⟩

def CommandError.queue (kind : CommandErrorKind) (queueId : Nat) : CommandError :=
  ⟨kind, some queueId, none⟩

def CommandError.global (kind : CommandErrorKind) : CommandError := ⟨kind, none, none⟩

/-- One call of an `EventSink`. -/
inductive Event where
  | delivery (batch : DeliveryEventBatch)
  | settlement (batch : SettlementResultBatch)
  | confirm (batch : PublishConfirmBatch)
  | consumer (consumerId : Nat) (kind : ConsumerEventKind)
  | error (errors : List CommandError)
deriving DecidableEq, Repr

end Aurum.Protocol
