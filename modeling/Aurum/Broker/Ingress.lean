import Aurum.Broker.Shard
import Aurum.Routing.Compiler

/-!
# Broker — ingress commands

`InMemoryBroker`: a route table in front of a shard executor. Publishes
that name a queue or a resolved route become shard publishes, resolutions
are answered from the table, and every call returns what it produced as
one `ShardOutputBatch`.

The source gives each call a fresh output buffer as its sink. The sink of
the model keeps everything, so the output of a call is what it appended.
-/

namespace Aurum.Protocol

open Aurum.Routing

structure RoutePublishTarget where
  routeId : RouteId
  routeVersion : Nat
deriving DecidableEq, Repr

inductive IngressPublishTarget where
  | route (target : RoutePublishTarget)
  | queue (queueId : Nat)
  | exchangeKey (exchangeId routingKeyHash : Nat)
deriving DecidableEq, Repr

structure IngressPublishBatch where
  batchId : Nat
  source : Nat
  target : IngressPublishTarget
  confirmMode : ConfirmMode
  records : List PublishRecord
deriving DecidableEq, Repr

structure ResolveRouteCommand where
  requestId : Nat
  exchangeId : Nat
  exchangeName : Text
  routingKey : Text
deriving DecidableEq, Repr

inductive IngressCommandBatch where
  | publish (batch : IngressPublishBatch)
  | resolveRoute (items : List ResolveRouteCommand)
  | control
deriving DecidableEq, Repr

structure RouteResolvedEvent where
  requestId : Nat
  routeId : RouteId
  routeVersion : Nat
  flags : Nat
deriving DecidableEq, Repr

end Aurum.Protocol

namespace Aurum.Broker

open Aurum.Protocol Aurum.Routing

/-! ## Outputs -/

structure ShardOutputBatch where
  deliveries : List DeliveryEventBatch
  confirms : List PublishConfirmBatch
  settlements : List SettlementResultBatch
  consumerEvents : List (Nat × ConsumerEventKind)
  routeResolved : List RouteResolvedEvent
  errors : List CommandError
deriving DecidableEq, Repr

namespace ShardOutputBatch

/-- `ShardOutputBatch::default`. -/
def empty : ShardOutputBatch := ⟨[], [], [], [], [], []⟩

/-- One call of `ShardOutputBatch` as an `EventSink`. -/
def onEvent (out : ShardOutputBatch) : Event → ShardOutputBatch
  | .delivery batch => { out with deliveries := out.deliveries ++ [batch] }
  | .settlement batch => { out with settlements := out.settlements ++ [batch] }
  | .confirm batch => { out with confirms := out.confirms ++ [batch] }
  | .consumer consumerId kind =>
    { out with consumerEvents := out.consumerEvents ++ [(consumerId, kind)] }
  | .error errors => { out with errors := out.errors ++ errors }

/-- The output of the sink calls `es`. -/
def ofEvents (es : List Event) : ShardOutputBatch := es.foldl onEvent empty

/-- `merge_output`. -/
def merge (dst src : ShardOutputBatch) : ShardOutputBatch where
  deliveries := dst.deliveries ++ src.deliveries
  confirms := dst.confirms ++ src.confirms
  settlements := dst.settlements ++ src.settlements
  consumerEvents := dst.consumerEvents ++ src.consumerEvents
  routeResolved := dst.routeResolved ++ src.routeResolved
  errors := dst.errors ++ src.errors

/-- `push_errors` with one global error. -/
def pushError (out : ShardOutputBatch) (kind : CommandErrorKind) : ShardOutputBatch :=
  { out with errors := out.errors ++ [.global kind] }

end ShardOutputBatch

def mapResolveError : RouteResolveError → CommandErrorKind
  | .exchangeNotFound => .exchangeNotFound
  | .unsupportedExchangeKind => .invalidRoute
  | .unroutable => .unroutable

def mapLookupError : RouteLookupError → CommandErrorKind
  | .routeTableVersionMismatch => .staleRouteEpoch
  | .routeGenerationMismatch => .routeGenerationMismatch
  | .routeIdInvalid => .routeIdInvalid
  | .unroutable => .unroutable

/-! ## The broker -/

structure InMemoryBroker (σ : Type) where
  routeTable : RouteTable
  shard : InMemoryShardExecutor σ

namespace InMemoryBroker

variable {σ : Type} (store : ShardStorage σ) (b : InMemoryBroker σ) (batch : IngressPublishBatch)

def execute (batch : ShardCommandBatch) : InMemoryBroker σ × ShardOutputBatch :=
  let shard := b.shard.execute store batch
  ({ b with shard := shard }, .ofEvents (shard.sink.drop b.shard.sink.length))

/-- One command of `exec_resolve_route`. A name that is not UTF-8 is the
name of no exchange. -/
def resolveOne (out : ShardOutputBatch) (cmd : ResolveRouteCommand) : ShardOutputBatch :=
  let resolved :=
    if cmd.exchangeName ≠ [] then b.routeTable.resolveDirectByName cmd.exchangeName cmd.routingKey
    else b.routeTable.resolveDirect cmd.exchangeId cmd.routingKey
  match resolved with
  | .ok r =>
    { out with
      routeResolved := out.routeResolved ++ [⟨cmd.requestId, r.routeId, r.version, r.flags.bits⟩] }
  | .error e => out.pushError (mapResolveError e)

def ensureQueue (queueId : Nat) : InMemoryBroker σ :=
  match b.shard.queues queueId with
  | some _ => b
  | none => (b.execute store (.declare [queueId])).1

/-- The shard batch of `publish_to_queue`. -/
def shardBatch (queueId : Nat) : ShardPublishBatch where
  batchId := batch.batchId
  source := batch.source
  queueId := queueId
  confirmMode := batch.confirmMode
  recordCount := batch.records.length % 2 ^ 32
  records := batch.records

/-- `publish_to_queue`. The executor never fails as a whole. -/
def publishToQueue (acc : InMemoryBroker σ × ShardOutputBatch) (queueId : Nat) :
    InMemoryBroker σ × ShardOutputBatch :=
  let (b, scratch) := (acc.1.ensureQueue store queueId).execute store
    (.publish (shardBatch batch queueId))
  (b, acc.2.merge scratch)

/-- One target of `publish_by_route`. -/
def publishToTarget (acc : InMemoryBroker σ × ShardOutputBatch) (t : QueueTarget) :
    InMemoryBroker σ × ShardOutputBatch :=
  if t.shardId ≠ acc.1.shard.shardId then (acc.1, acc.2.pushError .invalidRoute)
  else publishToQueue store batch (acc.1.ensureQueue store t.queueId, acc.2) t.queueId

def publishByRoute (target : RoutePublishTarget) : InMemoryBroker σ × ShardOutputBatch :=
  match b.routeTable.getByRouteId target.routeId target.routeVersion with
  | .error e => (b, ShardOutputBatch.empty.pushError (mapLookupError e))
  | .ok set =>
    if set.targetCount = 0 then (b, ShardOutputBatch.empty.pushError .unroutable)
    else set.targetsVec.foldl (publishToTarget store batch) (b, .empty)

def execIngressPublish : InMemoryBroker σ × ShardOutputBatch :=
  match batch.target with
  | .queue queueId => publishToQueue store batch (b, .empty) queueId
  | .route target => b.publishByRoute store batch target
  | .exchangeKey _ _ => (b, ShardOutputBatch.empty.pushError .invalidRoute)

def executeIngress : IngressCommandBatch → InMemoryBroker σ × ShardOutputBatch
  | .publish batch => b.execIngressPublish store batch
  | .resolveRoute items => (b, items.foldl b.resolveOne .empty)
  | .control => (b, .empty)

end InMemoryBroker

end Aurum.Broker
