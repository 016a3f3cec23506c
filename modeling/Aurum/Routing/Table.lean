import Mathlib.Tactic.Ring

/-!
# Routing — the compiled route table

`aurum-routing`: what a lookup by exchange and routing key, and a later
lookup by route id, find in a compiled table. Texts are their bytes, the
order Rust compares them in; ids and indices are `Nat`. Exchange and
binding flags, the routing hash and the key length of an entry are never
read and are left out.
-/

namespace Aurum.Routing

open Function

/-- A name or a routing key. -/
abbrev Text := List UInt8

inductive ExchangeKind where
  | direct
  | fanout
  | topic
  | headers
deriving DecidableEq, Repr

structure ExchangeDecl where
  id : Nat
  name : Text
  kind : ExchangeKind
deriving DecidableEq, Repr

structure BindingDecl where
  exchangeId : Nat
  queueId : Nat
  routingKey : Text
  targetShard : Nat
deriving DecidableEq, Repr

def BindingDecl.direct (exchangeId queueId : Nat) (routingKey : Text) : BindingDecl :=
  ⟨exchangeId, queueId, routingKey, 0⟩

def BindingDecl.fanout (exchangeId queueId : Nat) : BindingDecl :=
  ⟨exchangeId, queueId, [], 0⟩

structure RoutingConfig where
  version : Nat
  exchanges : List ExchangeDecl
  bindings : List BindingDecl
deriving DecidableEq, Repr

/-- `RouteTableVersion::INITIAL`. -/
def initialVersion : Nat := 1

structure QueueTarget where
  shardId : Nat
  queueId : Nat
deriving DecidableEq, Repr

/-! ## Queue sets -/

/-- `QueueSetEntry`. A small set keeps the used part of its array. -/
inductive QueueSetEntry where
  | empty
  | one (target : QueueTarget)
  | small (targets : List QueueTarget)
  | shardGrouped (groups : List (Nat × List Nat))
deriving DecidableEq, Repr

/-- The queues of one shard, each once. -/
def shardQueues (targets : List QueueTarget) (shardId : Nat) : List Nat :=
  targets.foldl (fun queues t =>
    if t.shardId = shardId ∧ t.queueId ∉ queues then queues ++ [t.queueId] else queues) []

/-- A set of shard ids in ascending order, with one more. -/
def insertShard (shardId : Nat) : List Nat → List Nat
  | [] => [shardId]
  | s :: rest =>
    if s = shardId then s :: rest
    else if shardId < s then shardId :: s :: rest
    else s :: insertShard shardId rest

/-- The shards of the targets, in ascending order. -/
def shardGroups (targets : List QueueTarget) : List Nat :=
  targets.foldl (fun shards t => insertShard t.shardId shards) []

def QueueSetEntry.build (targets : List QueueTarget) : QueueSetEntry :=
  match targets with
  | [] => .empty
  | [t] => .one t
  | _ =>
    if targets.length ≤ 4 ∧ (shardGroups targets).length = 1 then .small targets
    else .shardGrouped ((shardGroups targets).map fun s => (s, shardQueues targets s))

def QueueSetEntry.targetsVec : QueueSetEntry → List QueueTarget
  | .empty => []
  | .one t => [t]
  | .small targets => targets
  | .shardGrouped groups => groups.flatMap fun g => g.2.map fun q => ⟨g.1, q⟩

def QueueSetEntry.targetCount : QueueSetEntry → Nat
  | .empty => 0
  | .one _ => 1
  | .small targets => targets.length
  | .shardGrouped groups => (groups.map fun g => g.2.length).sum

/-! ## The table -/

structure RouteFlags where
  fanout : Bool
  direct : Bool
  hasMultipleTargets : Bool
  unroutable : Bool
deriving DecidableEq, Repr

def RouteFlags.bits (f : RouteFlags) : Nat :=
  f.fanout.toNat + 2 * f.direct.toNat + 4 * f.hasMultipleTargets.toNat + 8 * f.unroutable.toNat

structure RouteId where
  index : Nat
  generation : Nat
deriving DecidableEq, Repr

structure RouteEntry where
  generation : Nat
  exchangeId : Nat
  queueSetId : Nat
  flags : RouteFlags
deriving DecidableEq, Repr

structure CompiledExchange where
  id : Nat
  kind : ExchangeKind
  fanoutRouteIndex : Option Nat
deriving DecidableEq, Repr

structure ResolvedRoute where
  routeId : RouteId
  version : Nat
  flags : RouteFlags
deriving DecidableEq, Repr

inductive RouteResolveError where
  | exchangeNotFound
  | unsupportedExchangeKind
  | unroutable
deriving DecidableEq, Repr

inductive RouteLookupError where
  | routeTableVersionMismatch
  | routeGenerationMismatch
  | routeIdInvalid
  | unroutable
deriving DecidableEq, Repr

/-- `RouteTable`. The hash maps are functions to `Option`. -/
structure RouteTable where
  version : Nat
  exchanges : List CompiledExchange
  routeEntries : List RouteEntry
  queueSets : List QueueSetEntry
  directIndex : Nat → Text → Option RouteId
  exchangeById : Nat → Option Nat
  exchangeNames : Text → Option Nat

namespace RouteTable

variable (table : RouteTable)

def newEmpty (version : Nat) : RouteTable where
  version := version
  exchanges := []
  routeEntries := []
  queueSets := []
  directIndex := fun _ _ => none
  exchangeById := fun _ => none
  exchangeNames := fun _ => none

def pushExchange (exchange : CompiledExchange) (name : Text) : RouteTable :=
  { table with
    exchangeNames := update table.exchangeNames name (some exchange.id)
    exchangeById := update table.exchangeById exchange.id (some table.exchanges.length)
    exchanges := table.exchanges ++ [exchange] }

/-- `QueueSetStorage::push` and `push_route_entry` for the set it stores. -/
def pushRoute (exchangeId : Nat) (flags : RouteFlags)
    (set : QueueSetEntry) : RouteTable × RouteId :=
  ({ table with
      queueSets := table.queueSets ++ [set]
      routeEntries := table.routeEntries ++ [⟨1, exchangeId, table.queueSets.length, flags⟩] },
    ⟨table.routeEntries.length, 1⟩)

def mapDirect (exchangeId : Nat) (routingKey : Text) (routeId : RouteId) : RouteTable :=
  { table with
    directIndex := update table.directIndex exchangeId
      (update (table.directIndex exchangeId) routingKey (some routeId)) }

/-- The route at an index, if it has targets. The source indexes the
entries without a check: the indices are those it stored. -/
def routeAt (routeId : RouteId) : Except RouteResolveError ResolvedRoute :=
  match table.routeEntries[routeId.index]? with
  | none => .error .unroutable
  | some entry =>
    if entry.flags.unroutable then .error .unroutable
    else .ok ⟨routeId, table.version, entry.flags⟩

def resolveDirect (exchangeId : Nat) (routingKey : Text) : Except RouteResolveError ResolvedRoute :=
  match (table.exchangeById exchangeId).bind fun i => table.exchanges[i]? with
  | none => .error .exchangeNotFound
  | some exchange =>
    match exchange.kind with
    | .direct =>
      match table.directIndex exchangeId routingKey with
      | none => .error .unroutable
      | some routeId => table.routeAt routeId
    | .fanout =>
      match exchange.fanoutRouteIndex with
      | none => .error .unroutable
      | some i =>
        table.routeAt ⟨i, ((table.routeEntries[i]?).map RouteEntry.generation).getD 0⟩
    | .topic | .headers => .error .unsupportedExchangeKind

def resolveDirectByName (exchangeName routingKey : Text) : Except RouteResolveError ResolvedRoute :=
  match table.exchangeNames exchangeName with
  | none => .error .exchangeNotFound
  | some exchangeId => table.resolveDirect exchangeId routingKey

/-- `get_by_route_id`. A set id no set was stored under reads as empty. -/
def getByRouteId (routeId : RouteId) (expectedVersion : Nat) :
    Except RouteLookupError QueueSetEntry :=
  if table.version ≠ expectedVersion then .error .routeTableVersionMismatch
  else
    match table.routeEntries[routeId.index]? with
    | none => .error .routeIdInvalid
    | some entry =>
      if entry.generation ≠ routeId.generation then .error .routeGenerationMismatch
      else if entry.flags.unroutable then .error .unroutable
      else .ok ((table.queueSets[entry.queueSetId]?).getD .empty)

end RouteTable

end Aurum.Routing
