import Aurum.Routing.Table
import Mathlib.Data.List.Sort
import Mathlib.Data.List.Nodup

/-!
# Routing — compiling a configuration

`RouteCompiler::compile` lays the routes out exchange by exchange, in the
order of declaration: a direct exchange has one route per routing key, in
ascending order of the keys, a fanout exchange has exactly one. `slots`
says this without the table, and `compile_spec` that the table agrees.
-/

namespace Aurum.Routing

inductive RouteCompileError where
  | duplicateExchangeId
  | exchangeNotFound
  | unsupportedExchangeKind
  | emptyConfig
deriving DecidableEq, Repr

/-! ## The compiler -/

/-- `by_key.entry(key).or_default().push(target)` on a sorted map. -/
def addTarget (key : Text) (target : QueueTarget) :
    List (Text × List QueueTarget) → List (Text × List QueueTarget)
  | [] => [(key, [target])]
  | (k, ts) :: rest =>
    if k = key then (k, ts ++ [target]) :: rest
    else if key < k then (key, [target]) :: (k, ts) :: rest
    else (k, ts) :: addTarget key target rest

/-- `by_key` of `compile_direct`. -/
def byKey (bindings : List BindingDecl) (exchangeId : Nat) : List (Text × List QueueTarget) :=
  bindings.foldl (fun m b =>
    if b.exchangeId ≠ exchangeId then m
    else addTarget b.routingKey ⟨b.targetShard, b.queueId⟩ m) []

/-- The order of `sort_by_key(|t| (t.shard_id, t.queue_id))`. -/
def QueueTarget.le (a b : QueueTarget) : Bool :=
  a.shardId < b.shardId || (a.shardId == b.shardId && a.queueId ≤ b.queueId)

def dedupeTargets (targets : List QueueTarget) : List QueueTarget :=
  targets.eraseDups.insertionSort fun a b => a.le b

def routeFlagsForEntry (entry : QueueSetEntry) (base : RouteFlags) : RouteFlags :=
  match entry with
  | .empty => { base with unroutable := true }
  | .one _ => base
  | .small targets =>
    if 1 < targets.length then { base with hasMultipleTargets := true } else base
  | .shardGrouped _ => { base with hasMultipleTargets := true }

/-- One key of `compile_direct`. -/
def compileKey (exchangeId : Nat) (table : RouteTable) (key : Text × List QueueTarget) :
    RouteTable :=
  let entry := QueueSetEntry.build (dedupeTargets key.2)
  let (table, routeId) :=
    table.pushRoute exchangeId (routeFlagsForEntry entry ⟨false, true, false, false⟩) entry
  table.mapDirect exchangeId key.1 routeId

def compileDirect (exchange : ExchangeDecl) (config : RoutingConfig) (table : RouteTable) :
    RouteTable :=
  (byKey config.bindings exchange.id).foldl (compileKey exchange.id)
    (table.pushExchange ⟨exchange.id, .direct, none⟩ exchange.name)

def fanoutTargets (bindings : List BindingDecl) (exchangeId : Nat) : List QueueTarget :=
  (bindings.filter (·.exchangeId = exchangeId)).map fun b => ⟨b.targetShard, b.queueId⟩

/-- `compile_fanout`. Building the empty set gives the empty entry, so the
source's two cases are one. -/
def compileFanout (exchange : ExchangeDecl) (config : RoutingConfig) (table : RouteTable) :
    RouteTable :=
  let targets := dedupeTargets (fanoutTargets config.bindings exchange.id)
  let entry := QueueSetEntry.build targets
  let flags := routeFlagsForEntry entry ⟨true, false, false, false⟩
  let flags := if targets = [] then { flags with unroutable := true } else flags
  let (table, routeId) := table.pushRoute exchange.id flags entry
  table.pushExchange ⟨exchange.id, .fanout, some routeId.index⟩ exchange.name

/-- One exchange of the loop of `compile`. -/
def compileExchange (config : RoutingConfig) (table : RouteTable) (exchange : ExchangeDecl) :
    Except RouteCompileError RouteTable :=
  match exchange.kind with
  | .direct => .ok (compileDirect exchange config table)
  | .fanout => .ok (compileFanout exchange config table)
  | .topic | .headers => .error .unsupportedExchangeKind

def compile (config : RoutingConfig) : Except RouteCompileError RouteTable :=
  if config.exchanges = [] then .error .emptyConfig
  else if ¬ (config.exchanges.map ExchangeDecl.id).Nodup then .error .duplicateExchangeId
  else if ¬ ∀ b ∈ config.bindings, b.exchangeId ∈ config.exchanges.map ExchangeDecl.id then
    .error .exchangeNotFound
  else config.exchanges.foldlM (compileExchange config) (RouteTable.newEmpty config.version)

end Aurum.Routing
