import Aurum.Broker.SingleNode

/-!
# Service — connections sharing one broker

`BrokerService`: a broker, a registry that says which connection a
consumer belongs to, and an outbox per connection for deliveries another
connection's command caused. Each of the three is behind a lock of its
own, so a call is a sequence of atomic steps and the calls of different
connections interleave. `System` adds to the service where every
connection stands in its call.

A missing outbox is an empty one. The list of connections `route_output`
returns next to the immediate output is read by no caller and left out.
-/

namespace Aurum.Service

open Aurum.Protocol Aurum.Broker List Function

inductive BrokerCommandBatch where
  | ingress (batch : IngressCommandBatch)
  | shard (batch : ShardCommandBatch)
deriving DecidableEq, Repr

/-- One locked update of the `ConnectionRegistry`. -/
inductive RegistryUpdate where
  | register (consumerId connectionId : Nat)
  | unregister (consumerId : Nat)
deriving DecidableEq, Repr

/-- The updates `track_consumers_from_shard` makes, in order. -/
def trackConsumersFromShard (connectionId : Nat) : ShardCommandBatch → List RegistryUpdate
  | .consume items => items.map fun item => .register item.consumerId connectionId
  | .cancel items => items.map fun item => .unregister item.consumerId
  | _ => []

/-- The updates a command makes before it is executed. -/
def BrokerCommandBatch.updates (connectionId : Nat) : BrokerCommandBatch → List RegistryUpdate
  | .ingress _ => []
  | .shard batch => trackConsumersFromShard connectionId batch

theorem BrokerCommandBatch.of_mem_updates {k : Nat} {u : RegistryUpdate} :
    ∀ {cmd : BrokerCommandBatch}, u ∈ cmd.updates k →
      (∃ items, cmd = .shard (.consume items)) ∨ ∃ items, cmd = .shard (.cancel items)
  | .shard (.consume items), _ => .inl ⟨items, rfl⟩
  | .shard (.cancel items), _ => .inr ⟨items, rfl⟩

structure BrokerService (σ : Type) where
  broker : SingleNodeBroker σ
  registry : Nat → Option Nat
  outboxes : Nat → List ShardOutputBatch

namespace BrokerService

variable {σ : Type} (s : BrokerService σ)

/-- `BrokerService::new`, with the broker it builds. -/
def new (broker : SingleNodeBroker σ) : BrokerService σ := ⟨broker, fun _ => none, fun _ => []⟩

/-- `register_consumer` and `unregister_consumer`. -/
def updateRegistry : RegistryUpdate → BrokerService σ
  | .register consumerId connectionId =>
    { s with registry := update s.registry consumerId (some connectionId) }
  | .unregister consumerId =>
    { s with registry := update s.registry consumerId none }

/-- The step under the broker lock. -/
def execute (store : ShardStorage σ) (s : BrokerService σ) (cmd : BrokerCommandBatch) :
    BrokerService σ × ShardOutputBatch :=
  let (broker, out) := match cmd with
    | .ingress batch => s.broker.executeIngress store batch
    | .shard batch => s.broker.executeShard store batch
  ({ s with broker := broker }, out)

/-- The connection `route_output` sends a delivery to. -/
def routeTarget (source : Nat) (d : DeliveryEventBatch) : Nat :=
  (s.registry d.consumerId).getD source

/-- The deliveries that go to `target`. -/
def routedTo (source target : Nat) (ds : List DeliveryEventBatch) : List DeliveryEventBatch :=
  ds.filter fun d => s.routeTarget source d = target

/-- The outbox of `connectionId` after `route_output`. -/
def outboxAfter (source : Nat) (ds : List DeliveryEventBatch)
    (connectionId : Nat) : List ShardOutputBatch :=
  if connectionId = source ∨ s.routedTo source connectionId ds = [] then s.outboxes connectionId
  else s.outboxes connectionId ++
    [{ ShardOutputBatch.empty with deliveries := s.routedTo source connectionId ds }]

/-- `route_output`: the service and the immediate output. -/
def routeOutput (source : Nat) (output : ShardOutputBatch) : BrokerService σ × ShardOutputBatch :=
  if output.deliveries = [] then (s, output)
  else
    ({ s with outboxes := s.outboxAfter source output.deliveries },
      { output with deliveries := s.routedTo source source output.deliveries })

def drainConnectionOutputs (connectionId : Nat) : BrokerService σ × ShardOutputBatch :=
  ({ s with outboxes := update s.outboxes connectionId [] },
    (s.outboxes connectionId).foldl ShardOutputBatch.merge .empty)

end BrokerService

/-! ## Interleavings -/

/-- A call that has not reached the broker yet, with the registry updates
it still has to make. -/
structure Call where
  source : Nat
  updates : List RegistryUpdate
  cmd : BrokerCommandBatch

/-- What the broker produced for one command. `owners` lists, delivery by
delivery, the connection whose consumer it was made for. -/
structure Executed where
  source : Nat
  output : ShardOutputBatch
  owners : List (Option Nat)

/-- What a connection's step produced or got back. -/
inductive Observation where
  | executed (connectionId : Nat) (output : ShardOutputBatch)
  | routed (connectionId : Nat) (output immediate : ShardOutputBatch)
  | drained (connectionId : Nat) (output : ShardOutputBatch)

/-- One event of a command of connection `source` read for ownership: a
consumer belongs to the connection whose command started it, until it is
cancelled. -/
def trackOwner (source : Nat) (acc : (Nat → Option Nat) × List (Option Nat)) :
    Event → (Nat → Option Nat) × List (Option Nat)
  | .consumer c .started => (update acc.1 c (some source), acc.2)
  | .consumer c .cancelled => (update acc.1 c none, acc.2)
  | .delivery batch => (acc.1, acc.2 ++ [acc.1 batch.consumerId])
  | _ => acc

/-- A service and the connections that use it. `calls` are the calls that
have not reached the broker yet, `waiting` the outputs that were not
routed yet, oldest first; `owner` and `trace` record the past. -/
structure System (σ : Type) where
  service : BrokerService σ
  calls : List Call
  waiting : List Executed
  owner : Nat → Option Nat
  trace : List Observation

/-- The atomic steps. -/
inductive Step where
  | call (connectionId : Nat) (cmd : BrokerCommandBatch)
  | track (connectionId : Nat)
  | execute (connectionId : Nat)
  | route (connectionId : Nat)
  | drain (connectionId : Nat)
  | control (cmd : AmqpControlCommand)
deriving DecidableEq, Repr

namespace System

variable {σ : Type}

/-- A service nobody has called yet. -/
def new (broker : SingleNodeBroker σ) : System σ :=
  ⟨.new broker, [], [], fun _ => none, []⟩

/-- The connection is not in the middle of a call. -/
def Idle (s : System σ) (connectionId : Nat) : Prop :=
  (∀ call ∈ s.calls, call.source ≠ connectionId) ∧ ∀ e ∈ s.waiting, e.source ≠ connectionId

instance (s : System σ) (connectionId : Nat) : Decidable (s.Idle connectionId) :=
  inferInstanceAs (Decidable (_ ∧ _))

/-- The step of `connectionId` under the broker lock. -/
def execute (store : ShardStorage σ) (s : System σ) (connectionId : Nat)
    (cmd : BrokerCommandBatch) : System σ :=
  let (service, output) := s.service.execute store cmd
  let es := service.broker.broker.shard.sink.drop s.service.broker.broker.shard.sink.length
  let (owner, owners) := es.foldl (trackOwner connectionId) (s.owner, [])
  { s with
    service := service
    calls := s.calls.filter (·.source ≠ connectionId)
    waiting := s.waiting ++ [⟨connectionId, output, owners⟩]
    owner := owner
    trace := s.trace ++ [.executed connectionId output] }

/-- The step of `e.source` under the registry and outbox locks. -/
def route (s : System σ) (e : Executed) : System σ :=
  let (service, immediate) := s.service.routeOutput e.source e.output
  { s with
    service := service
    waiting := s.waiting.eraseP (·.source = e.source)
    trace := s.trace ++ [.routed e.source e.output immediate] }

/-- One step; a step the connection is not ready for does nothing. -/
def step (store : ShardStorage σ) (s : System σ) : Step → System σ
  | .call connectionId cmd =>
    if s.Idle connectionId then
      { s with calls := s.calls ++ [⟨connectionId, cmd.updates connectionId, cmd⟩] }
    else s
  | .track connectionId =>
    match s.calls.find? (·.source = connectionId) with
    | some ⟨_, u :: us, cmd⟩ =>
      { s with
        service := s.service.updateRegistry u
        calls := s.calls.filter (·.source ≠ connectionId) ++ [⟨connectionId, us, cmd⟩] }
    | _ => s
  | .execute connectionId =>
    match s.calls.find? (·.source = connectionId) with
    | some ⟨_, [], cmd⟩ => s.execute store connectionId cmd
    | _ => s
  | .route connectionId =>
    match s.waiting.find? (·.source = connectionId) with
    | some e => s.route e
    | none => s
  | .drain connectionId =>
    if s.Idle connectionId then
      let (service, output) := s.service.drainConnectionOutputs connectionId
      { s with service := service, trace := s.trace ++ [.drained connectionId output] }
    else s
  | .control cmd =>
    { s with service := { s.service with
        broker := (s.service.broker.handleAmqpControl store cmd).1 } }

/-- A sequence of steps. -/
def run (store : ShardStorage σ) (s : System σ) (steps : List Step) : System σ :=
  steps.foldl (step store) s

end System

/-- The output a connection routes next, among those that wait. -/
theorem find?_waiting {l : List Executed} {c : Nat} {e : Executed}
    (h : l.find? (·.source = c) = some e) :
    ∃ pre post, l = pre ++ e :: post ∧ e.source = c ∧
      l.eraseP (·.source = e.source) = pre ++ post ∧ l.takeWhile (·.source ≠ c) = pre := by
  obtain ⟨hc, pre, post, rfl, hpre⟩ := find?_eq_some_iff_append.mp h
  have hc' : e.source = c := by simpa using hc
  refine ⟨pre, post, rfl, hc', ?_, ?_⟩
  · rw [eraseP_append_right]
    · simp
    · intro x hx
      simpa [hc'] using hpre x hx
  · rw [takeWhile_append_of_pos fun x hx => by simpa using hpre x hx]
    simp [hc']

end Aurum.Service
