import Aurum.Broker.Ingress

/-!
# Broker — the single-node broker

`SingleNodeBroker`: names of exchanges and queues, the routing
configuration they are bound in, and the broker that is given a freshly
compiled table after every change. Server state and metrics are left out.
-/

namespace Aurum.Broker

open Aurum.Protocol Aurum.Routing Function

/-- `AmqpControlCommand`; the durable flag of an exchange is ignored. -/
inductive AmqpControlCommand where
  | declareExchange (name exchangeType : Text)
  | declareQueue (name : Text)
  | bindQueue (queue exchange routingKey : Text)
  | resolveQueueId (name : Text)
deriving DecidableEq, Repr

structure AmqpControlResult where
  ok : Bool
  queueName : Text
  queueId : Option Nat
deriving DecidableEq, Repr

/-- `AmqpControlResult::ok`. -/
def AmqpControlResult.success : AmqpControlResult := ⟨true, [], none⟩

structure ExchangeBootstrap where
  name : Text
  kind : Text
deriving DecidableEq, Repr

structure BindingBootstrap where
  exchange : Text
  queue : Text
  routingKey : Text
deriving DecidableEq, Repr

/-- `RoutingBootstrapConfig`; a queue is its name. -/
structure RoutingBootstrapConfig where
  exchanges : List ExchangeBootstrap
  queues : List Text
  bindings : List BindingBootstrap
deriving DecidableEq, Repr

/-- `"amq.direct"`. -/
def amqDirect : Text := [97, 109, 113, 46, 100, 105, 114, 101, 99, 116]

/-- `"direct"`. -/
def directType : Text := [100, 105, 114, 101, 99, 116]

/-- `"test.queue"`. -/
def testQueue : Text := [116, 101, 115, 116, 46, 113, 117, 101, 117, 101]

/-- The routing of `SingleNodeBrokerConfig::dev_defaults`; the key of its
binding is `"test"`. -/
def devDefaults : RoutingBootstrapConfig :=
  ⟨[⟨amqDirect, directType⟩], [testQueue], [⟨amqDirect, testQueue, [116, 101, 115, 116]⟩]⟩

/-- `BrokerInitError::Routing`, by what its text reports. -/
inductive BrokerInitError where
  | unknownExchange (name : Text)
  | unknownQueue (name : Text)
  | compile (error : RouteCompileError)
deriving DecidableEq, Repr

/-- `"fanout"`. -/
def fanoutType : Text := [102, 97, 110, 111, 117, 116]

/-- The declaration of an exchange of the given type. -/
def exchangeDecl (id : Nat) (name exchangeType : Text) : ExchangeDecl :=
  ⟨id, name, if exchangeType = fanoutType then .fanout else .direct⟩

/-- The binding of a queue at an exchange: a fanout exchange keeps no key. -/
def bindingDecl (config : RoutingConfig) (exchangeId queueId : Nat) (routingKey : Text) :
    BindingDecl :=
  match config.exchanges.find? (·.id = exchangeId) with
  | some ⟨_, _, .fanout⟩ => .fanout exchangeId queueId
  | _ => .direct exchangeId queueId routingKey

/-- The name `DeclareQueue` generates. -/
def generatedName (queueId : Nat) : Text := ("amq.gen-" ++ toString queueId).toUTF8.data.toList

structure SingleNodeBroker (σ : Type) where
  broker : InMemoryBroker σ
  routingConfig : RoutingConfig
  exchangeNames : Text → Option Nat
  queueNames : Text → Option Nat
  nextExchangeId : Nat
  nextQueueId : Nat

/-- What `bootstrap_routing` builds. -/
structure Bootstrap where
  routingConfig : RoutingConfig
  exchangeNames : Text → Option Nat
  queueNames : Text → Option Nat
  nextExchangeId : Nat
  nextQueueId : Nat

namespace Bootstrap

/-- `bootstrap_routing` before its loops. -/
def start : Bootstrap := ⟨⟨initialVersion, [], []⟩, fun _ => none, fun _ => none, 1, 1⟩

/-- A new exchange under the next id. -/
def addExchange (b : Bootstrap) (e : ExchangeBootstrap) : Bootstrap :=
  { b with
    routingConfig := { b.routingConfig with
      exchanges := b.routingConfig.exchanges ++ [exchangeDecl b.nextExchangeId e.name e.kind] }
    exchangeNames := update b.exchangeNames e.name (some b.nextExchangeId)
    nextExchangeId := b.nextExchangeId + 1 }

/-- A new queue under the next id. -/
def addQueue (b : Bootstrap) (name : Text) : Bootstrap :=
  { b with
    queueNames := update b.queueNames name (some b.nextQueueId)
    nextQueueId := b.nextQueueId + 1 }

/-- One configured binding. -/
def addBinding (b : Bootstrap) (d : BindingBootstrap) : Except BrokerInitError Bootstrap :=
  match b.exchangeNames d.exchange with
  | none => .error (.unknownExchange d.exchange)
  | some exchangeId =>
    match b.queueNames d.queue with
    | none => .error (.unknownQueue d.queue)
    | some queueId =>
      .ok { b with
        routingConfig := { b.routingConfig with
          bindings := b.routingConfig.bindings ++
            [bindingDecl b.routingConfig exchangeId queueId d.routingKey] } }

/-- `bootstrap_routing`. -/
def routing (config : RoutingBootstrapConfig) : Except BrokerInitError Bootstrap :=
  config.bindings.foldlM addBinding
    (config.queues.foldl addQueue (config.exchanges.foldl addExchange start))

theorem addBinding_ok {b b' : Bootstrap} {d : BindingBootstrap} (h : b.addBinding d = .ok b') :
    ∃ exchangeId queueId, b.exchangeNames d.exchange = some exchangeId ∧ b' = { b with
      routingConfig := { b.routingConfig with
        bindings := b.routingConfig.bindings ++
          [bindingDecl b.routingConfig exchangeId queueId d.routingKey] } } := by
  unfold addBinding at h
  split at h
  · cases h
  · next exchangeId hid =>
    split at h
    · cases h
    · next queueId _ => exact ⟨exchangeId, queueId, hid, (Except.ok.inj h).symm⟩

/-- **The rule for `bootstrap_routing`.** -/
theorem invariant {I : Bootstrap → Prop} (hstart : I start)
    (hexchange : ∀ b e, I b → I (b.addExchange e)) (hqueue : ∀ b q, I b → I (b.addQueue q))
    (hbinding : ∀ b d b', I b → b.addBinding d = .ok b' → I b')
    {config : RoutingBootstrapConfig} {b : Bootstrap} (h : routing config = .ok b) : I b := by
  have hfold : ∀ (l : List BindingBootstrap) (b b' : Bootstrap), I b →
      l.foldlM addBinding b = .ok b' → I b' := by
    intro l
    induction l with
    | nil =>
      intro b b' hb hrun
      obtain rfl : b = b' := by simpa [pure, Except.pure] using hrun
      exact hb
    | cons d l ih =>
      intro b b' hb hrun
      rw [List.foldlM_cons] at hrun
      cases hstep : b.addBinding d with
      | error err => simp [hstep, bind, Except.bind] at hrun
      | ok b₁ =>
        rw [hstep] at hrun
        exact ih b₁ b' (hbinding b d b₁ hb hstep) hrun
  refine hfold _ _ b (List.foldlRecOn _ _ ?_ fun b hb q _ => hqueue b q hb) h
  exact List.foldlRecOn _ _ hstart fun b hb e _ => hexchange b e hb

end Bootstrap

namespace SingleNodeBroker

variable {σ : Type} (b : SingleNodeBroker σ) (store : ShardStorage σ)

/-- `SingleNodeBroker::new`, with the store it opened, if any. -/
def new (routing : RoutingBootstrapConfig) (durable : Option σ) :
    Except BrokerInitError (SingleNodeBroker σ) := do
  let b ← Bootstrap.routing routing
  match compile b.routingConfig with
  | .error e => .error (.compile e)
  | .ok table =>
    .ok {
      broker := ⟨table, .new 0 durable⟩
      routingConfig := b.routingConfig
      exchangeNames := b.exchangeNames
      queueNames := b.queueNames
      nextExchangeId := b.nextExchangeId
      nextQueueId := b.nextQueueId }

theorem new_shard {routing : RoutingBootstrapConfig} {durable : Option σ} {b : SingleNodeBroker σ}
    (h : new routing durable = .ok b) : b.broker.shard = .new 0 durable := by
  simp only [new, bind, Except.bind] at h
  split at h
  · cases h
  · split at h
    · cases h
    · cases h
      rfl

/-- A broker with the default routing and no store. -/
def dev : SingleNodeBroker Unit := (new devDefaults none).toOption.get rfl

theorem new_dev : new devDefaults none = .ok dev := rfl

def executeShard (b : SingleNodeBroker σ) (batch : ShardCommandBatch) :
    SingleNodeBroker σ × ShardOutputBatch :=
  let (broker, out) := b.broker.execute store batch
  ({ b with broker := broker }, out)

def executeIngress (b : SingleNodeBroker σ)
    (batch : IngressCommandBatch) : SingleNodeBroker σ × ShardOutputBatch :=
  let (broker, out) := b.broker.executeIngress store batch
  ({ b with broker := broker }, out)

/-- `recompile_routes`. The source panics if the configuration does not
compile; `compile_wellFormed` says that it always does. -/
def recompileRoutes : SingleNodeBroker σ :=
  match compile b.routingConfig with
  | .error _ => b
  | .ok table => { b with broker := { b.broker with routeTable := table } }

/-- The id of a queue name, which is given the next id if it is new. -/
def queueIdFor (name : Text) : SingleNodeBroker σ × Nat :=
  match b.queueNames name with
  | some id => (b, id)
  | none =>
    ({ b with
        queueNames := update b.queueNames name (some b.nextQueueId)
        nextQueueId := b.nextQueueId + 1 },
      b.nextQueueId)

def declareExchange (name exchangeType : Text) : SingleNodeBroker σ :=
  recompileRoutes
    { b with
      routingConfig := { b.routingConfig with
        exchanges := b.routingConfig.exchanges ++
          [exchangeDecl b.nextExchangeId name exchangeType] }
      exchangeNames := update b.exchangeNames name (some b.nextExchangeId)
      nextExchangeId := b.nextExchangeId + 1 }

/-- The id `DeclareQueue` gives a name; an empty name is never stored. -/
def declaredId (name : Text) : SingleNodeBroker σ × Nat :=
  if name = [] then ({ b with nextQueueId := b.nextQueueId + 1 }, b.nextQueueId)
  else b.queueIdFor name

/-- `DeclareQueue`; what the executor answers is dropped. -/
def declareQueue (b : SingleNodeBroker σ) (name : Text) : SingleNodeBroker σ × AmqpControlResult :=
  let (b, id) := b.declaredId name
  ((b.executeShard store (.declare [id])).1,
    ⟨true, if name = [] then generatedName id else name, some id⟩)

def bindQueue (queue exchange routingKey : Text) : SingleNodeBroker σ × AmqpControlResult :=
  match b.exchangeNames exchange with
  | none => (b, ⟨false, [], none⟩)
  | some exchangeId =>
    let (b, queueId) := b.queueIdFor queue
    (recompileRoutes
      { b with
        routingConfig := { b.routingConfig with
          bindings := b.routingConfig.bindings ++
            [bindingDecl b.routingConfig exchangeId queueId routingKey] } },
      .success)

def handleAmqpControl (b : SingleNodeBroker σ) :
    AmqpControlCommand → SingleNodeBroker σ × AmqpControlResult
  | .declareExchange name exchangeType => (b.declareExchange name exchangeType, .success)
  | .declareQueue name => b.declareQueue store name
  | .bindQueue queue exchange routingKey => b.bindQueue queue exchange routingKey
  | .resolveQueueId name => (b, ⟨(b.queueNames name).isSome, name, b.queueNames name⟩)

def resolveAmqpRoute (exchange routingKey : Text) : Option RoutePublishTarget :=
  match b.broker.routeTable.resolveDirectByName exchange routingKey with
  | .ok r => some ⟨r.routeId, r.version⟩
  | .error _ => none

end SingleNodeBroker

end Aurum.Broker
