import Aurum.Broker.Payloads
import Aurum.Routing.Growth
import Aurum.Lib.Runs

/-!
# Broker — publishing to a route resolved earlier

A client resolves an exchange and a key once and publishes to the route
id it got. The guards of a publish are the version of the table, which no
recompilation changes, and the generation of the entry, which is always
one; so the id is a bare position. The publish reaches the queues bound
to the exchange and key at that time if no binding in between put a new
route before the resolved one.
-/

namespace Aurum.Broker

open Aurum.Bits Aurum.Queue Aurum.Consumer Aurum.Protocol Aurum.Routing InMemoryShardExecutor List
open QueueSetEntry

variable {σ : Type} {s s' : InMemoryShardExecutor σ}

/-! ## The shard of a broker -/

variable {P : Action σ → Prop} {batch : IngressPublishBatch} {exchange : Text}
  {routing : RoutingBootstrapConfig}

theorem reaches_shardId (h : Reaches P s s') : s'.shardId = s.shardId := by
  obtain ⟨actions, -, rfl⟩ := h
  induction actions generalizing s with
  | nil => rfl
  | cons a actions ih => rw [foldl_cons, ih, (act_writes s a).shardId]

namespace InMemoryBroker

variable {store : ShardStorage σ} {b : InMemoryBroker σ}

/-- A store that accepts every publish. -/
def AcceptsAll (store : ShardStorage σ) : Prop :=
  ∀ d queueId baseSeq bufs, (store.appendPublish d queueId baseSeq bufs).2 = true

theorem AcceptsAll.accepts (h : AcceptsAll store) (s : InMemoryShardExecutor σ)
    (batch : ShardPublishBatch) : Accepts store s batch := by
  intro queue _
  unfold storePublish
  split
  · rfl
  · exact h _ _ _ _

/-- `ensure_queue` declares the queue and changes nothing else. -/
structure Ensures (queueId : Nat) (s s' : InMemoryShardExecutor σ) : Prop where
  coherent : Coherent s'
  shardId : s'.shardId = s.shardId
  nextSeq : ∀ k, s'.nextSeqOf k = s.nextSeqOf k
  payloads : ∀ k, s'.payloadsOf k = s.payloadsOf k
  declared : ∃ queue, s'.queues queueId = some queue

theorem ensures_ensureQueue (store : ShardStorage σ) (hcoh : Coherent b.shard) (queueId : Nat) :
    Ensures queueId b.shard (b.ensureQueue store queueId).shard := by
  unfold ensureQueue
  split
  · next queue hq => exact ⟨hcoh, rfl, fun _ => rfl, fun _ => rfl, queue, hq⟩
  · next hq =>
    have hact : b.shard.act (.declare queueId) =
        (b.execute store (.declare [queueId])).1.shard := by
      simp [act, execute, InMemoryShardExecutor.execute, execDeclareQueue, hq]
    have hwrites := act_writes b.shard (.declare queueId)
    have hqueues := hwrites.queues (by simp)
    rw [← hact]
    refine ⟨(act_effect hcoh _).1, hwrites.shardId, congrFun (hqueues.2 hcoh),
      congrFun hqueues.1, QueueState.empty, ?_⟩
    simp [act, hq, InMemoryShardExecutor.setQueue]

theorem ensureQueue_routeTable (queueId : Nat) :
    (b.ensureQueue store queueId).routeTable = b.routeTable := by
  unfold ensureQueue
  split <;> rfl

/-- **One target** of `publish_by_route`. -/
theorem publishes_publishToTarget (haccept : AcceptsAll store) (batch : IngressPublishBatch)
    {acc : InMemoryBroker σ × ShardOutputBatch} (hcoh : Coherent acc.1.shard) {t : QueueTarget}
    (ht : t.shardId = acc.1.shard.shardId) :
    Publishes (shardBatch batch t.queueId) acc.1.shard
        (publishToTarget store batch acc t).1.shard ∧
      (publishToTarget store batch acc t).1.shard.shardId = acc.1.shard.shardId ∧
      (publishToTarget store batch acc t).1.routeTable = acc.1.routeTable := by
  have h1 := ensures_ensureQueue store hcoh t.queueId
  have h2 := ensures_ensureQueue store h1.coherent t.queueId
  obtain ⟨queue, hq⟩ := h2.declared
  have hpub : Publishes (shardBatch batch t.queueId) _ _ :=
    publishes_execPublish store h2.coherent hq (haccept.accepts _ _)
  have hshard := reaches_shardId (reaches_execute (P := fun _ => True) (fun _ => trivial) store
    ((acc.1.ensureQueue store t.queueId).ensureQueue store t.queueId).shard
    (.publish (shardBatch batch t.queueId)))
  rw [publishToTarget, if_neg (not_not.mpr ht)]
  refine ⟨⟨hpub.coherent, fun k => ?_, fun k x => ?_⟩, ?_, ?_⟩
  · rw [← h1.nextSeq k, ← h2.nextSeq k]
    exact hpub.nextSeq k
  · rw [← h1.nextSeq k, ← h2.nextSeq k, ← h1.payloads k, ← h2.payloads k]
    exact hpub.payloads k x
  · rw [← h1.shardId, ← h2.shardId]
    exact hshard
  · exact (ensureQueue_routeTable (b := acc.1.ensureQueue store t.queueId) t.queueId).trans
      (ensureQueue_routeTable t.queueId)

/-- What publishing the records to the queues `Q` adds. -/
structure Appends (records : List PublishRecord) (Q : Nat → Prop) (s s' : InMemoryShardExecutor σ) :
    Prop where
  bound : ∀ k, Q k → s'.nextSeqOf k = s.nextSeqOf k + records.length ∧
    ∀ x, s'.payloadsOf k x = insertPayloads (s.payloadsOf k) (s.nextSeqOf k) records x
  other : ∀ k, ¬ Q k → s'.nextSeqOf k = s.nextSeqOf k ∧ s'.payloadsOf k = s.payloadsOf k

theorem count_shardBatch (h : batch.records.length < 2 ^ 32) (queueId : Nat) :
    (shardBatch batch queueId).count = batch.records.length := by
  simp only [ShardPublishBatch.count, shardBatch, Nat.mod_eq_of_lt h]
  split <;> rfl

/-- **The loop** of `publish_by_route`. -/
theorem appends_foldl (haccept : AcceptsAll store) (hlen : batch.records.length < 2 ^ 32) :
    ∀ (targets : List QueueTarget)
    (acc : InMemoryBroker σ × ShardOutputBatch), Coherent acc.1.shard → targets.Nodup →
    (∀ t ∈ targets, t.shardId = acc.1.shard.shardId) →
    Appends batch.records (fun k => ⟨acc.1.shard.shardId, k⟩ ∈ targets) acc.1.shard
      (targets.foldl (publishToTarget store batch) acc).1.shard := by
  intro targets
  induction targets with
  | nil => exact fun acc _ _ _ => ⟨fun k hk => by simp at hk, fun k _ => ⟨rfl, rfl⟩⟩
  | cons t targets ih =>
    intro acc hcoh hnd hlocal
    rw [nodup_cons] at hnd
    have ht := hlocal t (by simp)
    obtain ⟨hpub, hid, -⟩ := publishes_publishToTarget haccept batch hcoh ht
    rw [foldl_cons]
    have hrest := ih (publishToTarget store batch acc t) hpub.coherent hnd.2
      fun t' ht' => (hlocal t' (by simp [ht'])).trans hid.symm
    rw [hid] at hrest
    have hqueue : (shardBatch batch t.queueId).queueId = t.queueId := rfl
    have heta : t = ⟨acc.1.shard.shardId, t.queueId⟩ := by rw [← ht]
    have hnext := hpub.nextSeq
    have hpay := hpub.payloads
    simp only [hqueue, count_shardBatch hlen] at hnext hpay
    refine ⟨fun k hk => ?_, fun k hk => ?_⟩
    · by_cases hkt : k = t.queueId
      · -- the queue of `t`, which no later target names
        subst hkt
        have hnot : (⟨acc.1.shard.shardId, t.queueId⟩ : QueueTarget) ∉ targets := heta ▸ hnd.1
        obtain ⟨h1, h2⟩ := hrest.other t.queueId hnot
        refine ⟨by rw [h1, hnext, if_pos rfl], fun x => ?_⟩
        rw [h2, hpay, if_pos rfl]
        rfl
      · have hk' : (⟨acc.1.shard.shardId, k⟩ : QueueTarget) ∈ targets := by
          refine (mem_cons.mp hk).resolve_left fun hc => hkt ?_
          rw [← hc]
        obtain ⟨h1, h2⟩ := hrest.bound k hk'
        have hsame : (publishToTarget store batch acc t).1.shard.nextSeqOf k =
            acc.1.shard.nextSeqOf k := by rw [hnext, if_neg hkt, Nat.add_zero]
        have hsame' : (publishToTarget store batch acc t).1.shard.payloadsOf k =
            acc.1.shard.payloadsOf k := funext fun x => by rw [hpay, if_neg hkt]
        rw [hsame] at h1 h2
        rw [hsame'] at h2
        exact ⟨h1, h2⟩
    · rw [mem_cons, not_or] at hk
      have hkt : k ≠ t.queueId := fun hc => hk.1 (by rw [hc, ← heta])
      obtain ⟨h1, h2⟩ := hrest.other k hk.2
      refine ⟨by rw [h1, hnext, if_neg hkt, Nat.add_zero], ?_⟩
      rw [h2]
      exact funext fun x => by rw [hpay, if_neg hkt]

end InMemoryBroker

/-! ## The routing of a broker -/

/-- What holds of the configuration, the names and the next id of a
broker. -/
structure Named (config : RoutingConfig) (names : Text → Option Nat) (next : Nat) : Prop where
  version : config.version = initialVersion
  ordered : config.Ordered
  below : ∀ e ∈ config.exchanges, e.id < next
  kinds : ∀ e ∈ config.exchanges, e.kind = .direct ∨ e.kind = .fanout
  names : ∀ n id, names n = some id → id ∈ config.exchanges.map ExchangeDecl.id
  known : ∀ b ∈ config.bindings, b.exchangeId ∈ config.exchanges.map ExchangeDecl.id
  shards : ∀ b ∈ config.bindings, b.targetShard = 0

variable {config : RoutingConfig} {names : Text → Option Nat} {next : Nat}

theorem Named.wellFormed (h : Named config names next) (hne : config.exchanges ≠ []) :
    WellFormed config where
  nonempty := hne
  nodup := by
    rw [nodup_iff_pairwise_ne, pairwise_map]
    exact h.ordered.imp Nat.ne_of_lt
  known := h.known
  kinds := h.kinds

/-- A new exchange under the next id. -/
theorem Named.addExchange (h : Named config names next) (name exchangeType : Text) :
    Named (config.addExchange (exchangeDecl next name exchangeType))
      (Function.update names name (some next)) (next + 1) where
  version := h.version
  ordered := by
    refine pairwise_append.mpr ⟨h.ordered, pairwise_singleton _ _, fun e he e' he' => ?_⟩
    rw [mem_singleton.mp he']
    exact h.below e he
  below := fun e he => by
    rcases mem_append.mp he with he | he
    · exact Nat.lt_succ_of_lt (h.below e he)
    · rw [mem_singleton.mp he]
      exact Nat.lt_succ_self next
  kinds := fun e he => by
    rcases mem_append.mp he with he | he
    · exact h.kinds e he
    · rw [mem_singleton.mp he, exchangeDecl]
      split <;> simp
  names := fun n id hn => by
    simp only [RoutingConfig.addExchange, map_append, mem_append]
    rw [Function.update_apply] at hn
    split at hn
    · exact .inr (by simp [← Option.some.inj hn, exchangeDecl])
    · exact .inl (h.names n id hn)
  known := fun b hb => by
    simp only [RoutingConfig.addExchange, map_append, mem_append]
    exact .inl (h.known b hb)
  shards := h.shards

theorem bindingDecl_frame (config : RoutingConfig) (id queueId : Nat) (key : Text) :
    (bindingDecl config id queueId key).exchangeId = id ∧
    (bindingDecl config id queueId key).targetShard = 0 := by
  unfold bindingDecl
  split <;> exact ⟨rfl, rfl⟩

/-- A new binding of a known exchange. -/
theorem Named.addBinding (h : Named config names next) {id : Nat} (hid : names exchange = some id)
    (queueId : Nat) (key : Text) :
    Named (config.addBinding (bindingDecl config id queueId key)) names next where
  version := h.version
  ordered := h.ordered
  below := h.below
  kinds := h.kinds
  names := h.names
  known := fun b hb => by
    rcases mem_append.mp hb with hb | hb
    · exact h.known b hb
    · rw [mem_singleton.mp hb, (bindingDecl_frame config id queueId key).1]
      exact h.names exchange id hid
  shards := fun b hb => by
    rcases mem_append.mp hb with hb | hb
    · exact h.shards b hb
    · rw [mem_singleton.mp hb, (bindingDecl_frame config id queueId key).2]

/-- The configuration a broker is started with. -/
theorem named_bootstrap {b : Bootstrap} (h : Bootstrap.routing routing = .ok b) :
    Named b.routingConfig b.exchangeNames b.nextExchangeId := by
  refine @Bootstrap.invariant (fun b => Named b.routingConfig b.exchangeNames b.nextExchangeId)
    ⟨rfl, List.Pairwise.nil, ?_, ?_, ?_, ?_, ?_⟩ (fun b e hb => hb.addExchange e.name e.kind)
    (fun b q hb => hb) ?_ routing b h
  iterate 5 simp [Bootstrap.start]
  intro b d b' hb hstep
  obtain ⟨exchangeId, queueId, hid, rfl⟩ := Bootstrap.addBinding_ok hstep
  exact hb.addBinding hid queueId d.routingKey

inductive BrokerCall where
  | control (cmd : AmqpControlCommand)
  | ingress (batch : IngressCommandBatch)
  | shard (batch : ShardCommandBatch)
deriving DecidableEq, Repr

namespace SingleNodeBroker

variable {b : SingleNodeBroker σ}

variable (store)

def call (b : SingleNodeBroker σ) : BrokerCall → SingleNodeBroker σ
  | .control cmd => (b.handleAmqpControl store cmd).1
  | .ingress batch => (b.executeIngress store batch).1
  | .shard batch => (b.executeShard store batch).1

def calls (b : SingleNodeBroker σ) (cs : List BrokerCall) :
    SingleNodeBroker σ := cs.foldl (call store) b

/-- The table is that of the configuration. -/
structure Wired (b : SingleNodeBroker σ) : Prop where
  named : Named b.routingConfig b.exchangeNames b.nextExchangeId
  table : compile b.routingConfig = .ok b.broker.routeTable
  shardId : b.broker.shard.shardId = 0
  coherent : Coherent b.broker.shard

theorem wired_new {durable : Option σ} (h : new routing durable = .ok b) : b.Wired := by
  have hshard := new_shard h
  simp only [new, bind, Except.bind] at h
  split at h
  · cases h
  · next boot hboot =>
    split at h
    · cases h
    · next table htable =>
      obtain rfl := Except.ok.inj h
      exact ⟨named_bootstrap hboot, htable, rfl, coherent_new 0 durable⟩

/-- `recompile_routes` never fails. -/
theorem wired_recompileRoutes (hnamed : Named b.routingConfig b.exchangeNames b.nextExchangeId)
    (hne : b.routingConfig.exchanges ≠ []) (hid : b.broker.shard.shardId = 0)
    (hcoh : Coherent b.broker.shard) :
    b.recompileRoutes.Wired ∧ b.recompileRoutes.routingConfig = b.routingConfig ∧
      b.recompileRoutes.broker.shard = b.broker.shard := by
  obtain ⟨table, htable⟩ := compile_wellFormed (hnamed.wellFormed hne)
  rw [recompileRoutes, htable]
  exact ⟨⟨hnamed, htable, hid, hcoh⟩, rfl, rfl⟩

theorem Wired.nonempty (h : b.Wired) : b.routingConfig.exchanges ≠ [] :=
  (wellFormed_of_compile h.table).nonempty

theorem Wired.declareExchange (h : b.Wired) (name exchangeType : Text) :
    (b.declareExchange name exchangeType).Wired ∧
      (b.declareExchange name exchangeType).routingConfig =
        b.routingConfig.addExchange (exchangeDecl b.nextExchangeId name exchangeType) := by
  have hre := wired_recompileRoutes (b := { b with
      routingConfig := b.routingConfig.addExchange
        (exchangeDecl b.nextExchangeId name exchangeType)
      exchangeNames := Function.update b.exchangeNames name (some b.nextExchangeId)
      nextExchangeId := b.nextExchangeId + 1 })
    (h.named.addExchange name exchangeType) (by simp [RoutingConfig.addExchange]) h.shardId
    h.coherent
  exact ⟨hre.1, hre.2.1⟩

theorem queueIdFor_frame (b : SingleNodeBroker σ) (name : Text) :
    (b.queueIdFor name).1.routingConfig = b.routingConfig ∧
    (b.queueIdFor name).1.exchangeNames = b.exchangeNames ∧
    (b.queueIdFor name).1.nextExchangeId = b.nextExchangeId ∧
    (b.queueIdFor name).1.broker = b.broker := by
  unfold queueIdFor
  split <;> exact ⟨rfl, rfl, rfl, rfl⟩

theorem Wired.bindQueue (h : b.Wired) (queue exchange key : Text) :
    (b.bindQueue queue exchange key).1.Wired ∧
      ((b.exchangeNames exchange = none ∧
          (b.bindQueue queue exchange key).1.routingConfig = b.routingConfig) ∨
        ∃ id queueId, b.exchangeNames exchange = some id ∧
          (b.bindQueue queue exchange key).1.routingConfig =
            b.routingConfig.addBinding (bindingDecl b.routingConfig id queueId key)) := by
  unfold SingleNodeBroker.bindQueue
  split
  · next hx => exact ⟨h, .inl ⟨hx, rfl⟩⟩
  · next id hx =>
    obtain ⟨f1, f2, f3, f4⟩ := queueIdFor_frame b queue
    generalize b.queueIdFor queue = res at f1 f2 f3 f4 ⊢
    obtain ⟨b1, queueId⟩ := res
    dsimp only at f1 f2 f3 f4 ⊢
    have hnamed := h.named.addBinding hx queueId key
    have hre := wired_recompileRoutes (b := { b1 with
        routingConfig := b1.routingConfig.addBinding
          (bindingDecl b1.routingConfig id queueId key) })
      (by rw [f1, f2, f3]; exact hnamed) (by rw [f1]; exact h.nonempty)
      (by rw [f4]; exact h.shardId) (by rw [f4]; exact h.coherent)
    refine ⟨hre.1, .inr ⟨id, queueId, hx, ?_⟩⟩
    rw [← f1]
    exact hre.2.1

/-- A call that works on the shard alone. -/
theorem Wired.onShard (h : b.Wired) {broker : InMemoryBroker σ}
    (htable : broker.routeTable = b.broker.routeTable)
    (hreach : Reaches P b.broker.shard broker.shard) : { b with broker := broker }.Wired :=
  ⟨h.named, by rw [htable]; exact h.table, (reaches_shardId hreach).trans h.shardId,
    coherent_of_reaches h.coherent hreach⟩

theorem executeIngress_routeTable (b : InMemoryBroker σ) (batch : IngressCommandBatch) :
    (b.executeIngress store batch).1.routeTable = b.routeTable := by
  have hqueue : ∀ (batch : IngressPublishBatch) (acc : InMemoryBroker σ × ShardOutputBatch) q,
      (InMemoryBroker.publishToQueue store batch acc q).1.routeTable = acc.1.routeTable :=
    fun batch acc q => InMemoryBroker.ensureQueue_routeTable q
  have hloop : ∀ (batch : IngressPublishBatch) (targets : List QueueTarget)
      (acc : InMemoryBroker σ × ShardOutputBatch),
      (targets.foldl (InMemoryBroker.publishToTarget store batch) acc).1.routeTable =
        acc.1.routeTable := by
    intro batch targets
    induction targets with
    | nil => exact fun acc => rfl
    | cons t targets ih =>
      intro acc
      rw [foldl_cons, ih]
      unfold InMemoryBroker.publishToTarget
      split
      · rfl
      · rw [hqueue]
        exact InMemoryBroker.ensureQueue_routeTable _
  cases batch with
  | publish batch =>
    simp only [InMemoryBroker.executeIngress, InMemoryBroker.execIngressPublish]
    split
    · exact hqueue batch _ _
    · unfold InMemoryBroker.publishByRoute
      split
      · rfl
      · split
        · rfl
        · exact hloop batch _ _
    · rfl
  | resolveRoute items => rfl
  | control => rfl

variable {store}

/-- The call does not move the route of `s`: a binding comes behind it or
brings no route. -/
def Keeps (s : Slot) (b : SingleNodeBroker σ) : BrokerCall → Prop
  | .control (.bindQueue _ exchange key) =>
    ∀ id, b.exchangeNames exchange = some id → KeepsBefore b.routingConfig s id key
  | _ => True

variable {key : Text} {e : ExchangeDecl}

theorem keepsBefore_bindingDecl {s : Slot} {id : Nat} (h : KeepsBefore config s id key)
    (queueId : Nat) :
    KeepsBefore config s (bindingDecl config id queueId key).exchangeId
      (bindingDecl config id queueId key).routingKey := by
  unfold bindingDecl
  split
  · next eid name hfind =>
      -- a fanout exchange keeps no key
      have hid : eid = id := by simpa using find?_some hfind
      exact .inl ⟨_, mem_of_find?_eq_some hfind, hid, rfl⟩
  · exact h

/-- The declarations and bindings of `config` are still there. -/
structure Grows (config config' : RoutingConfig) : Prop where
  exchanges : ∀ e ∈ config.exchanges, e ∈ config'.exchanges
  bindings : ∀ b ∈ config.bindings, b ∈ config'.bindings

theorem Grows.of_eq {config' : RoutingConfig} (h : config' = config) : Grows config config' := by
  subst h
  exact ⟨fun _ h => h, fun _ h => h⟩

/-- **One call** keeps the table that of the configuration and, under the
condition, the place of a slot. -/
theorem Wired.call (h : b.Wired) (store : ShardStorage σ) (c : BrokerCall) :
    (b.call store c).Wired ∧ Grows b.routingConfig (b.call store c).routingConfig ∧
      ∀ (s : Slot) (i : Nat), (slots b.routingConfig)[i]? = some s → Keeps s b c →
        (slots (b.call store c).routingConfig)[i]? = some s := by
  -- calls that leave the configuration alone
  have hsame : ∀ b' : SingleNodeBroker σ, b'.Wired → b'.routingConfig = b.routingConfig →
      b'.Wired ∧ Grows b.routingConfig b'.routingConfig ∧
        ∀ (s : Slot) (i : Nat), (slots b.routingConfig)[i]? = some s → Keeps s b c →
          (slots b'.routingConfig)[i]? = some s := fun b' hw heq =>
    ⟨hw, .of_eq heq, fun s i hi _ => by rw [heq]; exact hi⟩
  cases c with
  | control cmd =>
    cases cmd with
    | declareExchange name exchangeType =>
      obtain ⟨hw, hcfg⟩ := h.declareExchange name exchangeType
      have hcfg' : (b.call store (.control (.declareExchange name exchangeType))).routingConfig =
          _ := hcfg
      refine ⟨hw, ?_, fun s i hi _ => ?_⟩
      · rw [hcfg']
        exact ⟨fun e he => mem_append_left _ he, fun _ hb => hb⟩
      · rw [hcfg']
        exact slots_addExchange _ hi
    | declareQueue name =>
      have hid : (b.declaredId name).1.Wired ∧
          (b.declaredId name).1.routingConfig = b.routingConfig := by
        unfold declaredId
        split
        · exact ⟨⟨h.named, h.table, h.shardId, h.coherent⟩, rfl⟩
        · obtain ⟨f1, f2, f3, f4⟩ := queueIdFor_frame b name
          exact ⟨⟨by rw [f1, f2, f3]; exact h.named, by rw [f1, f4]; exact h.table,
            by rw [f4]; exact h.shardId, by rw [f4]; exact h.coherent⟩, f1⟩
      have hreach : Reaches (fun _ => True) (b.declaredId name).1.broker.shard
          (execute store (b.declaredId name).1.broker.shard
            (.declare [(b.declaredId name).2])) :=
        reaches_execute (fun _ => trivial) store _ _
      exact hsame _ (hid.1.onShard rfl hreach) hid.2
    | bindQueue queue exchange key =>
      obtain ⟨hw, hcfg⟩ := h.bindQueue queue exchange key
      rcases hcfg with ⟨-, hcfg⟩ | ⟨id, queueId, hx, hcfg⟩
      · exact hsame _ hw hcfg
      · have hcfg' : (b.call store (.control (.bindQueue queue exchange key))).routingConfig =
            _ := hcfg
        refine ⟨hw, ?_, fun s i hi hkeep => ?_⟩
        · rw [hcfg']
          exact ⟨fun _ he => he, fun bd hb => mem_append_left _ hb⟩
        · rw [hcfg']
          exact slots_addBinding h.named.ordered
            (keepsBefore_bindingDecl (hkeep id hx) queueId) hi
    | resolveQueueId name => exact hsame b h rfl
  | ingress batch =>
    have hreach := (InMemoryBroker.performs_executeIngress store b.broker batch).1
    exact hsame _ (h.onShard (executeIngress_routeTable store b.broker batch) hreach) rfl
  | shard batch =>
    refine hsame _ (h.onShard (P := fun _ => True) rfl ?_) rfl
    exact reaches_execute (fun _ => trivial) store _ _

/-- **Any calls** keep the table; those that meet the condition keep the
place of the slot. -/
theorem Wired.calls (store : ShardStorage σ) : ∀ (cs : List BrokerCall)
    {b : SingleNodeBroker σ}, b.Wired →
    (b.calls store cs).Wired ∧ Grows b.routingConfig (b.calls store cs).routingConfig ∧
      ∀ (s : Slot) (i : Nat), (slots b.routingConfig)[i]? = some s →
        Runs.Meets (SingleNodeBroker.call store) (Keeps s) b cs →
        (slots (b.calls store cs).routingConfig)[i]? = some s
  | [], b, h => ⟨h, .of_eq rfl, fun _ _ hi _ => hi⟩
  | c :: cs, b, h => by
    obtain ⟨hw, hgrow, hslot⟩ := h.call store c
    obtain ⟨hw', hgrow', hslot'⟩ := Wired.calls store cs hw
    exact ⟨hw', ⟨fun e he => hgrow'.exchanges e (hgrow.exchanges e he),
      fun bd hb => hgrow'.bindings bd (hgrow.bindings bd hb)⟩, fun s i hi hmeets =>
      hslot' s i (hslot s i hi hmeets.1) hmeets.2⟩

/-- The exchange a name stands for: the one declared last under it. -/
def exchangeOf (b : SingleNodeBroker σ) (name : Text) : Option ExchangeDecl :=
  b.routingConfig.exchanges.reverse.find? (·.name = name)

/-- What a successful resolution by name returns. -/
theorem Wired.resolve (h : b.Wired) {target : RoutePublishTarget}
    (he : b.exchangeOf exchange = some e) (hres : b.resolveAmqpRoute exchange key = some target) :
    e ∈ b.routingConfig.exchanges ∧ slotTargets b.routingConfig (e.slot key) ≠ [] ∧
      ∃ i, target = ⟨⟨i, 1⟩, initialVersion⟩ ∧ (slots b.routingConfig)[i]? = some (e.slot key) := by
  have hspec := compile_spec h.table
  have hmem : e ∈ b.routingConfig.exchanges :=
    mem_reverse.mp (mem_of_find?_eq_some he)
  obtain ⟨hnone, hsome⟩ := hspec.resolve hmem (h.named.kinds e hmem) key
  have hname : b.broker.routeTable.exchangeNames exchange = some e.id := by
    rw [hspec.declares.names]
    exact congrArg (Option.map ExchangeDecl.id) he
  simp only [resolveAmqpRoute, RouteTable.resolveDirectByName, hname] at hres
  have hne : slotTargets b.routingConfig (e.slot key) ≠ [] := by
    intro hc
    rw [hnone hc] at hres
    cases hres
  obtain ⟨i, flags, hi, hok⟩ := hsome hne
  rw [hok, Option.some.injEq] at hres
  refine ⟨hmem, hne, i, ?_, hi⟩
  rw [← hres, h.named.version]

/-- **A publish to the place of a slot** appends to the queues bound
there. -/
theorem Wired.publish {store : ShardStorage σ} (h : b.Wired)
    (haccept : InMemoryBroker.AcceptsAll store) {i : Nat}
    (hi : (slots b.routingConfig)[i]? = some (e.slot key))
    (hne : slotTargets b.routingConfig (e.slot key) ≠ []) (hlen : batch.records.length < 2 ^ 32)
    (ht : batch.target = .route ⟨⟨i, 1⟩, initialVersion⟩) :
    InMemoryBroker.Appends batch.records (fun q => Bound b.routingConfig e key ⟨0, q⟩)
      b.broker.shard (b.executeIngress store (.publish batch)).1.broker.shard := by
  have hget := (compile_spec h.table).get hi hne
  rw [h.named.version] at hget
  have hcount :
      (build (slotTargets b.routingConfig (e.slot key))).targetCount ≠ 0 := by
    rw [targetCount_eq]
    obtain ⟨t, ht⟩ := exists_mem_of_ne_nil _ hne
    exact length_pos_iff.mpr
      (ne_nil_of_mem (mem_targetsVec_build.mpr ht)) |>.ne'
  have hlocal : ∀ t ∈ (build
      (slotTargets b.routingConfig (e.slot key))).targetsVec,
      t.shardId = b.broker.shard.shardId := by
    intro t ht
    rw [mem_targetsVec_build, mem_slotTargets] at ht
    obtain ⟨bd, hbd, -, -, rfl⟩ := ht
    rw [h.shardId]
    exact h.named.shards bd hbd
  have happ := InMemoryBroker.appends_foldl haccept hlen _ (b.broker, .empty) h.coherent
    (nodup_targetsVec_build (nodup_dedupeTargets _)) hlocal
  simp only [executeIngress, InMemoryBroker.executeIngress, InMemoryBroker.execIngressPublish, ht,
    InMemoryBroker.publishByRoute, hget, if_neg hcount]
  have hiff : ∀ q, (⟨b.broker.shard.shardId, q⟩ : QueueTarget) ∈ (build
      (slotTargets b.routingConfig (e.slot key))).targetsVec ↔
      Bound b.routingConfig e key ⟨0, q⟩ := fun q => by
    rw [mem_targetsVec_build, mem_slotTargets, h.shardId]
  exact ⟨fun q hq => happ.bound q ((hiff q).mpr hq), fun q hq =>
    happ.other q fun hc => hq ((hiff q).mp hc)⟩

/-- **A route resolved earlier leads to the queues bound now.** A broker
is started and called in any way; an exchange and a key are resolved; the
broker is called again, and no binding puts a new route before the one
resolved. Then a publish to it appends the records to exactly the queues
bound to that exchange and key at that moment. -/
theorem resolved_route_stays_valid (store : ShardStorage σ)
    (haccept : InMemoryBroker.AcceptsAll store) (routing : RoutingBootstrapConfig)
    (durable : Option σ) (b0 : SingleNodeBroker σ) (hnew : new routing durable = .ok b0)
    (earlier later : List BrokerCall) (exchange key : Text) (e : ExchangeDecl)
    (target : RoutePublishTarget)
    (he : (b0.calls store earlier).exchangeOf exchange = some e)
    (hres : (b0.calls store earlier).resolveAmqpRoute exchange key = some target)
    (hmeets : Runs.Meets (call store) (Keeps (e.slot key)) (b0.calls store earlier) later)
    (batch : IngressPublishBatch) (ht : batch.target = .route target)
    (hlen : batch.records.length < 2 ^ 32) :
    InMemoryBroker.Appends batch.records
      (fun q => Bound ((b0.calls store earlier).calls store later).routingConfig e key ⟨0, q⟩)
      ((b0.calls store earlier).calls store later).broker.shard
      (((b0.calls store earlier).calls store later).executeIngress store
        (.publish batch)).1.broker.shard := by
  have hwired : (b0.calls store earlier).Wired := (Wired.calls store earlier (wired_new hnew)).1
  obtain ⟨hmem, hne, i, rfl, hi⟩ := hwired.resolve he hres
  obtain ⟨hw, hgrow, hslot⟩ := hwired.calls store later
  refine hw.publish haccept (hslot _ i hi hmeets) ?_ hlen ht
  -- the queues bound at the resolution are still bound
  obtain ⟨t, bd, hbd, hrest⟩ := slotTargets_ne_nil.mp hne
  exact slotTargets_ne_nil.mpr ⟨t, bd, hgrow.bindings bd hbd, hrest⟩

/-- Binds `other` at `amq.direct` under a one-letter key. -/
def bindOther (letter : UInt8) : BrokerCall :=
  .control (.bindQueue [111, 116, 104, 101, 114] amqDirect [letter])

/-- One message to the first route of the table. -/
def toFirstRoute : IngressPublishBatch :=
  ⟨1, 1, .route ⟨⟨0, 1⟩, initialVersion⟩, .none, [⟨7, 1⟩]⟩

/-- `"test"` is resolved, `other` is bound under `"z"`, and the publish
still reaches `test.queue`. -/
theorem later_key_keeps_route : let b := dev.calls .null [bindOther 122]
    dev.resolveAmqpRoute amqDirect [116, 101, 115, 116] = some ⟨⟨0, 1⟩, initialVersion⟩ ∧
      InMemoryBroker.Appends [⟨7, 1⟩]
        (fun q => Bound b.routingConfig ⟨1, amqDirect, .direct⟩ [116, 101, 115, 116] ⟨0, q⟩)
        b.broker.shard (b.executeIngress .null (.publish toFirstRoute)).1.broker.shard := by
  have hkeeps : Keeps ((⟨1, amqDirect, .direct⟩ : ExchangeDecl).slot [116, 101, 115, 116]) dev
      (bindOther 122) := by
    intro id hid
    have hid : some 1 = some id := hid
    obtain rfl := Option.some.inj hid
    exact .inr (.inr (.inr ⟨rfl, _, rfl, by decide⟩))
  exact ⟨by decide +kernel, resolved_route_stays_valid .null (fun _ _ _ _ => rfl) devDefaults none
    dev new_dev [] [bindOther 122] amqDirect [116, 101, 115, 116] ⟨1, amqDirect, .direct⟩
    ⟨⟨0, 1⟩, initialVersion⟩ (by decide +kernel) (by decide +kernel) ⟨hkeeps, trivial⟩
    toFirstRoute rfl (by decide)⟩

/-- `"test"` is resolved, `other` is bound under `"a"`, which sorts before
it, and the publish to the resolved route goes to `other` alone: the
queue bound under `"test"`, number 1, gets nothing. -/
theorem earlier_key_takes_route : let b := dev.calls .null [bindOther 97]
    let b' := (b.executeIngress .null (.publish toFirstRoute)).1
    dev.resolveAmqpRoute amqDirect [116, 101, 115, 116] = some ⟨⟨0, 1⟩, initialVersion⟩ ∧
      b.routingConfig.bindings = [.direct 1 1 [116, 101, 115, 116], .direct 1 2 [97]] ∧
      (b.executeIngress .null (.publish toFirstRoute)).2.errors = [] ∧
      (b.broker.shard.nextSeqOf 1, b'.broker.shard.nextSeqOf 1) = (0, 0) ∧
      (b.broker.shard.nextSeqOf 2, b'.broker.shard.nextSeqOf 2) = (0, 1) := by
  decide +kernel

end SingleNodeBroker

end Aurum.Broker
