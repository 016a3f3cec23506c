import Aurum.Broker.Confined
import Aurum.Server.Runs

/-!
# Server — settlement across connections

The executor knows consumers by their id only, and no layer above it asks
whose consumer a settlement names. `settlement_isolates` says what a
connection leaves alone as long as it names consumers of its own;
`foreign_ack_settles` shows a client acknowledging the message of another
one.
-/

namespace Aurum.Server

open Aurum.Protocol Aurum.Broker Aurum.Service Aurum.Amqp Aurum.Native List

variable {σ : Type}

/-! ## Definitions -/

/-- The consumer whose messages a command settles. -/
def settled : BrokerCommandBatch → Option Nat
  | .shard batch => settledConsumer batch
  | .ingress _ => none

/-- The consumer keeps its registration, at the executor and at the
service, and every message it holds. -/
structure Undisturbed (s s' : System σ) (c : Nat) : Prop where
  owner : s'.owner c = s.owner c
  registry : s'.service.registry c = s.service.registry c
  retains : Retains c s.shard s'.shard

/-- Two consumers that do not share a queue. -/
def Apart (s : System σ) (c c' : Nat) : Prop :=
  ∀ state state', s.shard.consumers c = some state → s.shard.consumers c' = some state' →
    state.queueId ≠ state'.queueId

/-! ## One step -/

section

variable {s s' : System σ} {store : ShardStorage σ} {k c₀ c : Nat} {cmd : BrokerCommandBatch}
  {answer : Option ShardOutputBatch}

theorem execute_shard (s : System σ) (k : Nat) (batch : ShardCommandBatch) :
    (s.execute store k (.shard batch)).shard = s.shard.execute store batch := rfl

/-- A settlement starts nobody and cancels the consumer it names at most. -/
theorem names_settled (h : settled cmd = some c₀) : ∀ c ∈ cmd.names, c = c₀ := by
  match cmd, h with
  | .shard (.ack _ _), _ | .shard (.nack _ _), _ | .shard (.reject _ _), _ =>
    exact fun c hc => by cases hc
  | .shard (.cancel [⟨_, _⟩]), rfl => exact fun c hc => mem_singleton.mp hc

/-- The registry changes at the consumer of a cancel only. -/
theorem update_settled (h : settled cmd = some c₀) {u : RegistryUpdate}
    (hu : u ∈ cmd.updates k) : u = .unregister c₀ := by
  match cmd, h with
  | .shard (.ack _ _), _ | .shard (.nack _ _), _ | .shard (.reject _ _), _ => cases hu
  | .shard (.cancel [⟨_, _⟩]), rfl => exact mem_singleton.mp hu

theorem Serves.undisturbed (hs : Serves store s k cmd s' answer) (h : Ledger s)
    (hupdates : ∀ call ∈ s.calls, ∀ u ∈ call.updates, u ∈ call.cmd.updates call.source)
    (hset : settled cmd = some c₀) (hne : c ≠ c₀) :
    Undisturbed s s' c ∧ (Apart s c c₀ → s'.shard.consumers c = s.shard.consumers c) := by
  cases hs with
  | call hidle => exact ⟨⟨rfl, rfl, retains_of_eq rfl⟩, fun _ => rfl⟩
  | track u us hcall =>
    obtain rfl := update_settled hset (hupdates _ hcall u mem_cons_self)
    exact ⟨⟨rfl, Function.update_of_ne hne .., retains_of_eq rfl⟩, fun _ => rfl⟩
  | route e he hcalls =>
    simp only [System.route, BrokerService.routeOutput_eq]
    exact ⟨⟨rfl, rfl, retains_of_eq rfl⟩, fun _ => rfl⟩
  | execute hcall =>
    cases cmd with
    | ingress _ => cases hset
    | shard batch =>
      have hcoh := h.sound.coherent
      refine ⟨⟨?_, rfl, ?_⟩, fun hapart => ?_⟩
      · -- only the named consumer can change hands
        obtain ⟨es, htracked, -, howner, -⟩ := h.executed store k (.shard batch)
        rw [howner]
        rcases htracked.changes c with heq | ⟨hin, -⟩ | ⟨hin, -⟩
        · exact heq
        · exact absurd (names_settled hset c (mem_append_left _ hin)) hne
        · exact absurd (names_settled hset c (mem_append_right _ hin)) hne
      · rw [execute_shard]
        exact retains_settles store hcoh hset hne
      · -- a queue the settlement stays at, and `c` is not one of its consumers
        obtain ⟨q, hq, hout⟩ : ∃ q, (∀ state₀, s.shard.consumers c₀ = some state₀ →
            state₀.queueId = q) ∧
            (s.shard.consumers c).map ConsumerRuntimeState.queueId ≠ some q := by
          cases hc₀ : s.shard.consumers c₀ with
          | none =>
            cases s.shard.consumers c with
            | none => exact ⟨0, by simp, by simp⟩
            | some state => exact ⟨state.queueId + 1, by simp, by simp⟩
          | some state₀ =>
            refine ⟨state₀.queueId, by simp, fun hin => ?_⟩
            obtain ⟨state, hc, heq⟩ := Option.map_eq_some_iff.mp hin
            exact hapart state state₀ hc hc₀ heq
        rw [execute_shard]
        exact (confined_settles store hcoh hset hq).consumers c hout

end

/-! ## Runs -/

/-- **A connection cannot settle the messages of another one** as long as
it names consumers of its own. In every run, a step of connection `k` that
handles a settlement of `c₀`, which is not a live consumer of another
connection, leaves every consumer of another connection registered as it
was and takes none of its messages; and if that consumer is not at the
queue of `c₀`, it is not touched at all. -/
theorem settlement_isolates (store : ShardStorage σ) (order : Nat → HashOrder)
    {routing : RoutingBootstrapConfig} {durable : Option σ} {broker : SingleNodeBroker σ}
    (hnew : SingleNodeBroker.new routing durable = .ok broker) (acts : List Act) {k c₀ : Nat}
    {cmd : BrokerCommandBatch} :
    let s := (BrokerServer.new broker).run store order acts
    let s' := s.step store order (.advance k)
    (s.peers k).bind Peer.command = some cmd → settled cmd = some c₀ →
      (s.system.owner c₀ = none ∨ s.system.owner c₀ = some k) →
      ∀ c j, j ≠ k → s.system.owner c = some j →
        Undisturbed s.system s'.system c ∧
          (Apart s.system c c₀ → s'.system.shard.consumers c = s.system.shard.consumers c) := by
  intro s s' hcmd hset hown c j hj hc
  have h : Aligned s := aligned_run store order hnew acts
  obtain ⟨p, hp, hcmd⟩ := Option.bind_eq_some_iff.mp hcmd
  have hne : c ≠ c₀ := by
    rintro rfl
    rcases hown with hown | hown
    · rw [hc] at hown
      cases hown
    · rw [hc] at hown
      exact hj (Option.some.inj hown)
  have hmoves : Moves store s k s' := moves_step order s (.advance k)
  generalize s' = s' at hmoves
  cases hmoves with
  | stay => exact ⟨⟨rfl, rfl, retains_of_eq rfl⟩, fun _ => rfl⟩
  | own p' hnone => exact absurd (hnone p hp) (by simp [hcmd])
  | control _ q p' hq hnone =>
    rw [Option.some.inj (hp.symm.trans hq)] at hcmd
    exact absurd hnone (by simp [hcmd])
  | drain q p' hq hnone =>
    rw [Option.some.inj (hp.symm.trans hq)] at hcmd
    exact absurd hnone (by simp [hcmd])
  | serves cmd' q p' hq hcmd' hstay =>
    obtain rfl := Option.some.inj (hp.symm.trans hq)
    obtain rfl := Option.some.inj (hcmd.symm.trans hcmd')
    exact (h.serves hp hcmd).undisturbed h.ledger (fun call hin => (h.calls call hin).2) hset hne

/-- The steps of a connection until it is idle again. -/
def finish (k : Nat) : List Act := List.replicate 7 (.advance k)

/-- A native connection sends one frame. -/
def sends (k : Nat) (body : NativeBody) : List Act := .receiveNative k [⟨0, 0, body⟩] :: finish k

/-- Connection 1 publishes a message and consumes it as consumer 9;
connection 2 consumes from the same queue as consumer 8 and gets the
message published then. Consumer 9 takes one message at a time. -/
def twoConsumers : List Act :=
  [.accept 1 false, .accept 2 false] ++ sends 1 (.publish 1 (2 ^ 32) [⟨0, 1⟩] [7]) ++
    sends 1 (.consumeStart 1 9 1) ++ sends 2 (.consumeStart 1 8 1) ++
    sends 2 (.publish 1 (2 ^ 32) [⟨0, 1⟩] [8])

/-- What a consumer holds. -/
def holdings (s : BrokerServer σ) (c : Nat) : Option (List (Nat × Nat)) :=
  (s.system.shard.consumers c).map fun state => state.session.entries

/-- Connection 2 acknowledges its own message: its command is about to be
executed. -/
theorem settlement_isolates_own : let acts := twoConsumers ++
      [.receiveNative 2 [⟨0, 0, .ack 8 [.one 1]⟩], .advance 2, .advance 2]
    let s := (BrokerServer.new .dev).run .null (fun _ => .insertion) acts
    let s' := s.step .null (fun _ => .insertion) (.advance 2)
    (holdings s 8, holdings s' 8, holdings s' 9) = (some [(1, 1)], some [], some [(1, 0)]) ∧
      Undisturbed s.system s'.system 9 ∧
      (Apart s.system 9 8 → s'.system.shard.consumers 9 = s.system.shard.consumers 9) :=
  ⟨by decide +kernel,
    @settlement_isolates _ .null (fun _ => .insertion) _ _ _ SingleNodeBroker.new_dev
    _ 2 8 (.shard (.ack 8 [.tag 1 .one])) (by decide +kernel) rfl (by decide +kernel) 9 1
    (by decide) (by decide +kernel)⟩

/-- Connection 2 acknowledges tag 1 of consumer 9, which is the message of
connection 1. -/
theorem foreign_ack_settles :
    let s := (BrokerServer.new .dev).run .null (fun _ => .insertion) twoConsumers
    let s' := s.run .null (fun _ => .insertion) (sends 2 (.ack 9 [.one 1]))
    s.system.owner 9 = some 1 ∧ holdings s 9 = some [(1, 0)] ∧ holdings s' 9 = some [] := by
  decide +kernel

end Aurum.Server
