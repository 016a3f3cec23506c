import Aurum.Broker.Calls
import Aurum.Service.Basic

/-!
# Service — runs

What every run of a service shares: the shard behind it stays coherent
and its log in order, and the output of an execute step is made of what
the shard reported in it.
-/

namespace Aurum.Service

open Aurum.Protocol Aurum.Broker InMemoryShardExecutor SingleNodeBroker

variable {σ : Type}

/-- The actions a command may make the shard take. -/
def BrokerCommandBatch.Permits : BrokerCommandBatch → Action σ → Prop
  | .ingress _ => InMemoryBroker.publishes
  | .shard batch => Allows batch

namespace BrokerService

def shard (s : BrokerService σ) : InMemoryShardExecutor σ := s.broker.broker.shard

theorem performs_execute (store : ShardStorage σ) (s : BrokerService σ) (cmd : BrokerCommandBatch) :
    Performs cmd.Permits s.shard (s.execute store cmd).1.shard (s.execute store cmd).2 := by
  cases cmd with
  | ingress batch => exact s.broker.broker.performs_executeIngress store batch
  | shard batch => exact s.broker.broker.performs_execute store fun _ h => h

end BrokerService

/-- A control command declares a queue at most. -/
theorem reaches_control (store : ShardStorage σ) (b : SingleNodeBroker σ)
    (cmd : AmqpControlCommand) :
    Reaches (fun a => a.plain = true) b.broker.shard
      (b.handleAmqpControl store cmd).1.broker.shard := by
  have hrecompile : ∀ b : SingleNodeBroker σ, b.recompileRoutes.broker.shard = b.broker.shard := by
    intro b
    unfold recompileRoutes
    split <;> rfl
  have hid : ∀ (b : SingleNodeBroker σ) (name : Aurum.Routing.Text),
      (b.queueIdFor name).1.broker = b.broker := by
    intro b name
    unfold queueIdFor
    split <;> rfl
  cases cmd with
  | declareExchange name exchangeType =>
    simp only [handleAmqpControl, declareExchange, hrecompile]
    exact .refl _
  | declareQueue name =>
    simp only [handleAmqpControl, declareQueue]
    have hdecl : (b.declaredId name).1.broker = b.broker := by
      unfold declaredId
      split
      · rfl
      · exact hid b name
    have h := reaches_allowed store b.broker.shard (.declare [(b.declaredId name).2])
    simp only [executeShard, InMemoryBroker.execute, hdecl]
    refine h.mono fun a ha => ?_
    rcases ha with ha | ha
    · exact ha
    · cases a <;> exact absurd ha id
  | bindQueue queue exchange routingKey =>
    simp only [handleAmqpControl, bindQueue]
    split
    · exact .refl _
    · simp only [hrecompile, hid]
      exact .refl _
  | resolveQueueId name => exact .refl _

/-! ## The shard in a run -/

/-- The shard is coherent and its log in order. -/
structure Sound (s : InMemoryShardExecutor σ) : Prop where
  coherent : Coherent s
  logged : Logged s.view s.sink

theorem sound_new (shardId : Nat) (durable : Option σ) : Sound (new shardId durable) :=
  ⟨coherent_new shardId durable, logged_new shardId durable⟩

theorem Sound.reaches {Q : Action σ → Prop} {s s' : InMemoryShardExecutor σ} (h : Sound s)
    (hreach : Reaches Q s s') : Sound s' := by
  obtain ⟨actions, -, rfl⟩ := hreach
  exact ⟨coherent_foldl h.coherent actions, logged_foldl h.coherent h.logged actions⟩

namespace System

def shard (s : System σ) : InMemoryShardExecutor σ := s.service.shard

/-- Every step of a run meets a condition on the state it is taken in. -/
def Meets (store : ShardStorage σ) (cond : System σ → Step → Prop) : System σ → List Step → Prop
  | _, [] => True
  | s, a :: steps => cond s a ∧ Meets store cond (s.step store a) steps

instance decidableMeets {store : ShardStorage σ} {cond : System σ → Step → Prop}
    [∀ s a, Decidable (cond s a)] :
    ∀ (s : System σ) (steps : List Step), Decidable (Meets store cond s steps)
  | _, [] => .isTrue trivial
  | s, a :: steps =>
    have := @decidableMeets store cond _ (s.step store a) steps
    inferInstanceAs (Decidable (_ ∧ _))

variable {store : ShardStorage σ} {cond : System σ → Step → Prop}

theorem Meets.and {P : Step → Prop} :
    ∀ {steps : List Step} {s : System σ}, Meets store cond s steps → (∀ a ∈ steps, P a) →
      Meets store (fun s a => cond s a ∧ P a) s steps := by
  intro steps
  induction steps with
  | nil => exact fun _ _ => trivial
  | cons a steps ih =>
    intro s h hP
    exact ⟨⟨h.1, hP a List.mem_cons_self⟩, ih h.2 fun b hb => hP b (List.mem_cons_of_mem a hb)⟩

/-- **The rule for runs.** An invariant kept by every step that meets the
condition holds after every run of such steps. -/
theorem run_invariant {I : System σ → Prop} (hstep : ∀ s a, I s → cond s a → I (s.step store a)) :
    ∀ {steps : List Step} {s : System σ}, I s → Meets store cond s steps →
      I (s.run store steps) := by
  intro steps
  induction steps with
  | nil => exact fun h _ => h
  | cons a steps ih => exact fun h hmeets => ih (hstep _ a h hmeets.1) hmeets.2

end System

end Aurum.Service
