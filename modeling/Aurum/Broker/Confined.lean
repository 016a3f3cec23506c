import Aurum.Broker.Local

/-!
# Broker — settlement and other consumers

A settlement batch works on the queue of its consumer and on the
consumers attached there. `Confined q` says that a step touches nothing
else; `confined_settles` that every settlement of a consumer of `q` is
such a step. Of the other consumers of the queue `Retains` says that they
keep what they hold.
-/

namespace Aurum.Broker

open Aurum.Queue Aurum.Consumer Aurum.Protocol InMemoryShardExecutor Function List Option
open ConsumerRuntimeState

variable {σ : Type} {s s' s'' : InMemoryShardExecutor σ} {q : Nat}

/-- **Only queue `q` and its consumers change.** -/
structure Confined (q : Nat) (s s' : InMemoryShardExecutor σ) : Prop where
  queues : ∀ q', q' ≠ q → s'.queues q' = s.queues q'
  consumers : ∀ c, (s.consumers c).map queueId ≠ some q →
    s'.consumers c = s.consumers c
  stays : ∀ c, (s.consumers c).map queueId = some q →
    ∀ state, s'.consumers c = some state → state.queueId = q

theorem confined_of_eq (hq : s'.queues = s.queues) (hc : s'.consumers = s.consumers) :
    Confined q s s' where
  queues := fun q' _ => by rw [hq]
  consumers := fun c _ => by rw [hc]
  stays := by
    intro c hin state hstate
    rw [← hc, hstate] at hin
    exact some.inj hin

theorem Confined.trans (h : Confined q s s') (h' : Confined q s' s'') : Confined q s s'' where
  queues := fun q' hne => (h'.queues q' hne).trans (h.queues q' hne)
  consumers := by
    intro c hout
    have heq := h.consumers c hout
    exact (h'.consumers c (by rwa [heq])).trans heq
  stays := by
    intro c hin state hstate
    by_cases hin' : (s'.consumers c).map queueId = some q
    · exact h'.stays c hin' state hstate
    · -- a consumer that was gone stays gone
      rw [h'.consumers c hin'] at hstate
      exact h.stays c hin state hstate

variable {c : Nat} {state : ConsumerRuntimeState} {batch : ShardCommandBatch}

/-- The queue and one of its consumers replaced. -/
theorem confined_update {state' : ConsumerRuntimeState} (hc : s.consumers c = some state)
    (hin : state.queueId = q) (hqueues : ∀ q', q' ≠ q → s'.queues q' = s.queues q')
    (hconsumers : s'.consumers = Function.update s.consumers c (some state'))
    (hin' : state'.queueId = q) : Confined q s s' where
  queues := hqueues
  consumers := by
    intro k hk
    rw [hconsumers, update_of_ne]
    rintro rfl
    exact hk (by rw [hc, map_some, hin])
  stays := by
    intro k hk entry hentry
    rw [hconsumers] at hentry
    by_cases hkc : k = c
    · subst hkc
      rw [update_self] at hentry
      rw [← some.inj hentry, hin']
    · rw [update_of_ne hkc] at hentry
      rw [hentry] at hk
      exact some.inj hk

theorem AllAt.confined {ids : List Nat} (h : AllAt q ids s) (hs : Confined q s s') :
    AllAt q ids s' := by
  intro c hc state hstate
  by_cases hin : (s.consumers c).map queueId = some q
  · exact hs.stays c hin state hstate
  · exact h c hc state (hs.consumers c hin ▸ hstate)

theorem confined_remove (hc : s.consumers c = some state) (hin : state.queueId = q) :
    Confined q s { s with consumers := Function.update s.consumers c none } := by
  refine ⟨fun _ _ => rfl, fun k hk => ?_, fun k hk entry hentry => ?_⟩
  · refine update_of_ne ?_ ..
    rintro rfl
    exact hk (by rw [hc, map_some, hin])
  · by_cases hkc : k = c
    · subst hkc
      simp at hentry
    · dsimp only at hentry
      rw [update_of_ne hkc] at hentry
      rw [hentry] at hk
      exact some.inj hk

/-- The primitive changes at `q` are confined to it. -/
theorem local_confined (q : Nat) : @Local σ q (Confined q) where
  refl := fun _ => confined_of_eq rfl rfl
  trans := Confined.trans
  stays := fun hs h => h.confined hs
  queue := fun _ _ =>
    ⟨fun _ hne => update_of_ne hne .., fun _ _ => rfl, (confined_of_eq rfl rfl).stays⟩
  consumer := fun hc hin _ hin' => confined_update hc hin (fun _ _ => rfl) rfl hin'
  remove := confined_remove
  durable := fun _ _ => confined_of_eq rfl rfl
  emit := fun _ _ _ => confined_of_eq rfl rfl
  deliver := fun _ _ _ _ => confined_of_eq rfl rfl

/-! ## Settlement -/

/-- The consumer a settlement batch names; a cancel names one consumer
here. -/
def settledConsumer : ShardCommandBatch → Option Nat
  | .ack c _ | .nack c _ | .reject c _ | .cancel [⟨c, _⟩] => some c
  | _ => none

/-- **A settlement of a consumer of `q` stays at `q`.** -/
theorem confined_settles (store : ShardStorage σ) (h : Coherent s)
    (hc : settledConsumer batch = some c)
    (hat : ∀ state, s.consumers c = some state → state.queueId = q) :
    Confined q s (s.execute store batch) := by
  have hat := allAt_of_queueId hat
  match batch, hc with
  | .ack _ items, rfl => exact (local_confined q).execAckBatch store h hat items
  | .nack _ items, rfl => exact (local_confined q).execNackBatch h hat items
  | .reject _ items, rfl => exact (local_confined q).execRejectBatch h hat items
  | .cancel [⟨_, _⟩], rfl => exact (local_confined q).execCancel h hat

/-! ## Consumers that are not named -/

/-- The consumer keeps its registration and every message it holds; it may
get new ones. -/
def Retains (c : Nat) (s s' : InMemoryShardExecutor σ) : Prop :=
  ∀ state, s.consumers c = some state → ∃ session new,
    s'.consumers c = some { state with session := session } ∧
      session.entries = state.session.entries ++ new

theorem retains_of_eq (h : s'.consumers c = s.consumers c) : Retains c s s' :=
  fun state hc => ⟨state.session, [], h.trans hc, (List.append_nil _).symm⟩

theorem Retains.trans (h : Retains c s s') (h' : Retains c s' s'') : Retains c s s'' := by
  intro state hc
  obtain ⟨session, new, hc', hentries⟩ := h state hc
  obtain ⟨session', new', hc'', hentries'⟩ := h' _ hc'
  exact ⟨session', new ++ new', hc'', by rw [hentries', hentries, List.append_assoc]⟩

/-- The action takes messages from the consumer. -/
def Action.Settles : Action σ → Nat → Prop
  | .ack c' _, c | .nack c' _, c | .cancel c' _, c => c' = c
  | _, _ => False

theorem retains_onSession {β : Type} {c' : Nat} (hne : c' ≠ c)
    (call : ConsumerSession → HybridRangeBlockQueue →
      Except ConsumerError (ConsumerSession × HybridRangeBlockQueue × β)) :
    Retains c s (s.onSession c' call) := by
  refine retains_of_eq ?_
  unfold onSession
  split
  · rfl
  · split
    · rfl
    · split
      · rfl
      · rw [putBack_consumers, update_of_ne hne.symm]

theorem retains_deliver (h : Coherent s) (c c' : Nat) : Retains c s (s.act (.deliver c')) := by
  simp only [act]
  split
  · exact retains_of_eq rfl
  · next state hc =>
    obtain ⟨queue, st, S, session, q, out, n, -, -, hdel, heq⟩ := deliverRound_spec h hc
    have hconsumers : (s.deliverRound state.queueId c').1.consumers =
        Function.update s.consumers c' (some { state with session := session }) := by
      rw [heq]
      rfl
    intro entry hentry
    by_cases hcc : c = c'
    · -- the consumer gets new messages at the end
      subst hcc
      obtain rfl : state = entry := some.inj (hc.symm.trans hentry)
      exact ⟨session, _, by rw [hconsumers, update_self], hdel.entries⟩
    · exact retains_of_eq (by rw [hconsumers, update_of_ne hcc]) entry hentry

/-- **An action that settles nothing of a consumer retains it.** -/
theorem act_retains (h : Coherent s) {a : Action σ} (ha : ¬ a.Settles c) :
    Retains c s (s.act a) := by
  cases a with
  | declare q => refine retains_of_eq ?_; simp only [act]; split <;> rfl
  | publish batch => refine retains_of_eq ?_; simp only [act]; split <;> rfl
  | persist d => exact retains_of_eq rfl
  | start cmd =>
    intro state hc
    simp only [act]
    split
    · next hnone =>
      refine retains_of_eq ?_ state hc
      have hne : c ≠ cmd.consumerId := by
        rintro rfl
        rw [hc] at hnone
        cases hnone
      exact update_of_ne hne ..
    · exact retains_of_eq rfl state hc
  | deliver c' => exact retains_deliver h c c'
  | ack c' req => exact retains_onSession ha _
  | nack c' req => exact retains_onSession ha _
  | cancel c' disp =>
    refine retains_of_eq ?_
    simp only [act]
    split
    · rfl
    · split
      · rfl
      · exact update_of_ne (Ne.symm ha) ..
  | retry q => refine retains_of_eq ?_; simp only [act, retryQueue]; split <;> rfl
  | rotate q i => refine retains_of_eq ?_; simp only [act]; split <;> rfl
  | settlement batch => exact retains_of_eq rfl
  | confirm batch => exact retains_of_eq rfl
  | error errors => exact retains_of_eq rfl

theorem Reaches.retains {P : Action σ → Prop} (h : Coherent s) (hreach : Reaches P s s')
    (hP : ∀ a, P a → ¬ a.Settles c) : Retains c s s' := by
  obtain ⟨actions, hall, rfl⟩ := hreach
  induction actions generalizing s with
  | nil => exact retains_of_eq rfl
  | cons a actions ih =>
    have hcoh := (act_effect h a).1
    exact (act_retains h (hP a (hall a mem_cons_self))).trans
      (ih hcoh fun b hb => hall b (mem_cons_of_mem a hb))

/-- **A settlement takes nothing from the consumers it does not name.** -/
theorem retains_settles (store : ShardStorage σ) (h : Coherent s) {c' : Nat}
    (hc : settledConsumer batch = some c') (hne : c ≠ c') :
    Retains c s (s.execute store batch) := by
  refine Reaches.retains h (reaches_allowed store s batch) fun a ha hset => ?_
  rcases ha with ha | ha
  · cases a <;> first | exact hset | cases ha
  · match batch, a, hc, ha with
    | .ack _ _, .ack _ _, rfl, rfl => exact hne hset.symm
    | .nack _ _, .nack _ _, rfl, rfl => exact hne hset.symm
    | .reject _ _, .nack _ _, rfl, rfl => exact hne hset.symm
    | .cancel [⟨_, _⟩], .cancel _ _, rfl, ⟨cmd, hin, heq, _⟩ =>
      rw [mem_singleton.mp hin] at heq
      exact hne (hset.symm.trans heq.symm)

end Aurum.Broker
