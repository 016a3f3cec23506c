import Aurum.Broker.Local

/-!
# Broker — queues are independent

`Spares q` says that a step leaves the other queues and their consumers
as they were and sends no delivery that concerns them. Consumers may
come and go at `q`. Every batch that concerns `q` alone is such a step,
because a queue's consumer list and each consumer's queue id agree.
-/

namespace Aurum.Broker

open Aurum.Queue Aurum.Consumer Aurum.Protocol InMemoryShardExecutor Function List Option

variable {σ : Type} {s s' s'' : InMemoryShardExecutor σ} {q : Nat}

/-- **Other queues and their consumers are spared**: their entries are the
same (messages, statistics, consumer list and payload map; window and
credit), and no delivery was sent for one of them. -/
structure Spares (q : Nat) (s s' : InMemoryShardExecutor σ) : Prop where
  queues : ∀ q', q' ≠ q → s'.queues q' = s.queues q'
  consumers : ∀ c state, state.queueId ≠ q →
    (s'.consumers c = some state ↔ s.consumers c = some state)
  events : ∃ es, s'.sink = s.sink ++ es ∧ ∀ batch, .delivery batch ∈ es →
    batch.queueId = q ∧ ∀ state, s.consumers batch.consumerId = some state → state.queueId = q

theorem spares_of_eq (hq : s'.queues = s.queues) (hc : s'.consumers = s.consumers)
    (hsink : s'.sink = s.sink) : Spares q s s' :=
  ⟨fun _ _ => by rw [hq], fun _ _ _ => by rw [hc], [], by rw [hsink, List.append_nil], by simp⟩

theorem Spares.trans (h : Spares q s s') (h' : Spares q s' s'') : Spares q s s'' := by
  obtain ⟨es, hes, hdel⟩ := h.events
  obtain ⟨es', hes', hdel'⟩ := h'.events
  refine ⟨fun q' hne => (h'.queues q' hne).trans (h.queues q' hne),
    fun c state hne => (h'.consumers c state hne).trans (h.consumers c state hne),
    es ++ es', by rw [hes', hes, List.append_assoc], fun batch hin => ?_⟩
  rcases mem_append.mp hin with hin | hin
  · exact hdel batch hin
  · refine ⟨(hdel' batch hin).1, fun state hc => ?_⟩
    -- a consumer of another queue would still be there
    by_contra hne
    exact hne ((hdel' batch hin).2 state ((h.consumers _ state hne).mpr hc))

theorem Spares.allAt {c : Nat} (h : Spares q s s') (hat : AllAt q [c] s) : AllAt q [c] s' := by
  intro k hk state hc
  by_contra hne
  exact hne (hat k hk state ((h.consumers k state hne).mp hc))

/-- An event that is no delivery, or a delivery at `q`. -/
theorem spares_emit (e : Event) (he : ∀ batch, e = .delivery batch →
    batch.queueId = q ∧ ∀ state, s.consumers batch.consumerId = some state → state.queueId = q) :
    Spares q s (s.emit e) :=
  ⟨fun _ _ => rfl, fun _ _ _ => .rfl, [e], rfl,
    fun batch hin => he batch (mem_singleton.mp hin).symm⟩

/-- The entry of a consumer that is at no other queue, replaced by one at
`q` or by none. -/
theorem spares_consumer {c : Nat} {entry : Option ConsumerRuntimeState}
    (hat : ∀ state, s.consumers c = some state → state.queueId = q)
    (hentry : ∀ state, entry = some state → state.queueId = q) :
    Spares q s { s with consumers := Function.update s.consumers c entry } := by
  refine ⟨fun _ _ => rfl, fun k state hne => ?_, [], by simp, by simp⟩
  by_cases hk : k = c
  · subst hk
    dsimp only
    rw [update_self]
    exact iff_of_false (fun hc => hne (hentry state hc)) fun hc => hne (hat state hc)
  · dsimp only
    rw [update_of_ne hk]

/-- The primitive changes at `q` spare the others. -/
theorem local_spares (q : Nat) : @Local σ q (Spares q) where
  refl := fun _ => spares_of_eq rfl rfl rfl
  trans := Spares.trans
  stays := Spares.allAt
  queue := fun _ _ =>
    ⟨fun _ hne => update_of_ne hne .., fun _ _ _ => .rfl, [], by simp [setQueue], by simp⟩
  consumer := fun hc hin _ hin' => spares_consumer
    (fun _ hstate => some.inj (hc.symm.trans hstate) ▸ hin)
    fun _ hstate => some.inj hstate ▸ hin'
  remove := fun hc hin => spares_consumer
    (fun _ hstate => some.inj (hc.symm.trans hstate) ▸ hin) fun _ hstate => by cases hstate
  durable := fun _ _ => spares_of_eq rfl rfl rfl
  emit := fun _ e he => spares_emit e fun batch heq => absurd heq (he batch)
  deliver := fun hc hin _ _ => spares_emit _ fun batch heq => by
    cases heq
    exact ⟨rfl, fun _ hstate => some.inj (hc.symm.trans hstate) ▸ hin⟩

/-! ## The other commands -/

theorem spares_execDeclareQueue (s : InMemoryShardExecutor σ) (q : Nat) :
    Spares q s (s.execDeclareQueue q) := by
  unfold execDeclareQueue
  split
  · exact (local_spares q).queue s _
  · exact (local_spares q).emit s _ (by simp)

theorem spares_execPublish (store : ShardStorage σ) (h : Coherent s) (batch : ShardPublishBatch) :
    Spares batch.queueId s (s.execPublish store batch) := by
  have hlocal := @local_spares σ batch.queueId
  unfold execPublish
  split
  · exact hlocal.emit s _ (by simp)
  · next queue hq =>
    have hstore : Spares batch.queueId s (storePublish store s queue batch).1 ∧
        (storePublish store s queue batch).1.queues = s.queues ∧
        (storePublish store s queue batch).1.consumers = s.consumers := by
      unfold storePublish
      split
      · exact ⟨hlocal.refl s, rfl, rfl⟩
      · exact ⟨hlocal.durable s _, rfl, rfl⟩
    generalize storePublish store s queue batch = res at hstore ⊢
    obtain ⟨s1, ok⟩ := res
    obtain ⟨hs1, hqueues, hconsumers⟩ := hstore
    dsimp only at hs1 hqueues hconsumers ⊢
    have hcoh1 : Coherent s1 := h.congr hqueues hconsumers
    cases ok with
    | false => exact hs1.trans (hlocal.emit s1 _ (by simp))
    | true =>
      have hcoh2 := coherent_of_reaches hcoh1
        (reaches_act (P := fun _ => True) s1 (a := .publish batch) trivial)
      simp only [act, hqueues, hq] at hcoh2
      refine hs1.trans ((hlocal.queue s1 (publishTo queue batch)).trans ?_)
      dsimp only
      split
      · exact hlocal.driveQueue hcoh2
      · exact hlocal.emit_drive hcoh2 (by simp)

/-- A consumer that starts at `q` was registered nowhere. -/
theorem spares_execConsumeStart (h : Coherent s) (cmd : ConsumeStart) :
    Spares cmd.queueId s (s.execConsumeStart cmd) := by
  have hlocal := @local_spares σ cmd.queueId
  unfold execConsumeStart
  split
  · exact hlocal.emit s _ (by simp)
  · next queue hq =>
    split
    · exact hlocal.emit s _ (by simp)
    · next hc =>
      have hcoh := coherent_of_reaches h
        (reaches_act (P := fun _ => True) s (a := .start cmd) trivial)
      simp only [act, hq, hc] at hcoh
      have hstart : Spares cmd.queueId s (s.setConsumer cmd.consumerId (startState cmd)) := by
        refine spares_consumer (fun state hstate => ?_) fun state hstate => ?_
        · rw [hc] at hstate
          cases hstate
        · rw [← some.inj hstate]
          rfl
      refine hstart.trans ((hlocal.queue _ (queue.attach cmd.consumerId)).trans
        ((hlocal.emit _ (.consumer cmd.consumerId .started) (by simp)).trans ?_))
      exact hlocal.driveQueue hcoh

theorem spares_execCreditUpdate (h : Coherent s) {cmd : CreditUpdate}
    (hat : AllAt q [cmd.consumerId] s) : Spares q s (s.execCreditUpdate cmd) := by
  unfold execCreditUpdate
  split
  · exact (local_spares q).emit s _ (by simp)
  · next state hc =>
    rw [hat _ mem_cons_self state hc]
    exact (local_spares q).driveQueue h

/-! ## Batches -/

/-- The commands of a batch concern queue `q` alone: its declaration,
publishes to it, consumers that start at it, or commands of consumers
that are registered at no other queue. -/
def Concerns (q : Nat) (s : InMemoryShardExecutor σ) : ShardCommandBatch → Prop
  | .declare items => ∀ id ∈ items, id = q
  | .publish batch => batch.queueId = q
  | .consume items => ∀ cmd ∈ items, cmd.queueId = q
  | .credit items => AllAt q (items.map CreditUpdate.consumerId) s
  | .ack c _ | .nack c _ | .reject c _ => AllAt q [c] s
  | .cancel items => AllAt q (items.map CancelConsumer.consumerId) s

/-- A fold of commands, each of which keeps the registries in agreement
and spares the other queues while its consumers are at `q`. -/
theorem spares_foldl {α : Type} {f : InMemoryShardExecutor σ → α → InMemoryShardExecutor σ}
    {ids : List Nat} : ∀ (items : List α) (s : InMemoryShardExecutor σ),
      (∀ s, ∀ a ∈ items, Coherent s → AllAt q ids s → Spares q s (f s a) ∧ Coherent (f s a)) →
      Coherent s → AllAt q ids s → Spares q s (items.foldl f s) := by
  intro items
  induction items with
  | nil => exact fun s _ _ _ => spares_of_eq rfl rfl rfl
  | cons a items ih =>
    intro s hf h hat
    obtain ⟨hone, hcoh⟩ := hf s a mem_cons_self h hat
    exact hone.trans (ih (f s a) (fun s b hb => hf s b (mem_cons_of_mem a hb)) hcoh
      ((local_spares q).allAt hat hone))

/-- **A batch that concerns `q` alone spares the other queues.** -/
theorem spares_execute (store : ShardStorage σ) (h : Coherent s) {batch : ShardCommandBatch}
    (hq : Concerns q s batch) : Spares q s (s.execute store batch) := by
  have hplain : ∀ a : Action σ, a.plain = true → True := fun _ _ => trivial
  cases batch with
  | declare items =>
    refine @spares_foldl _ _ _ _ [] items s (fun s id hid h _ => ⟨?_, ?_⟩) h (by simp [AllAt])
    · rw [hq id hid]
      exact spares_execDeclareQueue s q
    · exact coherent_of_reaches h (reaches_execDeclareQueue hplain s id)
  | publish batch =>
    obtain rfl : batch.queueId = q := hq
    exact spares_execPublish store h batch
  | consume items =>
    refine @spares_foldl _ _ _ _ [] items s (fun s cmd hcmd h _ => ⟨?_, ?_⟩) h (by simp [AllAt])
    · obtain rfl := hq cmd hcmd
      exact spares_execConsumeStart h cmd
    · exact coherent_of_reaches h (reaches_execConsumeStart hplain s trivial)
  | credit items =>
    refine spares_foldl items s (fun s cmd hcmd h hat => ⟨?_, ?_⟩) h hq
    · exact spares_execCreditUpdate h (hat.of_mem (mem_map_of_mem hcmd))
    · exact coherent_of_reaches h (reaches_execCreditUpdate hplain s cmd)
  | ack c items => exact (local_spares q).execAckBatch store h hq items
  | nack c items => exact (local_spares q).execNackBatch h hq items
  | reject c items => exact (local_spares q).execRejectBatch h hq items
  | cancel items =>
    refine spares_foldl items s (fun s cmd hcmd h hat => ⟨?_, ?_⟩) h hq
    · exact (local_spares q).execCancel h (hat.of_mem (mem_map_of_mem hcmd))
    · exact coherent_of_reaches h (reaches_execCancel hplain s trivial)

/-- **Queues are independent.** In every state an executor reaches by its
actions, so in every state of a run of command batches, a batch whose
commands concern queue `q` alone leaves the entries of all other queues
and of their consumers as they were, and sends no delivery for another
queue or a consumer of another queue. -/
theorem queues_independent (store : ShardStorage σ) (shardId : Nat) (durable : Option σ)
    {s : InMemoryShardExecutor σ} (hs : Reaches (fun _ => True) (new shardId durable) s) {q : Nat}
    {batch : ShardCommandBatch} (hq : Concerns q s batch) :
    Spares q s (s.execute store batch) :=
  spares_execute store (coherent_of_reaches (coherent_new shardId durable) hs) hq

/-- Two queues, a message of queue 2 inflight at its consumer. -/
def twoQueues : InMemoryShardExecutor Unit :=
  (new 0 none).run .null [.declare [1, 2], .consume [⟨7, 1, 2, 0⟩],
    .publish (.contiguous 2 1)]

/-- A publish to queue 1 spares queue 2. -/
theorem publish_spares_other : twoQueues.stateOf 2 0 = some .inflight ∧
      Spares 1 twoQueues (twoQueues.execute .null (.publish (.contiguous 1 3))) :=
  ⟨by decide +kernel, queues_independent .null 0 none
    (reaches_run (fun _ => trivial) .null (new 0 none) _) rfl⟩

end Aurum.Broker
