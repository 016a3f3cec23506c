import Aurum.Broker.Calls

/-!
# Broker — payload handles

Which handle a delivery exposes for a message. The executor keeps the
handle of every record in `seq_payloads`, which only a publish writes,
but the events do not carry these handles: a range segment carries the
handle of its first message and counts on from it, and a mask segment
carries none, its reader takes the sequence number of a message for its
handle. So the handles are right where those of the ready messages are
consecutive (`Runs`) and those of requeued messages are their sequence
numbers (`Plainly`).
-/

namespace Aurum.Broker

open Aurum.Bits Aurum.Queue Aurum.Consumer Aurum.Protocol InMemoryShardExecutor

variable {σ : Type} {s s' : InMemoryShardExecutor σ}

theorem reaches_payloads (hr : Reaches (fun a => ∀ batch, a ≠ .publish batch) s s') (k : Nat) :
    s'.payloadsOf k = s.payloadsOf k := by
  obtain ⟨actions, hall, rfl⟩ := hr
  induction actions generalizing s with
  | nil => rfl
  | cons a actions ih =>
    rw [List.foldl_cons, ih fun b hb => hall b (by simp [hb]),
      ((act_writes s a).queues (hall a (by simp))).1]

/-! ## Publishing -/

/-- The store, if there is one, accepts the publish. -/
def Accepts (store : ShardStorage σ) (s : InMemoryShardExecutor σ) (batch : ShardPublishBatch) :
    Prop :=
  ∀ queue, s.queues batch.queueId = some queue → (storePublish store s queue batch).2 = true

/-- What a publish adds to its queue. -/
structure Publishes (batch : ShardPublishBatch) (s s' : InMemoryShardExecutor σ) : Prop where
  coherent : Coherent s'
  nextSeq : ∀ k, s'.nextSeqOf k =
    s.nextSeqOf k + if k = batch.queueId then batch.count else 0
  payloads : ∀ k x, s'.payloadsOf k x =
    if k = batch.queueId then
      insertPayloads (s.payloadsOf k) (s.nextSeqOf k) batch.records x
    else s.payloadsOf k x

theorem storePublish_frame (store : ShardStorage σ) (s : InMemoryShardExecutor σ)
    (queue : QueueState) (batch : ShardPublishBatch) :
    (storePublish store s queue batch).1.queues = s.queues ∧
    (storePublish store s queue batch).1.consumers = s.consumers ∧
    (storePublish store s queue batch).1.sink = s.sink ∧
    (storePublish store s queue batch).1.shardId = s.shardId := by
  unfold storePublish
  split <;> exact ⟨rfl, rfl, rfl, rfl⟩

/-- **`exec_publish`** on a declared queue, if the store accepts it. -/
theorem publishes_execPublish (store : ShardStorage σ) (h : Coherent s)
    {batch : ShardPublishBatch} {queue : QueueState} (hq : s.queues batch.queueId = some queue)
    (hstore : Accepts store s batch) : Publishes batch s (s.execPublish store batch) := by
  obtain ⟨hqueues, hconsumers, -, -⟩ := storePublish_frame store s queue batch
  have hok := hstore queue hq
  have hplain : ∀ a : Action σ, a.plain = true → ∀ b, a ≠ .publish b := by
    rintro a ha b rfl
    cases ha
  unfold execPublish
  rw [hq]
  dsimp only
  generalize storePublish store s queue batch = res at hqueues hconsumers hok ⊢
  obtain ⟨s1, ok⟩ := res
  obtain rfl : ok = true := hok
  dsimp only at hqueues hconsumers ⊢
  have hq1 : s1.queues batch.queueId = some queue := by rw [hqueues, hq]
  have hcoh1 : Coherent s1 := h.congr hqueues hconsumers
  have hcoh2 := (act_effect hcoh1 (.publish batch)).1
  simp only [act, hq1] at hcoh2
  -- what follows the publish adds no messages
  generalize hs2 : s1.setQueue batch.queueId (publishTo queue batch) = s2 at hcoh2 ⊢
  have hdrive : ∀ s3, Coherent s3 → s3.queues = s2.queues →
      Publishes batch s (s3.driveQueue batch.queueId) := by
    intro s3 hcoh3 hq3
    have hreach := reaches_driveQueue hplain s3 batch.queueId
    have hnext2 : ∀ k, s3.nextSeqOf k =
        s.nextSeqOf k + if k = batch.queueId then batch.count else 0 := by
      intro k
      simp only [nextSeqOf, hq3, ← hs2, InMemoryShardExecutor.setQueue, hqueues,
        Function.update_apply]
      split
      · next hk =>
        obtain ⟨st, hst⟩ := h.queue _ queue hq
        rw [hk, hq]
        exact (hst.owns.denotes.publishContiguous batch.count).2.1
      · simp
    refine ⟨coherent_of_reaches hcoh3 hreach, fun k => ?_, fun k x => ?_⟩
    · rw [reaches_nextSeq hcoh3 hreach, hnext2]
    · rw [reaches_payloads hreach]
      simp only [payloadsOf, nextSeqOf, hq3, ← hs2, InMemoryShardExecutor.setQueue, hqueues,
        Function.update_apply]
      split
      · next hk =>
        rw [hk, hq]
        rfl
      · rfl
  split
  · exact hdrive s2 hcoh2 rfl
  · exact hdrive (s2.emit _) (hcoh2.congr rfl rfl) rfl

end Aurum.Broker
