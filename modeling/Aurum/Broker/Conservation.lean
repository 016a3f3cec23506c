import Aurum.Broker.Drive
import Aurum.Broker.Settle

/-!
# Broker — work conservation

Whatever batch an executor without a store has just executed, no queue
has a ready message while a consumer attached to it has credit. Every
handler that makes messages ready or frees credit drives the queue
concerned; the ones that skip it (a drop-cancel, a settlement batch that
settled nothing) leave ready messages and credit as they were.

The other half is that the loops end: `deliver_consumer`, `retry_all_now`
and `deliver_sparse_masks` are unbounded in the source, and the fuel the
model gives them is never used up.
-/

namespace Aurum.Broker

open Aurum.Bits Aurum.Queue Aurum.Queue.HybridRangeBlockQueue Aurum.Consumer Aurum.Protocol Function
open Option
open InMemoryShardExecutor
  InMemoryShardExecutor

variable {σ : Type} {s s' : InMemoryShardExecutor σ} {c queueId : Nat} (store : ShardStorage σ)

/-- What holds after every batch. -/
structure Conserved (s : InMemoryShardExecutor σ) : Prop where
  coherent : Coherent s
  durable : s.durable = none
  driven : ∀ queueId, Driven s queueId

/-- A queue that is as before, with no consumer it did not have. -/
theorem Driven.congr (h : Driven s queueId) (hq : s'.queues queueId = s.queues queueId)
    (hc : ∀ c state, s'.consumers c = some state → state.queueId = queueId →
      s.consumers c = some state) : Driven s' queueId := by
  rcases h with hr | hall
  · refine .inl fun x => ?_
    have hx := hr x
    simpa only [stateOf, hq] using hx
  · exact .inr fun c state hk hid => hall c state (hc c state hk hid) hid

theorem Conserved.congr (h : Conserved s) (hq : s'.queues = s.queues)
    (hc : s'.consumers = s.consumers) (hd : s'.durable = s.durable) : Conserved s' where
  coherent := h.coherent.congr hq hc
  durable := hd.trans h.durable
  driven := fun k => (h.driven k).congr (by rw [hq]) fun c state hk _ => hc ▸ hk

/-- **`drive_queue`** restores the invariant if only its queue may lack it. -/
theorem conserved_driveQueue (h : Coherent s) (hdur : s.durable = none)
    (hother : ∀ k, k ≠ queueId → Driven s k) : Conserved (s.driveQueue queueId) := by
  obtain ⟨hcoh, hdur', hqueues, hcons, hid⟩ := driveQueue_frame h queueId
  refine ⟨hcoh, hdur'.trans hdur, fun k => ?_⟩
  by_cases hk : k = queueId
  · subst hk
    exact driveQueue_driven h k
  · refine (hother k hk).congr (hqueues k hk) fun c state hc hstate => ?_
    -- the consumer is attached to `k` before, so it was not touched
    have hsame := hid c
    rw [hc, map_some, hstate] at hsame
    rw [← hcons c (by rw [← hsame]; simpa using hk), hc]

/-! ## Handlers -/

theorem conserved_declare (h : Conserved s) (queueId : Nat) :
    Conserved (s.execDeclareQueue queueId) := by
  unfold execDeclareQueue
  split
  · next hq =>
    refine ⟨h.coherent.declare hq, h.durable, fun k => ?_⟩
    by_cases hk : k = queueId
    · -- a new queue is empty
      subst hk
      refine .inl fun x => ?_
      rw [show (s.setQueue k QueueState.empty).stateOf = _ from stateOf_update denotes_empty,
        update_self]
      simp
    · refine (h.driven k).congr ?_ fun c state hc _ => hc
      simp [setQueue, hk]
  · exact h.congr rfl rfl rfl

theorem conserved_publish (h : Conserved s) (batch : ShardPublishBatch) :
    Conserved (s.execPublish store batch) := by
  unfold execPublish
  split
  · exact h.congr rfl rfl rfl
  · next queue hq =>
    have hpub := (hasEffect_publish h.coherent batch false).1
    simp only [act, hq] at hpub
    have hother : ∀ k, k ≠ batch.queueId →
        Driven (s.setQueue batch.queueId (publishTo queue batch)) k := fun k hk =>
      (h.driven k).congr (by simp [setQueue, hk]) fun c state hc _ => hc
    simp only [storePublish, h.durable]
    split
    · exact conserved_driveQueue hpub h.durable hother
    · exact conserved_driveQueue (hpub.congr rfl rfl) h.durable fun k hk =>
        (hother k hk).congr rfl fun c state hc _ => hc

theorem conserved_consume (h : Conserved s) (cmd : ConsumeStart) :
    Conserved (s.execConsumeStart cmd) := by
  unfold execConsumeStart
  split
  · exact h.congr rfl rfl rfl
  · next queue hq =>
    split
    · exact h.congr rfl rfl rfl
    · next hc =>
      refine conserved_driveQueue ((h.coherent.start hq hc).congr rfl rfl) h.durable
        fun k hk => ?_
      refine (h.driven k).congr ?_ fun c state hcons hid => ?_
      · simp [emit, setQueue, setConsumer, hk]
      · simp only [emit, setQueue, setConsumer,
          update_apply] at hcons
        split at hcons
        · -- the new consumer is attached to another queue
          obtain rfl := some.inj hcons
          exact absurd hid.symm hk
        · exact hcons

theorem conserved_credit (h : Conserved s) (cmd : CreditUpdate) :
    Conserved (s.execCreditUpdate cmd) := by
  unfold execCreditUpdate
  split
  · exact h.congr rfl rfl rfl
  · exact conserved_driveQueue h.coherent h.durable fun k _ => h.driven k

variable {state : ConsumerRuntimeState} {queue : QueueState}

/-- After the items of a settlement batch only the queue of its consumer
may have to be driven. -/
theorem Settled.driven {n : Nat} (hset : Settled c s s' n) (h : Conserved s)
    (hc : s'.consumers c = some state) {k : Nat} (hk : k ≠ state.queueId) : Driven s' k := by
  have hid := hset.queueId
  rw [hc, map_some] at hid
  refine (h.driven k).congr (hset.queues k ?_) fun c' state' hc' hid' => ?_
  · rw [← hid]
    simpa using Ne.symm hk
  · by_cases hcc : c' = c
    · subst hcc
      rw [hc] at hc'
      obtain rfl := some.inj hc'
      exact absurd hid'.symm hk
    · rw [← hset.consumers c' hcc, hc']

theorem conserved_reportErrors (h : Conserved s) (errs : List CommandError) :
    Conserved (s.reportErrors errs) := by
  unfold reportErrors
  split
  · exact h
  · exact h.congr rfl rfl rfl

/-- `retry_all_now` touches one queue. -/
theorem retryQueue_frame (s : InMemoryShardExecutor σ) (queueId : Nat) :
    (s.retryQueue queueId).consumers = s.consumers ∧
      (s.retryQueue queueId).durable = s.durable ∧
      ∀ k, k ≠ queueId → (s.retryQueue queueId).queues k = s.queues k := by
  unfold retryQueue
  split
  · exact ⟨rfl, rfl, fun _ _ => rfl⟩
  · exact ⟨rfl, rfl, fun k hk => by simp [setQueue, hk]⟩

/-- The end of a settlement batch: only the queue that is driven was
touched. -/
theorem Settled.conserved_after {n : Nat} (hset : Settled c s s' n) (h : Conserved s)
    {first : InMemoryShardExecutor σ → Nat → InMemoryShardExecutor σ}
    (hfirst : ∀ s q, Coherent s → Coherent (first s q) ∧ (first s q).consumers = s.consumers ∧
      (first s q).durable = s.durable ∧ ∀ k, k ≠ q → (first s q).queues k = s.queues k)
    (kind : SettlementKind) : Conserved (afterItems kind first c n s') := by
  unfold afterItems
  split
  · next hpos =>
    obtain ⟨state, hc⟩ := hset.registered hpos
    have hemit : (s'.emit (.settlement ⟨c, kind, n⟩)).consumers c = some state := hc
    simp only [hemit]
    obtain ⟨hcoh, hcons, hdur, hqueues⟩ :=
      hfirst (s'.emit (.settlement ⟨c, kind, n⟩)) state.queueId (hset.coherent.congr rfl rfl)
    refine conserved_driveQueue hcoh (hdur.trans (hset.durable.trans h.durable)) fun k hk => ?_
    refine (hset.driven h hc hk).congr (hqueues k hk) fun c' state' hc' _ => ?_
    rw [hcons] at hc'
    exact hc'
  · rw [hset.same (by omega)]
    exact h

theorem conserved_ackBatch (h : Conserved s)
    (hlt : heldCount s c < 2 ^ 32) (items : List AckCommand) :
    Conserved (s.execAckBatch store c items) := by
  obtain ⟨n, hn, hset⟩ := @settled_items _ c _ none (ackItem store c)
    (fun s cmd h hdur hlt => settlesItem_ack store h hdur hlt cmd) items s 0 [] h.coherent
    h.durable (by omega)
  rw [execAckBatch_eq store s rfl, hn, Nat.zero_add]
  exact conserved_reportErrors
    (hset.conserved_after h (fun _ _ h => ⟨h, rfl, rfl, fun _ _ => rfl⟩) _) _

theorem conserved_rejectBatch (h : Conserved s) (hlt : heldCount s c < 2 ^ 32)
    (items : List RejectCommand) : Conserved (s.execRejectBatch c items) := by
  obtain ⟨n, hn, hset⟩ := @settled_items _ c _ none (fun s => s.execRejectCommand c)
    (fun s cmd h _ hlt => settlesItem_reject h hlt cmd) items s 0 [] h.coherent h.durable
    (by omega)
  rw [execRejectBatch_eq s rfl, hn, Nat.zero_add]
  exact hset.conserved_after h (fun _ _ h => ⟨h, rfl, rfl, fun _ _ => rfl⟩) _

theorem conserved_nackBatch (h : Conserved s) (hlt : heldCount s c < 2 ^ 32)
    (items : List NackCommand) : Conserved (s.execNackBatch c items) := by
  obtain ⟨n, hn, hset⟩ := @settled_items _ c _ none (fun s => s.execNackCommand c)
    (fun s cmd h _ hlt => settlesItem_nack h hlt cmd) items s 0 [] h.coherent h.durable
    (by omega)
  rw [execNackBatch_eq s rfl, hn, Nat.zero_add]
  exact conserved_reportErrors (hset.conserved_after h
    (fun s q h => ⟨(hasEffect_retry h q false).1, retryQueue_frame s q⟩) _) _

/-- A consumer that left: the states of its messages changed, and nothing
became ready. -/
theorem driven_cancel (h : Conserved s) (hc : s.consumers c = some state)
    (hq : s.queues state.queueId = some queue) (disp : CancelDisposition) (k : Nat) :
    Driven ((s.removeConsumer c state queue disp).emit (.consumer c .cancelled)) k := by
  have hfewer : ∀ c' state',
      ((s.removeConsumer c state queue disp).emit (.consumer c .cancelled)).consumers c' =
        some state' → s.consumers c' = some state' := by
    intro c' state' hc'
    simp only [emit, removeConsumer, setQueue,
      update_apply] at hc'
    split at hc'
    · cases hc'
    · exact hc'
  rcases h.driven k with hr | hall
  · refine .inl fun x => ?_
    have hview := congrArg (fun v => v.state k x) (view_cancel h.coherent hc disp)
    rw [act_cancel hc hq] at hview
    change (((s.removeConsumer c state queue disp).emit (.consumer c .cancelled)).stateOf k x) = _
      at hview
    rw [hview]
    dsimp only
    rw [update_apply]
    split
    · next hk =>
      subst hk
      by_cases hx : x ∈ state.session.entries.map Prod.snd
      · rw [setAll_of_mem hx]
        cases disp <;> simp [outcome]
      · rw [setAll_of_not_mem hx]
        exact hr x
    · exact hr x
  · exact .inr fun c' state' hc' hid => hall c' state' (hfewer c' state' hc') hid

theorem conserved_cancel (h : Conserved s) (cmd : CancelConsumer) :
    Conserved (s.execCancel cmd) := by
  unfold execCancel
  split
  · exact h.congr rfl rfl rfl
  · next state hc =>
    split
    · exact h.congr rfl rfl rfl
    · split
      · exact h
      · next queue hq =>
        have hcoh := (hasEffect_cancel h.coherent cmd.consumerId
          (toDisposition cmd.disposition)).1
        rw [act_cancel hc hq] at hcoh
        have hdriven := driven_cancel h hc hq (toDisposition cmd.disposition)
        dsimp only
        split
        · exact conserved_driveQueue hcoh h.durable fun k _ => hdriven k
        · exact ⟨hcoh, h.durable, hdriven⟩

theorem conserved_foldl {α : Type} {f : InMemoryShardExecutor σ → α → InMemoryShardExecutor σ}
    (hf : ∀ s a, Conserved s → Conserved (f s a)) : ∀ (items : List α)
      (s : InMemoryShardExecutor σ), Conserved s → Conserved (items.foldl f s) := by
  intro items
  induction items with
  | nil => exact fun s h => h
  | cons a items ih => exact fun s h => ih (f s a) (hf s a h)

/-- **Every batch keeps the invariant.** -/
theorem conserved_execute (h : Conserved s)
    (hlt : ∀ c, heldCount s c < 2 ^ 32) (b : ShardCommandBatch) :
    Conserved (s.execute store b) := by
  cases b with
  | declare items => exact conserved_foldl (fun _ q h => conserved_declare h q) items s h
  | publish batch => exact conserved_publish store h batch
  | consume items => exact conserved_foldl (fun _ cmd h => conserved_consume h cmd) items s h
  | credit items => exact conserved_foldl (fun _ cmd h => conserved_credit h cmd) items s h
  | ack c items => exact conserved_ackBatch store h (hlt c) items
  | nack c items => exact conserved_nackBatch h (hlt c) items
  | reject c items => exact conserved_rejectBatch h (hlt c) items
  | cancel items => exact conserved_foldl (fun _ cmd h => conserved_cancel h cmd) items s h

/-! ## The number of messages -/

/-- The messages a batch adds to a queue. -/
def publishedBy (s : InMemoryShardExecutor σ) : ShardCommandBatch → Nat
  | .publish batch => if (s.queues batch.queueId).isSome then batch.count else 0
  | _ => 0

/-- The messages published in a run. -/
def publishedTotal (store : ShardStorage σ) : InMemoryShardExecutor σ → List ShardCommandBatch → Nat
  | _, [] => 0
  | s, b :: batches => publishedBy s b + publishedTotal store (s.execute store b) batches

theorem nextSeqOf_publishTo (batch : ShardPublishBatch) (hq : s.queues batch.queueId = some queue)
    (k : Nat) :
    (s.setQueue batch.queueId (publishTo queue batch)).nextSeqOf k ≤
      s.nextSeqOf k + batch.count := by
  simp only [nextSeqOf, setQueue, update_apply]
  split
  · next hk =>
    subst hk
    simp only [hq, map_some, getD_some, publishTo, publishContiguous]
    split
    · exact Nat.le_add_right _ _
    · exact Nat.le_refl _
  · exact Nat.le_add_right _ _

/-- A batch adds the messages it publishes. -/
theorem nextSeqOf_execute (h : Conserved s) (b : ShardCommandBatch)
    (k : Nat) : (s.execute store b).nextSeqOf k ≤ s.nextSeqOf k + publishedBy s b := by
  have hplain : ∀ a : Action σ, a.plain = true → ∀ batch, a ≠ .publish batch := by
    rintro a ha batch rfl
    cases ha
  have same : ∀ {s'}, Reaches (fun a : Action σ => ∀ batch, a ≠ .publish batch) s s' →
      s'.nextSeqOf k ≤ s.nextSeqOf k + 0 := fun hr => (reaches_nextSeq h.coherent hr k).le
  cases b with
  | declare items => exact same (reaches_foldl (fun s q _ => reaches_execDeclareQueue hplain s q) s)
  | publish batch =>
    rw [execute, publishedBy]
    unfold execPublish
    split
    · exact Nat.le_add_right _ _
    · next queue hq =>
      have hpub := (hasEffect_publish h.coherent batch false).1
      simp only [act, hq] at hpub
      have hle := nextSeqOf_publishTo batch hq k
      simp only [storePublish, h.durable, hq, isSome_some, if_true]
      split
      · exact (reaches_nextSeq hpub (reaches_driveQueue hplain _ _) k).le.trans hle
      · refine (reaches_nextSeq ?_ (reaches_driveQueue hplain _ _) k).le.trans hle
        exact hpub.congr rfl rfl
  | consume items =>
    exact same (reaches_foldl (fun s _ _ => reaches_execConsumeStart hplain s (by simp)) s)
  | credit items =>
    exact same (reaches_foldl (fun s cmd _ => reaches_execCreditUpdate hplain s cmd) s)
  | ack c items => exact same (reaches_execAckBatch hplain store s (by simp) items)
  | nack c items => exact same (reaches_execNackBatch hplain s c (by simp))
  | reject c items => exact same (reaches_execRejectBatch hplain s c (by simp))
  | cancel items =>
    exact same (reaches_foldl (fun s _ _ => reaches_execCancel hplain s (by simp)) s)

/-- A consumer holds at most the messages of its queue. -/
theorem heldCount_le (h : Coherent s) {bound : Nat} (hb : ∀ k, s.nextSeqOf k ≤ bound) (c : Nat) :
    heldCount s c ≤ bound := by
  cases hc : s.consumers c with
  | none => simp [heldCount, hc]
  | some state =>
    obtain ⟨-, queue, hq⟩ := h.consumer c state hc
    have hle := h.entries_le hc hq
    have hk := hb state.queueId
    simp only [nextSeqOf, hq, map_some, getD_some] at hk
    simp only [heldCount, hc, map_some, getD_some]
    omega

theorem conserved_run (store : ShardStorage σ) : ∀ (batches : List ShardCommandBatch)
    (s : InMemoryShardExecutor σ) (before : Nat), Conserved s →
    (∀ k, s.nextSeqOf k ≤ before) → before + publishedTotal store s batches < 2 ^ 32 →
    ∀ done rest, batches = done ++ rest → Conserved (s.run store done) := by
  intro batches
  induction batches with
  | nil =>
    intro s before h _ _ done rest heq
    obtain ⟨rfl, -⟩ := List.append_eq_nil_iff.mp heq.symm
    exact h
  | cons b batches ih =>
    intro s before h hb hlt done rest heq
    rw [publishedTotal] at hlt
    cases done with
    | nil => exact h
    | cons d done =>
      obtain ⟨rfl, htail⟩ : b = d ∧ batches = done ++ rest := by simpa using heq
      have hheld : ∀ c, heldCount s c < 2 ^ 32 := fun c => by
        have := heldCount_le h.coherent hb c
        omega
      refine ih (s.execute store b) (before + publishedBy s b)
        (conserved_execute store h hheld b) (fun k => ?_) (by omega) done rest htail
      have := nextSeqOf_execute store h b k
      have := hb k
      omega

/-! ## Termination -/

/-- The queue as the sparse half of `deliver` finds it, after a range of
`len` messages was handed out. -/
def afterRange (q : HybridRangeBlockQueue) (len : Nat) : HybridRangeBlockQueue :=
  { q.markInflightRange q.sequentialHead len with sequentialHead := q.sequentialHead + len }

/-- **The loops end** when they are started in this executor: given more
fuel than the model gives them they do the same. -/
structure LoopsEnd (s : InMemoryShardExecutor σ) : Prop where
  /-- `deliver_consumer` -/
  deliver : ∀ c state, s.consumers c = some state → ∀ extra,
    deliverLoop state.queueId c (s.nextSeqOf state.queueId + 1 + extra) s 0 =
      s.deliverConsumer c
  /-- `retry_all_now` -/
  retry : ∀ queueId queue, s.queues queueId = some queue → ∀ extra,
    retryLoop (queue.queue.blocks.length + 1 + extra) queue.queue 0 =
      retryLoop (queue.queue.blocks.length + 1) queue.queue 0
  /-- `deliver_sparse_masks` -/
  sparse : ∀ queueId queue, s.queues queueId = some queue →
    ∀ len ≤ queue.queue.sequentialReadyLen, ∀ maxMessages masks extra,
    sparseLoop ((afterRange queue.queue len).blocks.length + 1 + extra)
        (afterRange queue.queue len) maxMessages 0 masks =
      (afterRange queue.queue len).deliverSparseMasks maxMessages masks
  /-- the loops over the blocks of a range -/
  blocks : ∀ step start len extra (q : HybridRangeBlockQueue),
    forBlocks step (start + len) (len + extra) start q = forBlocks step (start + len) len start q

theorem loopsEnd_of (h : Coherent s) : LoopsEnd s where
  deliver := by
    intro c state hc extra
    obtain ⟨-, queue, hq⟩ := h.consumer c state hc
    simp only [deliverConsumer, nextSeqOf, hc, hq, map_some, getD_some]
    exact deliverLoop_enough extra _ s 0 h hc rfl hq (by omega)
  retry := by
    intro queueId queue hq extra
    obtain ⟨st, hst⟩ := h.queue _ queue hq
    exact hst.owns.denotes.shape.retryLoop_ends extra
  sparse := by
    intro queueId queue hq len hlen maxMessages masks extra
    obtain ⟨st, hst⟩ := h.queue _ queue hq
    have hd := hst.owns.denotes
    have htail := hd.tail
    have hhead := hd.head
    have hle : queue.queue.sequentialHead + len ≤ queue.queue.nextSeq := by
      rw [sequentialReadyLen] at hlen
      omega
    have hrange := hd.deliverRange hle
    exact hrange.shape.sparseLoop_ends maxMessages masks extra
  blocks := fun step start len extra q =>
    forBlocks_enough step (start + len) extra len start q (by omega)

/-! ## Runs -/

/-- No message is ready. -/
def Drained (q : HybridRangeBlockQueue) : Prop :=
  q.sequentialReadyLen = 0 ∧ ∀ x, q.bit .sparseReady x = false

theorem drained_of {st : Nat → Option MessageState} (hq : s.queues queueId = some queue)
    (hd : queue.queue.Denotes st) (hr : NoReady s queueId) : Drained queue.queue := by
  have hst : ∀ x, s.stateOf queueId x = st x := congrFun (view_state_of hq hd)
  refine ⟨?_, fun x => ?_⟩
  · by_contra hne
    rw [sequentialReadyLen] at hne
    -- the head of the interval is a ready message
    have hin : queue.queue.inState .ready queue.queue.sequentialHead = true := by
      simp only [inState, decide_eq_true_eq]
      omega
    exact (hr queue.queue.sequentialHead).1 ((hst _).trans ((hd.state _ _).mp hin))
  · rw [Bool.eq_false_iff]
    intro hbit
    exact (hr x).2 ((hst x).trans ((hd.state .sparseReady x).mp hbit))

/-- **Work conservation.** In every run without a store that publishes
fewer than `2^32` messages the loops of every call end, and after every
batch each queue has no ready message, or no consumer attached to it has
credit. -/
theorem work_conservation (store : ShardStorage σ) (shardId : Nat)
    (batches : List ShardCommandBatch)
    (hlt : publishedTotal store (new shardId none) batches < 2 ^ 32) :
    (∀ actions : List (Action σ), LoopsEnd (actions.foldl act (new shardId none))) ∧
      ∀ done rest, batches = done ++ rest →
        (∃ actions : List (Action σ),
          actions.foldl act (new shardId none) = run store (new shardId none) done) ∧
        ∀ queueId queue, (run store (new shardId none) done).queues queueId = some queue →
          Drained queue.queue ∨
            ∀ c ∈ queue.consumers, ∃ state,
              (run store (new shardId none) done).consumers c = some state ∧
                state.session.credit.available = 0 := by
  have hnew : Conserved (new shardId none : InMemoryShardExecutor σ) :=
    ⟨coherent_new shardId none, rfl, fun k => .inl fun x => by simp [stateOf, new]⟩
  refine ⟨fun actions => loopsEnd_of (coherent_foldl hnew.coherent actions),
    fun done rest heq => ⟨?_, fun queueId queue hq => ?_⟩⟩
  · obtain ⟨actions, -, hrun⟩ :=
      reaches_run (P := fun _ => True) (fun _ => trivial) store (new shardId none) done
    exact ⟨actions, hrun⟩
  · have h := conserved_run store batches (new shardId none) 0 hnew
      (fun k => by simp [nextSeqOf, new]) (by omega) done rest heq
    obtain ⟨st, hst⟩ := h.coherent.queue _ queue hq
    rcases h.driven queueId with hr | hall
    · exact .inl (drained_of hq hst.owns.denotes hr)
    · refine .inr fun c hc => ?_
      obtain ⟨state, hstate, hid⟩ := Option.map_eq_some_iff.mp ((hst.attached c).mp hc)
      exact ⟨state, hstate, hall c state hstate hid⟩

/-- Three messages for a consumer that may hold two. -/
def threeForTwo : List ShardCommandBatch :=
  [.declare [0], .publish (.contiguous 0 3), .consume [⟨1, 1, 0, 2⟩]]

theorem work_conservation_prefetch : publishedTotal .null (new 0 none) threeForTwo < 2 ^ 32 ∧
      ∀ queueId queue, (run .null (new 0 none) threeForTwo).queues queueId = some queue →
        Drained queue.queue ∨
          ∀ c ∈ queue.consumers, ∃ state,
            (run .null (new 0 none) threeForTwo).consumers c = some state ∧
              state.session.credit.available = 0 := by
  have hlt : publishedTotal .null (new 0 none) threeForTwo < 2 ^ 32 := by decide +kernel
  exact ⟨hlt, ((work_conservation .null 0 threeForTwo hlt).2 threeForTwo [] (by simp)).2⟩

end Aurum.Broker
