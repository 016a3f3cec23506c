import Aurum.Broker.Calls

/-!
# Broker — commands stay at their queue

Every handler reaches its queue and its consumers through the shared
registries and ends in the delivery loop. Which parts of the executor it
can change is the same for all of them: the entry of one queue `q`, the
entries of consumers attached to `q`, and the sink. `Local q R` says that
the relation `R` contains these primitive changes; then `R` relates the
executor before and after every command that concerns `q` alone.
-/

namespace Aurum.Broker

open Aurum.Queue Aurum.Consumer Aurum.Protocol InMemoryShardExecutor List

variable {σ : Type} {s s' : InMemoryShardExecutor σ} {q : Nat}

/-- Every consumer of the list that is registered is one of `q`. -/
def AllAt (q : Nat) (ids : List Nat) (s : InMemoryShardExecutor σ) : Prop :=
  ∀ c ∈ ids, ∀ state, s.consumers c = some state → state.queueId = q

variable {c : Nat} {ids : List Nat}

/-- The consumer of a batch is one of `q`, if it is registered. -/
theorem allAt_of_queueId (h : ∀ state, s.consumers c = some state → state.queueId = q) :
    AllAt q [c] s :=
  fun _ hk => mem_singleton.mp hk ▸ h

theorem AllAt.of_mem (h : AllAt q ids s) (hc : c ∈ ids) : AllAt q [c] s :=
  fun _ hk => mem_singleton.mp hk ▸ h c hc

/-- **A relation that contains the primitive changes at queue `q`.** -/
structure Local (q : Nat) (R : InMemoryShardExecutor σ → InMemoryShardExecutor σ → Prop) :
    Prop where
  refl : ∀ s, R s s
  trans : ∀ {s s' s''}, R s s' → R s' s'' → R s s''
  stays : ∀ {s s' c}, R s s' → AllAt q [c] s → AllAt q [c] s'
  queue : ∀ s queue, R s (s.setQueue q queue)
  consumer : ∀ {s c state}, s.consumers c = some state → state.queueId = q →
    ∀ state', state'.queueId = q → R s (s.setConsumer c state')
  remove : ∀ {s c state}, s.consumers c = some state → state.queueId = q →
    R s { s with consumers := Function.update s.consumers c none }
  durable : ∀ s d, R s { s with durable := d }
  emit : ∀ s e, (∀ batch, e ≠ .delivery batch) → R s (s.emit e)
  deliver : ∀ {s c state}, s.consumers c = some state → state.queueId = q →
    ∀ channelId segments, R s (s.emit (.delivery ⟨c, q, channelId, segments⟩))

/-- The action is at `q`, or at one of the consumers. -/
def Action.At (q : Nat) (ids : List Nat) : Action σ → Prop
  | .deliver c | .ack c _ | .nack c _ | .cancel c _ => c ∈ ids
  | .retry q' | .rotate q' _ => q' = q
  | .persist _ | .settlement _ | .confirm _ | .error _ => True
  | .declare _ | .publish _ | .start _ => False

namespace Local

variable {R : InMemoryShardExecutor σ → InMemoryShardExecutor σ → Prop} (hR : Local q R)
include hR

theorem allAt (h : AllAt q ids s) (hs : R s s') : AllAt q ids s' :=
  fun c hc => hR.stays hs (h.of_mem hc) c mem_cons_self

/-! ## Delivery -/

variable {state : ConsumerRuntimeState}

theorem emitDelivery (hc : s.consumers c = some state) (hin : state.queueId = q) :
    R s (s.emitDelivery c q) := by
  unfold InMemoryShardExecutor.emitDelivery
  rw [hc]
  dsimp only
  split
  · exact hR.refl s
  · refine hR.trans (hR.consumer hc hin { state with out := [] } hin) ?_
    have hc' : (s.setConsumer c { state with out := [] }).consumers c =
        some { state with out := [] } := Function.update_self ..
    exact hR.deliver hc' hin _ _

theorem deliverRound (hc : s.consumers c = some state) (hin : state.queueId = q) :
    R s (s.deliverRound q c).1 := by
  unfold InMemoryShardExecutor.deliverRound
  rw [hc]
  cases hq : s.queues q with
  | none => exact hR.refl s
  | some queue =>
    dsimp only
    split
    · exact hR.consumer hc hin _ hin
    · next session queue' out n _ =>
      have hput : R s ((s.setQueue q { queue with queue := queue' }).setConsumer c
          { state with session := session, out := out }) := by
        refine hR.trans (hR.queue s { queue with queue := queue' }) ?_
        have hc' : (s.setQueue q { queue with queue := queue' }).consumers c = some state := hc
        exact hR.consumer hc' hin _ hin
      split
      · exact hput
      · exact hR.trans hput (hR.emitDelivery (Function.update_self ..) hin)

theorem putBack (hc : s.consumers c = some state) (hin : state.queueId = q) (queue : QueueState)
    (session : ConsumerSession) (queue' : HybridRangeBlockQueue) :
    R s (s.putBack c state queue session queue') := by
  subst hin
  refine hR.trans (hR.queue s { queue with queue := queue' }) ?_
  have hc' : (s.setQueue state.queueId { queue with queue := queue' }).consumers c = some state :=
    hc
  exact hR.consumer hc' rfl _ rfl

theorem removeConsumer (hc : s.consumers c = some state) (hin : state.queueId = q)
    (queue : QueueState) (disp : CancelDisposition) :
    R s (s.removeConsumer c state queue disp) := by
  subst hin
  unfold removeConsumer
  dsimp only
  generalize ({ queue with queue := (state.session.cancel disp queue.queue).2.1 }.detach c) = entry
  have hc' : (s.setQueue state.queueId entry).consumers c = some state := hc
  exact hR.trans (hR.queue s entry) (hR.remove hc' rfl)

theorem retryQueue : R s (s.retryQueue q) := by
  unfold InMemoryShardExecutor.retryQueue
  split
  · exact hR.refl s
  · exact hR.queue s _

theorem onSession {β : Type} (hat : AllAt q [c] s) (call : ConsumerSession → HybridRangeBlockQueue →
      Except ConsumerError (ConsumerSession × HybridRangeBlockQueue × β)) :
    R s (s.onSession c call) := by
  unfold InMemoryShardExecutor.onSession
  split
  · exact hR.refl s
  · next state hc =>
    split
    · exact hR.refl s
    · split
      · exact hR.refl s
      · exact hR.putBack hc (hat c mem_cons_self state hc) _ _ _

/-! ## Actions -/

/-- **An action at `q`**, or at a consumer of `q`. -/
theorem act (hat : AllAt q ids s) {a : Action σ} (ha : a.At q ids) : R s (s.act a) := by
  cases a with
  | declare q' => exact absurd ha id
  | publish batch => exact absurd ha id
  | start cmd => exact absurd ha id
  | persist d => exact hR.durable s _
  | deliver c =>
    rw [InMemoryShardExecutor.act]
    split
    · exact hR.refl s
    · next state hc =>
      have hin := hat c ha state hc
      rw [hin]
      exact hR.deliverRound hc hin
  | ack c req =>
    rw [InMemoryShardExecutor.act]
    exact hR.onSession (hat.of_mem ha) _
  | nack c req =>
    rw [InMemoryShardExecutor.act]
    exact hR.onSession (hat.of_mem ha) _
  | cancel c disp =>
    rw [InMemoryShardExecutor.act]
    split
    · exact hR.refl s
    · next state hc =>
      split
      · exact hR.refl s
      · exact hR.trans (hR.removeConsumer hc (hat c ha state hc) _ disp) (hR.emit _ _ (by simp))
  | retry q' =>
    obtain rfl : q' = q := ha
    exact hR.retryQueue
  | rotate q' i =>
    obtain rfl : q' = q := ha
    rw [InMemoryShardExecutor.act]
    split
    · exact hR.refl s
    · exact hR.queue s _
  | settlement batch => exact hR.emit s _ (by simp)
  | confirm batch => exact hR.emit s _ (by simp)
  | error errors => exact hR.emit s _ (by simp)

theorem reaches (hat : AllAt q ids s) (h : Reaches (Action.At q ids) s s') : R s s' := by
  obtain ⟨actions, hall, rfl⟩ := h
  induction actions generalizing s with
  | nil => exact hR.refl s
  | cons a actions ih =>
    have hact := hR.act hat (hall a mem_cons_self)
    exact hR.trans hact (ih (hR.allAt hat hact) fun b hb => hall b (mem_cons_of_mem a hb))

theorem driveQueue (h : Coherent s) : R s (s.driveQueue q) := by
  cases hq : s.queues q with
  | none =>
    rw [InMemoryShardExecutor.driveQueue, hq]
    exact hR.refl s
  | some queue =>
    obtain ⟨st, hok⟩ := h.queue q queue hq
    have hat : AllAt q queue.consumers s := by
      intro c hc state hstate
      have hin := (hok.attached c).mp hc
      rw [hstate] at hin
      exact Option.some.inj hin
    refine hR.reaches hat (reaches_drive (fun _ => rfl) fun queue' hq' c hc => ?_)
    rwa [← Option.some.inj (hq.symm.trans hq')] at hc

theorem reportErrors (errs : List CommandError) : R s (s.reportErrors errs) := by
  unfold InMemoryShardExecutor.reportErrors
  split
  · exact hR.refl s
  · exact hR.emit s _ (by simp)

/-! ## Batches

The pass over the queue that ends a batch needs the registries to agree
where it starts; the actions up to there keep them so. -/

theorem emit_drive (h : Coherent s) {e : Event} (he : ∀ batch, e ≠ .delivery batch) :
    R s ((s.emit e).driveQueue q) :=
  hR.trans (hR.emit s e he) (hR.driveQueue (@Coherent.congr σ s (s.emit e) h rfl rfl))

/-- What comes after the items of a settlement batch. -/
theorem afterItems {first : InMemoryShardExecutor σ → Nat → InMemoryShardExecutor σ}
    (hfirst : ∀ s, Coherent s → Coherent (first s q) ∧ R s (first s q)) (h : Coherent s)
    (hat : AllAt q [c] s) (kind : SettlementKind) (n : Nat) :
    R s (InMemoryShardExecutor.afterItems kind first c n s) := by
  unfold InMemoryShardExecutor.afterItems
  split
  · have hemit := hR.emit s (.settlement ⟨c, kind, n⟩) (by simp)
    dsimp only
    split
    · exact hemit
    · next state hc =>
      rw [hat c mem_cons_self state hc]
      obtain ⟨hcoh, hdone⟩ := hfirst (s.emit (.settlement ⟨c, kind, n⟩)) (h.congr rfl rfl)
      exact hR.trans hemit (hR.trans hdone (hR.driveQueue hcoh))
  · exact hR.refl s

theorem execAckBatch (store : ShardStorage σ) (h : Coherent s) (hat : AllAt q [c] s)
    (items : List AckCommand) : R s (s.execAckBatch store c items) := by
  have hreach := @reaches_ackItems _ (Action.At q [c]) s c (fun _ => trivial)
    (fun _ => mem_cons_self) store items
  have hitems := hR.reaches hat hreach
  rw [execAckBatch_eq store s rfl]
  exact hR.trans hitems (hR.trans (hR.afterItems (fun s h => ⟨h, hR.refl s⟩)
    (coherent_of_reaches h hreach) (hR.allAt hat hitems) _ _) (hR.reportErrors _))

theorem execNackBatch (h : Coherent s) (hat : AllAt q [c] s) (items : List NackCommand) :
    R s (s.execNackBatch c items) := by
  have hreach := @reaches_nackItems _ (Action.At q [c]) s c (fun _ _ _ => mem_cons_self) items
  have hitems := hR.reaches hat hreach
  have hretry : ∀ s : InMemoryShardExecutor σ, Coherent s → Coherent (s.retryQueue q) :=
    fun s h => coherent_of_reaches h (reaches_act (P := fun _ => True) _ (a := .retry q) trivial)
  rw [execNackBatch_eq s rfl]
  exact hR.trans hitems (hR.trans (hR.afterItems (fun s h => ⟨hretry s h, hR.retryQueue⟩)
    (coherent_of_reaches h hreach) (hR.allAt hat hitems) _ _) (hR.reportErrors _))

theorem execRejectBatch (h : Coherent s) (hat : AllAt q [c] s) (items : List RejectCommand) :
    R s (s.execRejectBatch c items) := by
  have hreach := @reaches_rejectItems _ (Action.At q [c]) s c (fun _ _ _ => mem_cons_self)
    items
  have hitems := hR.reaches hat hreach
  rw [execRejectBatch_eq s rfl]
  exact hR.trans hitems (hR.afterItems (fun s h => ⟨h, hR.refl s⟩)
    (coherent_of_reaches h hreach) (hR.allAt hat hitems) _ _)

theorem execCancel (h : Coherent s) {cmd : CancelConsumer} (hat : AllAt q [cmd.consumerId] s) :
    R s (s.execCancel cmd) := by
  unfold InMemoryShardExecutor.execCancel
  split
  · exact hR.emit s _ (by simp)
  · next state hc =>
    have hin := hat _ mem_cons_self state hc
    split
    · exact hR.emit s _ (by simp)
    · split
      · exact hR.refl s
      · next queue hq =>
        have hremove := hR.removeConsumer hc hin queue (toDisposition cmd.disposition)
        have hcoh := coherent_of_reaches h (reaches_act (P := fun _ => True) s
          (a := .cancel cmd.consumerId (toDisposition cmd.disposition)) trivial)
        simp only [InMemoryShardExecutor.act, hc, hq] at hcoh
        rw [hin] at *
        refine hR.trans hremove (hR.trans (hR.emit _ (.consumer cmd.consumerId .cancelled)
          (by simp)) ?_)
        dsimp only
        split
        · exact hR.driveQueue hcoh
        · exact hR.refl _

end Local

end Aurum.Broker
