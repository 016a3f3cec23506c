import Aurum.Queue.Order

/-!
# Queue — the cumulative totals

Each operation adds to one total, and by the lengths it is asked for, not
by the bits it changes. What the operations add is said here for any
queue and any argument; that the totals agree with the messages is a fact
about runs and follows where the messages of each call are known.
-/

namespace Aurum.Queue.HybridRangeBlockQueue

open Aurum.Bits List DeliveryRange

variable {q : HybridRangeBlockQueue}

/-! ## What the parts of an operation leave alone -/

theorem stats_forBlocks {step : Nat → Nat → Nat → HybridRangeBlockQueue → HybridRangeBlockQueue}
    (hstep : ∀ b bit take q, (step b bit take q).stats = q.stats) (stop fuel seq : Nat)
    (q : HybridRangeBlockQueue) : (forBlocks step stop fuel seq q).stats = q.stats :=
  @forBlocks_rel step (fun q q' => q'.stats = q.stats) (fun _ => rfl) (fun h h' => h'.trans h) hstep
    stop fuel seq q

variable (q)

theorem stats_ensureRetryListed (b : Nat) : (q.ensureRetryListed b).stats = q.stats := by
  unfold ensureRetryListed
  split <;> rfl

theorem stats_ensureSparseListed (b : Nat) : (q.ensureSparseListed b).stats = q.stats := by
  unfold ensureSparseListed
  split <;> rfl

theorem stats_putBack (b : Nat) (blk : MsgBlock) : (q.putBack b blk).stats = q.stats := by
  unfold putBack
  split <;> rfl

variable {q}

theorem stats_retryLoop : ∀ (fuel : Nat) (q : HybridRangeBlockQueue) (moved : Nat),
    (retryLoop fuel q moved).1.stats = q.stats := by
  intro fuel
  induction fuel with
  | zero => exact fun _ _ => rfl
  | succ fuel ih =>
    intro q moved
    rw [retryLoop]
    split
    · rfl
    · dsimp only
      split
      · rfl
      · exact (ih _ _).trans (stats_ensureSparseListed _ _)

theorem stats_sparseLoop : ∀ (fuel : Nat) (q : HybridRangeBlockQueue) (remaining delivered : Nat)
    (masks : List DeliveryMask),
    (sparseLoop fuel q remaining delivered masks).1.stats = q.stats := by
  intro fuel
  induction fuel with
  | zero => exact fun _ _ _ _ => rfl
  | succ fuel ih =>
    intro q remaining delivered masks
    rw [sparseLoop]
    split
    · rfl
    · split
      · rfl
      · dsimp only
        split
        · rfl
        · exact (ih _ _ _ _).trans (stats_putBack _ _ _)

/-! ## What an operation adds -/

section

variable (q : HybridRangeBlockQueue)

theorem stats_publishContiguous (count : Nat) : (q.publishContiguous count).1.stats =
      { q.stats with totalPublished := q.stats.totalPublished + count } := by
  unfold publishContiguous
  split
  · next h => rw [h, Nat.add_zero]
  · rfl

theorem stats_rangeTaken (max : Nat) : (q.rangeTaken max).stats = q.stats := by
  unfold rangeTaken markInflightRange
  split
  · dsimp only
    rw [stats_forBlocks]
    exact fun _ _ _ _ => rfl
  · rfl

theorem stats_deliver (max : Nat) : (q.deliver max).1.stats =
    { q.stats with totalDelivered := q.stats.totalDelivered + (q.deliver max).2.2 } := by
  rw [deliver_eq]
  dsimp only
  rw [deliverSparseMasks, stats_sparseLoop, stats_rangeTaken]

theorem stats_ackRange (start len : Nat) : (q.ackRange start len).stats =
      { q.stats with totalAcked := q.stats.totalAcked + len } := by
  unfold ackRange
  split
  · next h => rw [h, Nat.add_zero]
  · dsimp only
    rw [stats_forBlocks]
    exact fun _ _ _ _ => rfl

theorem stats_nackRangeToRetry (start len : Nat) : (q.nackRangeToRetry start len).stats =
      { q.stats with totalNacked := q.stats.totalNacked + len } := by
  unfold nackRangeToRetry
  split
  · next h => rw [h, Nat.add_zero]
  · dsimp only
    rw [stats_forBlocks]
    exact fun b _ _ _ => stats_ensureRetryListed _ b

theorem stats_nackMaskToRetry (m : NackMask) : (q.nackMaskToRetry m).stats =
      { q.stats with totalNacked := q.stats.totalNacked + countOnes m.mask } := by
  unfold nackMaskToRetry
  dsimp only
  rw [stats_ensureRetryListed]
  rfl

end

/-- A fold of calls that each add to a total adds the sum. -/
theorem stats_foldl {α : Type} {f : HybridRangeBlockQueue → α → HybridRangeBlockQueue}
    {add : QueueStats → Nat → QueueStats} (hzero : ∀ t, add t 0 = t)
    (hadd : ∀ t n k, add (add t n) k = add t (n + k)) (size : α → Nat)
    (hf : ∀ q a, (f q a).stats = add q.stats (size a)) :
    ∀ (l : List α) (q : HybridRangeBlockQueue),
      (l.foldl f q).stats = add q.stats (l.map size).sum := by
  intro l
  induction l with
  | nil => exact fun q => (hzero q.stats).symm
  | cons a l ih =>
    intro q
    rw [foldl_cons, ih, hf, hadd, map_cons, sum_cons]

/-- More acknowledged messages. -/
def addAcked (t : QueueStats) (n : Nat) : QueueStats :=
  { t with totalAcked := t.totalAcked + n }

/-- More negatively acknowledged messages. -/
def addNackedTo (t : QueueStats) (n : Nat) : QueueStats :=
  { t with totalNacked := t.totalNacked + n }

variable (q)

theorem stats_applyAckBatch (batch : AckBatch) :
    (q.applyAckBatch batch).stats = addAcked q.stats batch.ackedMessages := by
  have hadd : ∀ t n k, addAcked (addAcked t n) k = addAcked t (n + k) := fun t n k => by
    simp only [addAcked, Nat.add_assoc]
  rw [applyAckBatch, AckBatch.ackedMessages, ← hadd]
  rw [stats_foldl (fun _ => rfl) hadd (fun m : AckMask => countOnes m.mask)
      fun _ _ => rfl,
    stats_foldl (fun _ => rfl) hadd len
      fun q r => stats_ackRange q r.startSeq r.len]

theorem stats_applyNackBatch (batch : NackBatch) :
    (q.applyNackBatch batch).stats = addNackedTo q.stats
      ((batch.ranges.map len).sum +
        (batch.masks.map fun m => countOnes m.mask).sum) := by
  have hadd : ∀ t n k, addNackedTo (addNackedTo t n) k = addNackedTo t (n + k) := fun t n k => by
    simp only [addNackedTo, Nat.add_assoc]
  rw [applyNackBatch, ← hadd]
  rw [stats_foldl (fun _ => rfl) hadd (fun m : NackMask => countOnes m.mask)
      fun q m => stats_nackMaskToRetry q m,
    stats_foldl (fun _ => rfl) hadd len
      fun q r => stats_nackRangeToRetry q r.startSeq r.len]

/-- The totals after `n` messages were settled into state `dst`. -/
def settledStats : MessageState → QueueStats → Nat → QueueStats
  | .acked => addAcked
  | .retry => addNackedTo
  | _ => fun t _ => t

theorem stats_retryAllNow : q.retryAllNow.1.stats =
    { q.stats with totalRetried := q.stats.totalRetried + q.retryAllNow.2 } := by
  simp only [retryAllNow, stats_retryLoop]

variable {q}

end Aurum.Queue.HybridRangeBlockQueue
