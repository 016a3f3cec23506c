import Aurum.Queue.Diagnostics
import Aurum.Lib.Runs

/-!
# Queue — runs of one queue

The calls of a queue and the runs of them in which only inflight messages
are settled. Every state such a run reaches denotes a map of message
states.
-/

namespace Aurum.Queue

open Aurum.Bits Aurum.Intrusive Aurum.Kernels

/-- The calls on a queue. `ack_work`, `apply_ack_batch` and their nack
counterparts are sequences of these. -/
inductive QueueOp where
  | publish (count : Nat)
  | deliver (max : Nat)
  | ackRange (r : AckRange)
  | ackMask (m : AckMask)
  | ackId (seq : Nat)
  | nackRange (r : NackRange)
  | nackMask (m : NackMask)
  | retryAllNow

namespace HybridRangeBlockQueue

def step (q : HybridRangeBlockQueue) : QueueOp → HybridRangeBlockQueue
  | .publish count => (q.publishContiguous count).1
  | .deliver max => (q.deliver max).1
  | .ackRange r => q.ackRange r.startSeq r.len
  | .ackMask m => q.ackMask m
  | .ackId seq => q.ackId seq
  | .nackRange r => q.nackRangeToRetry r.startSeq r.len
  | .nackMask m => q.nackMaskToRetry m
  | .retryAllNow => q.retryAllNow.1

def run (ops : List QueueOp) : HybridRangeBlockQueue := ops.foldl step empty

/-- All these messages are inflight. -/
def AllInflight (q : HybridRangeBlockQueue) (S : List Nat) : Prop :=
  ∀ s ∈ S, q.debugStateOf s = some .inflight

instance (q : HybridRangeBlockQueue) (S : List Nat) : Decidable (q.AllInflight S) :=
  inferInstanceAs (Decidable (∀ s ∈ S, _))

/-- A mask that names messages of one of the four words of a block, at
least one. -/
def MaskOk (m : DeliveryMask) : Prop := m.word < 4 ∧ m.mask ≠ 0#64

instance (m : DeliveryMask) : Decidable (MaskOk m) := inferInstanceAs (Decidable (_ ∧ _))

/-- What is settled is inflight. -/
def Valid (q : HybridRangeBlockQueue) : QueueOp → Prop
  | .publish _ | .deliver _ | .retryAllNow => True
  | .ackRange r | .nackRange r => q.AllInflight r.seqs
  | .ackMask m | .nackMask m => MaskOk m ∧ q.AllInflight m.seqs
  | .ackId seq => q.AllInflight [seq]

instance (q : HybridRangeBlockQueue) (op : QueueOp) : Decidable (q.Valid op) := by
  cases op <;> unfold Valid <;> infer_instance

variable {q : HybridRangeBlockQueue} {st : Nat → Option MessageState}

theorem Denotes.allInflight (h : Denotes q st) {S : List Nat} (hS : q.AllInflight S) :
    ∀ s ∈ S, st s = some .inflight := fun s hs => by
  rw [← h.debugStateOf]
  exact hS s hs

/-- The mask of one message. -/
def maskOf (seq : Nat) : DeliveryMask := ⟨seq / 256, seq % 256 / 64, 1#64 <<< (seq % 256 % 64)⟩

theorem maskOk_maskOf (seq : Nat) : MaskOk (maskOf seq) := by
  refine ⟨by simp [maskOf]; omega, fun hz => ?_⟩
  have hbit := congrArg (BitVec.getLsbD · (seq % 256 % 64)) hz
  simp only [maskOf, getLsbD_one_shiftLeft] at hbit
  have hlt : seq % 256 % 64 < 64 := Nat.mod_lt _ (by decide)
  simp at hbit
  omega

theorem seqs_maskOf (seq : Nat) : (maskOf seq).seqs = [seq] := by
  have hlt : seq % 256 % 64 < 64 := Nat.mod_lt _ (by decide)
  simp only [maskOf, DeliveryMask.seqs, positions_one_shiftLeft hlt, List.map_singleton, seqOfBit,
    MSGS_PER_BLOCK]
  congr 1
  omega

/-- **`ack_id`** is `ack_mask` of one message. -/
theorem ackId_eq (q : HybridRangeBlockQueue) {seq : Nat} (hlt : seq < q.nextSeq) :
    q.ackId seq = q.ackMask (maskOf seq) := by
  have hlow : seq % 256 % 64 < 64 := Nat.mod_lt _ (by decide)
  have hone : countOnes (1#64 <<< (seq % 256 % 64)) = 1 := by
    rw [countOnes, positions_one_shiftLeft hlow]
    rfl
  rw [ackId, if_neg (by omega)]
  simp only [ackMask, maskOf, hone, locate, MSGS_PER_BLOCK]

/-- **One call.** -/
theorem denotes_step (h : Denotes q st) {op : QueueOp} (hop : q.Valid op) :
    ∃ st', Denotes (q.step op) st' := by
  have hack : ∀ ranges masks, (∀ s ∈ workSeqs ranges masks, st s = some .inflight) →
      (∀ m ∈ masks, MaskOk m) → ∃ st', Denotes (q.applyAckBatch ⟨ranges, masks⟩) st' :=
    fun ranges masks hS hm => ⟨_, h.applyAckBatch hS hm⟩
  have hnack : ∀ ranges masks, (∀ s ∈ workSeqs ranges masks, st s = some .inflight) →
      (∀ m ∈ masks, MaskOk m) → ∃ st', Denotes (q.applyNackBatch ⟨ranges, masks, .requeue⟩) st' :=
    fun ranges masks hS hm => ⟨_, h.applyNackBatch hS hm⟩
  cases op with
  | publish count => exact ⟨_, (h.publishContiguous count).1⟩
  | deliver max => exact ⟨_, (h.deliver max).1⟩
  | ackRange r =>
    exact hack [r] [] (by simpa [workSeqs] using h.allInflight hop) (by simp)
  | ackMask m =>
    exact hack [] [m] (by simpa [workSeqs] using h.allInflight hop.2) (by simpa using hop.1)
  | ackId seq =>
    have hin := h.allInflight hop
    have hlt := h.lt_next (hin seq (by simp))
    rw [step, ackId_eq q hlt]
    exact hack [] [maskOf seq] (by simpa [workSeqs, seqs_maskOf] using hin)
      (by simpa using maskOk_maskOf seq)
  | nackRange r =>
    exact hnack [r] [] (by simpa [workSeqs] using h.allInflight hop) (by simp)
  | nackMask m =>
    exact hnack [] [m] (by simpa [workSeqs] using h.allInflight hop.2) (by simpa using hop.1)
  | retryAllNow =>
    obtain ⟨S, hd, -⟩ := h.retryAllNow
    exact ⟨_, hd⟩

/-- **Every run.** -/
theorem denotes_run {ops : List QueueOp} (h : Denotes q st) (hops : Runs.Meets step Valid q ops) :
    ∃ st', Denotes (ops.foldl step q) st' :=
  hops.invariant (I := fun q => ∃ st, Denotes q st)
    (fun _ _ ⟨_, hq⟩ hop => denotes_step hq hop) ⟨st, h⟩

end HybridRangeBlockQueue

end Aurum.Queue
