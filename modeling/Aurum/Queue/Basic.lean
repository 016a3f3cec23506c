import Aurum.Types
import Aurum.Intrusive.Spec

/-!
# Queue — message blocks, settlement batches, counters

`aurum-core::queue`: a block covers 256 messages with one bitset per
state, two summary bytes that say which words of `retry` and
`sparse_ready` are nonzero, and one intrusive link for each of the two
block lists. The `dirty_link` of the source belongs to a list no queue
operation uses and is left out.

`AckRange`/`NackRange`/`DeliveryRange` and the three mask types have the
same fields in the source; one type serves all three here.
-/

namespace Aurum.Queue

open Aurum.Bits Aurum.Intrusive

def RETRY_TAG : BitVec 32 := 0

def SPARSE_TAG : BitVec 32 := 1

structure MsgBlock where
  baseSeq : Nat
  inflight : Vector Word 4
  acked : Vector Word 4
  retry : Vector Word 4
  sparseReady : Vector Word 4
  redelivered : Vector Word 4
  retryWordMask : BitVec 8
  sparseWordMask : BitVec 8
  retryLink : Link
  sparseLink : Link
deriving DecidableEq

namespace MsgBlock

def new (baseSeq : Nat) : MsgBlock where
  baseSeq := baseSeq
  inflight := Vector.replicate 4 0#64
  acked := Vector.replicate 4 0#64
  retry := Vector.replicate 4 0#64
  sparseReady := Vector.replicate 4 0#64
  redelivered := Vector.replicate 4 0#64
  retryWordMask := 0#8
  sparseWordMask := 0#8
  retryLink := Link.new
  sparseLink := Link.new

def isRetryListed (b : MsgBlock) : Bool := b.retryLink.isLinked

def isSparseListed (b : MsgBlock) : Bool := b.sparseLink.isLinked

end MsgBlock

/-- `Linked<RETRY_LINK> for MsgBlock`. -/
def retrySlot : LinkSlot MsgBlock where
  link := MsgBlock.retryLink
  setLink := fun l b => { b with retryLink := l }
  link_setLink := fun _ _ => rfl
  setLink_setLink := fun _ _ _ => rfl

/-- `Linked<SPARSE_LINK> for MsgBlock`. -/
def sparseSlot : LinkSlot MsgBlock where
  link := MsgBlock.sparseLink
  setLink := fun l b => { b with sparseLink := l }
  link_setLink := fun _ _ => rfl
  setLink_setLink := fun _ _ _ => rfl

abbrev AckRange := DeliveryRange
abbrev AckMask := DeliveryMask
abbrev NackRange := DeliveryRange
abbrev NackMask := DeliveryMask

structure AckBatch where
  ranges : List AckRange
  masks : List AckMask
deriving DecidableEq, Repr

def AckBatch.ackedMessages (b : AckBatch) : Nat :=
  (b.ranges.map DeliveryRange.len).sum + (b.masks.map fun m => countOnes m.mask).sum

inductive NackReason where
  | requeue
  | reject
  | deadLetter
deriving DecidableEq, Repr

structure NackBatch where
  ranges : List NackRange
  masks : List NackMask
  reason : NackReason
deriving DecidableEq, Repr

/-- `QueueStats`: cumulative totals. -/
structure QueueStats where
  totalPublished : Nat
  totalDelivered : Nat
  totalAcked : Nat
  totalNacked : Nat
  totalRetried : Nat
deriving DecidableEq, Repr

inductive MessageState where
  | ready
  | inflight
  | acked
  | retry
  | sparseReady
deriving DecidableEq, Repr

structure QueueCounts where
  published : Nat
  ready : Nat
  inflight : Nat
  acked : Nat
  retry : Nat
deriving DecidableEq, Repr

inductive InvariantKind where
  | bitConflict
  | listMismatch
  | seqOutOfOrder
  | wordMaskMismatch
  | listCycle
deriving DecidableEq, Repr

structure InvariantViolation where
  blockIdx : Nat
  wordIdx : Nat
  kind : InvariantKind
deriving DecidableEq, Repr

end Aurum.Queue
