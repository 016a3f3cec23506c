import Aurum.Consumer.Window
import Aurum.Queue.State

/-!
# Consumer — sessions

`ConsumerSession`: hands out tags for what it takes from a queue, keeps
the outstanding entries in its window, and settles them back into the
queue. A failed operation changes nothing, so each one returns the new
session and queue inside `Except`.

`CANCELLED` is the only session flag any code sets; it is a `Bool` here.
The message counts that the source keeps in `u32` wrap.
-/

namespace Aurum.Consumer

open Aurum.Bits Aurum.Kernels Aurum.Queue

inductive PrefetchMode where
  | limited (n : UInt32)
  | unlimited
deriving DecidableEq, Repr

structure ConsumerCredit where
  mode : PrefetchMode
  inFlight : Nat
deriving DecidableEq, Repr

namespace ConsumerCredit

def new (mode : PrefetchMode) : ConsumerCredit := ⟨mode, 0⟩

def available (c : ConsumerCredit) : Nat :=
  match c.mode with
  | .unlimited => u32Max
  | .limited n => n.toNat - c.inFlight

/-- `reserve`; additions saturate at `u32::MAX`. -/
def reserve (c : ConsumerCredit) (n : Nat) : Except ConsumerError ConsumerCredit :=
  match c.mode with
  | .unlimited => .ok { c with inFlight := min (c.inFlight + n) u32Max }
  | .limited limit =>
    if limit.toNat < min (c.inFlight + n) u32Max then .error .insufficientCredit
    else .ok { c with inFlight := c.inFlight + n }

def release (c : ConsumerCredit) (n : Nat) : ConsumerCredit :=
  { c with inFlight := c.inFlight - n }

end ConsumerCredit

/-- `AckMode` and `NackMode`. -/
inductive AckMode where
  | one
  | multiple
deriving DecidableEq, Repr

structure AckRequest where
  tag : Nat
  mode : AckMode
deriving DecidableEq, Repr

structure NackRequest where
  tag : Nat
  mode : AckMode
  reason : NackReason
deriving DecidableEq, Repr

structure RejectRequest where
  tag : Nat
  reason : NackReason
deriving DecidableEq, Repr

structure AckApplyResult where
  acked : Nat
  releasedCredit : Nat
  ranges : List AckRange
deriving DecidableEq, Repr

structure NackApplyResult where
  nacked : Nat
  requeued : Nat
  dropped : Nat
  deadLettered : Nat
  releasedCredit : Nat
deriving DecidableEq, Repr

inductive CancelDisposition where
  | requeueUnacked
  | dropUnacked
deriving DecidableEq, Repr

structure CancelResult where
  requeued : Nat
  dropped : Nat
deriving DecidableEq, Repr

/-- `TaggedDeliverySegment`, with the fields of `TaggedRange` and
`TaggedMask`. -/
inductive TaggedDeliverySegment where
  | range (firstTag : Nat) (range : DeliveryRange) (redelivered : Bool)
  | mask (firstTag : Nat) (mask : DeliveryMask) (count : Nat) (redelivered : Bool)
deriving DecidableEq, Repr

structure ConsumerSession where
  id : Nat
  channelId : Nat
  nextTag : Nat
  credit : ConsumerCredit
  window : SegmentDeliveryWindow
  cancelled : Bool
deriving DecidableEq, Repr

def batchNackedCount (batch : NackBatch) : Nat :=
  ((batch.ranges.map DeliveryRange.len).sum +
    (batch.masks.map fun m => countOnes m.mask).sum) % 2 ^ 32

def nackBatchAsAck (batch : NackBatch) : AckBatch := ⟨batch.ranges, batch.masks⟩

/-- `apply_nack_batch`: the queue, and the requeued, dropped and
dead-lettered counts. -/
def applyNackBatch (queue : HybridRangeBlockQueue) (batch : NackBatch) :
    HybridRangeBlockQueue × Nat × Nat × Nat :=
  let count := batchNackedCount batch
  match batch.reason with
  | .requeue => (queue.applyNackBatch batch, count, 0, 0)
  | .reject => (queue.applyAckBatch (nackBatchAsAck batch), 0, count, 0)
  | .deadLetter => (queue.applyAckBatch (nackBatchAsAck batch), 0, 0, count)

namespace ConsumerSession

variable (s : ConsumerSession)

/-- `ConsumerSession::new`; the first tag is 1. -/
def new (id channelId : Nat) (prefetch : PrefetchMode) : ConsumerSession where
  id := id
  channelId := channelId
  nextTag := 1
  credit := ConsumerCredit.new prefetch
  window := SegmentDeliveryWindow.new
  cancelled := false

/-- The tagging of one delivered range. -/
def tagRange (acc : ConsumerSession × List TaggedDeliverySegment) (range : DeliveryRange) :
    ConsumerSession × List TaggedDeliverySegment :=
  let firstTag := acc.1.nextTag
  ({ acc.1 with
      nextTag := acc.1.nextTag + range.len
      window := acc.1.window.pushRange firstTag range false },
    acc.2 ++ [.range firstTag range false])

/-- The tagging of one delivered mask. -/
def tagMask (queue : HybridRangeBlockQueue) (acc : ConsumerSession × List TaggedDeliverySegment)
    (mask : DeliveryMask) : ConsumerSession × List TaggedDeliverySegment :=
  let count := countOnes mask.mask
  let firstTag := acc.1.nextTag
  let redelivered := queue.redeliveredMask mask.block mask.word mask.mask != 0#64
  ({ acc.1 with
      nextTag := acc.1.nextTag + count
      window := acc.1.window.pushMask firstTag mask count redelivered },
    acc.2 ++ [.mask firstTag mask count redelivered])

def deliverFromQueue (queue : HybridRangeBlockQueue) (max : Nat) : Except ConsumerError
      (ConsumerSession × HybridRangeBlockQueue × List TaggedDeliverySegment × Nat) :=
  if s.cancelled then .error .consumerCancelled
  else
    let available := min s.credit.available max
    if available = 0 then .ok (s, queue, [], 0)
    else
      let (queue, work, n) := queue.deliver available
      if n = 0 then .ok (s, queue, [], 0)
      else
        let acc := work.masks.foldl (tagMask queue) (work.ranges.foldl tagRange (s, []))
        -- `let _ = self.credit.reserve(n)`
        let credit := match acc.1.credit.reserve n with
          | .ok credit => credit
          | .error _ => acc.1.credit
        .ok ({ acc.1 with credit := credit }, queue, acc.2, n)

/-- The checks that open `ack` and `nack`. -/
def checkTag (tag : Nat) : Except ConsumerError Unit :=
  if s.cancelled then .error .consumerCancelled
  else if tag < 1 ∨ s.nextTag ≤ tag then .error .invalidDeliveryTag
  else .ok ()

def ack (s : ConsumerSession) (req : AckRequest) (queue : HybridRangeBlockQueue) :
    Except ConsumerError (ConsumerSession × HybridRangeBlockQueue × AckApplyResult) := do
  s.checkTag req.tag
  let res := match req.mode with
    | .one => s.window.ackOne req.tag
    | .multiple => s.window.ackMultiple req.tag
  match res with
  | .error _ => .error .deliveryTagAlreadySettled
  | .ok (batch, window) =>
    let acked := batch.ackedMessages % 2 ^ 32
    .ok ({ s with window := window, credit := s.credit.release acked },
      queue.applyAckBatch batch, ⟨acked, acked, batch.ranges⟩)

def nack (s : ConsumerSession) (req : NackRequest) (queue : HybridRangeBlockQueue) :
    Except ConsumerError (ConsumerSession × HybridRangeBlockQueue × NackApplyResult) := do
  s.checkTag req.tag
  let res := match req.mode with
    | .one => s.window.nackOne req.tag req.reason
    | .multiple => s.window.nackMultiple req.tag req.reason
  match res with
  | .error _ => .error .deliveryTagAlreadySettled
  | .ok (batch, window) =>
    let nacked := batchNackedCount batch
    let (queue, requeued, dropped, deadLettered) := applyNackBatch queue batch
    .ok ({ s with window := window, credit := s.credit.release nacked }, queue,
      ⟨nacked, requeued, dropped, deadLettered, nacked⟩)

def reject (req : RejectRequest) (queue : HybridRangeBlockQueue) :
    Except ConsumerError (ConsumerSession × HybridRangeBlockQueue × NackApplyResult) :=
  s.nack ⟨req.tag, .one, req.reason⟩ queue

def cancel (disp : CancelDisposition) (queue : HybridRangeBlockQueue) :
    ConsumerSession × HybridRangeBlockQueue × CancelResult :=
  let (batch, window) := s.window.drainAll .requeue
  let total := batchNackedCount batch
  let s := { s with cancelled := true, window := window, credit := s.credit.release total }
  match disp with
  | .requeueUnacked => (s, queue.applyNackBatch batch, ⟨total, 0⟩)
  | .dropUnacked => (s, queue.applyAckBatch (nackBatchAsAck batch), ⟨0, total⟩)

def unackedCount : Nat := s.window.unacked

def inFlightCredit : Nat := s.credit.inFlight

/-- The outstanding `(tag, seq)` pairs of the session. -/
def entries : List (Nat × Nat) := entriesOf s.window.segments

end ConsumerSession

end Aurum.Consumer
