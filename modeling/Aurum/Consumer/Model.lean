import Aurum.Consumer.SessionSpec
import Aurum.Queue.Counts
import Mathlib.Data.Finset.Basic

/-!
# Consumer — the reference session

`aurum-core::consumer::model`: the unacked deliveries in one list, oldest
first. `ModelOwns` is the reference counterpart of session ownership:
the deliveries are in tag order and name exactly the inflight messages.

`redelivered_seqs` only feeds the `redelivered` flag of later
deliveries; `in_flight` and the counters are `u32`.
-/

namespace Aurum.Consumer

open Aurum.Queue

structure ModelDelivery where
  tag : Nat
  seq : Nat
  redelivered : Bool
deriving DecidableEq

structure ModelConsumerSession where
  nextTag : Nat
  prefetch : PrefetchMode
  inFlight : Nat
  unacked : List ModelDelivery
  redeliveredSeqs : Finset Nat

namespace ModelConsumerSession

variable (s : ModelConsumerSession)

def new (prefetch : PrefetchMode) : ModelConsumerSession := ⟨1, prefetch, 0, [], ∅⟩

/-- One iteration of the tagging loop. -/
def tagOne (acc : ModelConsumerSession × List ModelDelivery) (seq : Nat) :
    ModelConsumerSession × List ModelDelivery :=
  let d := ⟨acc.1.nextTag, seq, decide (seq ∈ acc.1.redeliveredSeqs)⟩
  ({ acc.1 with
      nextTag := acc.1.nextTag + 1
      inFlight := (acc.1.inFlight + 1) % 2 ^ 32
      unacked := acc.1.unacked ++ [d] }, acc.2 ++ [d])

def deliverFromQueue (queue : ModelQueue) (max : Nat) :
    ModelConsumerSession × ModelQueue × List ModelDelivery :=
  let available := match s.prefetch with
    | .unlimited => max
    | .limited n => min max (n.toNat - s.inFlight)
  if available = 0 then (s, queue, [])
  else
    let (queue, seqs) := queue.deliver available
    let acc := seqs.foldl tagOne (s, [])
    (acc.1, queue, acc.2)

/-- A message that is done: `ack_id` and `redelivered_seqs.remove`. -/
def dropSeq (acc : ModelConsumerSession × ModelQueue) (d : ModelDelivery) :
    ModelConsumerSession × ModelQueue :=
  ({ acc.1 with redeliveredSeqs := acc.1.redeliveredSeqs.erase d.seq }, acc.2.ackId d.seq)

/-- A message that comes back: `nack_id_to_retry` and
`redelivered_seqs.insert`. -/
def requeueSeq (acc : ModelConsumerSession × ModelQueue) (d : ModelDelivery) :
    ModelConsumerSession × ModelQueue :=
  ({ acc.1 with redeliveredSeqs := insert d.seq acc.1.redeliveredSeqs },
    acc.2.nackIdToRetry d.seq)

/-- What a nack does with one message. -/
def nackSeq : NackReason → ModelConsumerSession × ModelQueue → ModelDelivery →
    ModelConsumerSession × ModelQueue
  | .requeue => requeueSeq
  | .reject | .deadLetter => dropSeq

/-- The first half of `ack_one_inner` and `nack_one_inner`: find the
delivery, remove it, give its credit back and settle it with `f`. -/
def settleOne (tag : Nat) (queue : ModelQueue)
    (f : ModelConsumerSession × ModelQueue → ModelDelivery → ModelConsumerSession × ModelQueue) :
    Option (ModelConsumerSession × ModelQueue) :=
  match s.unacked.findIdx? fun d => d.tag == tag with
  | none => none
  | some pos =>
    match s.unacked[pos]? with
    | none => none
    | some d =>
      some (f ({ s with
        unacked := s.unacked.eraseIdx pos
        inFlight := s.inFlight - 1 }, queue) d)

/-- The loop of `ack_multiple_inner` and `nack_multiple_inner`: pop and
settle from the front until a later tag. -/
def popUpTo (tag : Nat)
    (f : ModelConsumerSession × ModelQueue → ModelDelivery → ModelConsumerSession × ModelQueue) :
    List ModelDelivery → ModelConsumerSession × ModelQueue → Nat →
    ModelConsumerSession × ModelQueue × Nat
  | [], acc, count => ({ acc.1 with unacked := [] }, acc.2, count)
  | d :: rest, acc, count =>
    if tag < d.tag then ({ acc.1 with unacked := d :: rest }, acc.2, count)
    else
      popUpTo tag f rest (f ({ acc.1 with inFlight := acc.1.inFlight - 1 }, acc.2) d)
        ((count + 1) % 2 ^ 32)

/-- The guard of the `multiple` forms and their loop. -/
def settleMultiple (tag : Nat) (queue : ModelQueue)
    (f : ModelConsumerSession × ModelQueue → ModelDelivery → ModelConsumerSession × ModelQueue) :
    Option (ModelConsumerSession × ModelQueue × Nat) :=
  if s.unacked.any fun d => d.tag == tag then some (popUpTo tag f s.unacked (s, queue) 0)
  else none

/-- `ack`, with `ack_one_inner` and `ack_multiple_inner`. -/
def ack (s : ModelConsumerSession) (req : AckRequest) (queue : ModelQueue) :
    Option (ModelConsumerSession × ModelQueue × AckApplyResult) :=
  match req.mode with
  | .one => (s.settleOne req.tag queue dropSeq).map fun res => (res.1, res.2, ⟨1, 1, []⟩)
  | .multiple => (s.settleMultiple req.tag queue dropSeq).map fun res =>
    (res.1, res.2.1, ⟨res.2.2, res.2.2, []⟩)

def splitCount (reason : NackReason) (count : Nat) : NackApplyResult :=
  match reason with
  | .requeue => ⟨count, count, 0, 0, count⟩
  | .reject => ⟨count, 0, count, 0, count⟩
  | .deadLetter => ⟨count, 0, 0, count, count⟩

/-- `nack`, with `nack_one_inner` and `nack_multiple_inner`. -/
def nack (s : ModelConsumerSession) (req : NackRequest) (queue : ModelQueue) :
    Option (ModelConsumerSession × ModelQueue × NackApplyResult) :=
  match req.mode with
  | .one => (s.settleOne req.tag queue (nackSeq req.reason)).map fun res =>
    (res.1, res.2, splitCount req.reason 1)
  | .multiple => (s.settleMultiple req.tag queue (nackSeq req.reason)).map fun res =>
    (res.1, res.2.1, splitCount req.reason res.2.2)

def reject (req : RejectRequest) (queue : ModelQueue) :
    Option (ModelConsumerSession × ModelQueue × NackApplyResult) :=
  (s.settleOne req.tag queue (nackSeq req.reason)).map fun res =>
    (res.1, res.2, splitCount req.reason 1)

def cancel (disp : CancelDisposition) (queue : ModelQueue) :
    ModelConsumerSession × ModelQueue × CancelResult :=
  let total := s.unacked.length % 2 ^ 32
  let s' := { s with unacked := [], inFlight := s.inFlight - total }
  match disp with
  | .requeueUnacked =>
    let acc := s.unacked.foldl requeueSeq (s', queue)
    (acc.1, acc.2, ⟨total, 0⟩)
  | .dropUnacked =>
    let acc := s.unacked.foldl dropSeq (s', queue)
    (acc.1, acc.2, ⟨0, total⟩)

def unackedCount : Nat := s.unacked.length % 2 ^ 32

def inFlightCount : Nat := s.inFlight

/-- The outstanding `(tag, seq)` pairs. -/
def entries : List (Nat × Nat) :=
  s.unacked.map fun d => (d.tag, d.seq)

end ModelConsumerSession

end Aurum.Consumer
