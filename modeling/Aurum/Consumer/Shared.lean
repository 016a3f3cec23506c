import Aurum.Consumer.Ownership
import Aurum.Queue.Totals

/-!
# Consumer — runs of a shared queue

One queue and any number of sessions, started empty, under any finite
sequence of operations. An operation is refused and changes nothing,
changes the queue alone, opens a session, or lets one session deliver or
settle; `step_effect` says so once, with the specification of the call,
and every invariant is read off it. The first is ownership; the partition
of the messages, the agreement of windows and inflight bits, and the
diagnostics follow.

`DeliveryMask.block` and the list indices are `u32` in the source, so
the model speaks about the code while the blocks fit, that is for far
more than `2^32` messages; below `2^32` the `u32` message counters are
right as well.
-/

namespace Aurum.Consumer

open Aurum.Bits Aurum.Kernels Aurum.Queue List

/-! ## The totals after a call -/

section

variable {s s' : ConsumerSession} {q q' : HybridRangeBlockQueue} {tag x n max : Nat}
  {mode : AckMode}

theorem deliverFromQueue_stats {out : List TaggedDeliverySegment}
    (h : s.deliverFromQueue q max = .ok (s', q', out, n)) :
    q'.stats = { q.stats with totalDelivered := q.stats.totalDelivered + n } := by
  unfold ConsumerSession.deliverFromQueue at h
  split at h
  · cases h
  dsimp only at h
  generalize min s.credit.available max = asked at h
  split at h
  · obtain ⟨-, rfl, -, rfl⟩ := h
    rfl
  have hstats := HybridRangeBlockQueue.stats_deliver q asked
  split at h
  · next h0 =>
      obtain ⟨-, rfl, -, rfl⟩ := h
      rw [hstats, h0]
  · obtain ⟨-, rfl, -, rfl⟩ := h
    exact hstats

theorem ack_stats {res : AckApplyResult} (hs : SessionOk s) (hx : (tag, x) ∈ s.entries)
    (h : s.ack ⟨tag, mode⟩ q = .ok (s', q', res)) :
    q'.stats = HybridRangeBlockQueue.settledStats .acked q.stats
      (taken (mode.takes tag) s.entries).length := by
  obtain ⟨batch, w, htake, htakes⟩ := takeBy_ok hs hx mode
  rw [ack_eq, checkTag_ok hs hx, htake] at h
  obtain ⟨-, rfl, -⟩ := h
  rw [HybridRangeBlockQueue.stats_applyAckBatch, htakes.count]
  rfl

/-- The totals after a nack batch, whatever its reason. -/
theorem applyNackBatch_stats (q : HybridRangeBlockQueue) (reason : NackReason) (batch : AckBatch) :
    (applyNackBatch q (SegmentDeliveryWindow.nackBatch reason batch)).1.stats =
      HybridRangeBlockQueue.settledStats (target reason) q.stats batch.ackedMessages := by
  cases reason with
  | requeue => exact HybridRangeBlockQueue.stats_applyNackBatch q _
  | reject => exact HybridRangeBlockQueue.stats_applyAckBatch q _
  | deadLetter => exact HybridRangeBlockQueue.stats_applyAckBatch q _

theorem nack_stats {reason : NackReason} {res : NackApplyResult} (hs : SessionOk s)
    (hx : (tag, x) ∈ s.entries) (h : s.nack ⟨tag, mode, reason⟩ q = .ok (s', q', res)) :
    q'.stats = HybridRangeBlockQueue.settledStats (target reason) q.stats
      (taken (mode.takes tag) s.entries).length := by
  obtain ⟨batch, w, htake, htakes⟩ := takeBy_ok hs hx mode
  rw [nack_eq, checkTag_ok hs hx, htake] at h
  obtain ⟨-, rfl, -⟩ := h
  rw [applyNackBatch_stats, htakes.count]
  rfl

theorem cancel_stats (hs : SessionOk s) (disp : CancelDisposition) (q : HybridRangeBlockQueue) :
    (s.cancel disp q).2.1.stats = HybridRangeBlockQueue.settledStats disp.target q.stats
      (taken (fun _ => true) s.entries).length := by
  obtain ⟨batch, hdrain, htakes⟩ := SegmentDeliveryWindow.drainAll_takes hs.ordered .requeue
  have hcount : _ = (taken (fun _ => true) s.entries).length := htakes.count
  unfold ConsumerSession.cancel
  rw [hdrain, ← hcount]
  cases disp with
  | requeueUnacked => exact HybridRangeBlockQueue.stats_applyNackBatch q _
  | dropUnacked => exact HybridRangeBlockQueue.stats_applyAckBatch q _

end

/-- A queue and the sessions on it. -/
structure SharedQueue where
  queue : HybridRangeBlockQueue
  sessions : List ConsumerSession

/-- The operations; sessions are named by their position. -/
inductive SharedOp where
  | publish (count : Nat)
  | openSession (id channelId : Nat) (prefetch : PrefetchMode)
  | deliver (i max : Nat)
  | ack (i : Nat) (req : AckRequest)
  | nack (i : Nat) (req : NackRequest)
  | reject (i : Nat) (req : RejectRequest)
  | cancel (i : Nat) (disp : CancelDisposition)
  | retryAllNow

/-- The tags of session `i` a request speaks about. -/
def SharedOp.covers : SharedOp → Nat → Nat → Bool
  | .ack j req, i, t => j == i && req.mode.takes req.tag t
  | .nack j req, i, t => j == i && req.mode.takes req.tag t
  | .reject j req, i, t => j == i && AckMode.one.takes req.tag t
  | .cancel j _, i, _ => j == i
  | _, _, _ => false

namespace SharedQueue

def empty : SharedQueue := ⟨HybridRangeBlockQueue.empty, []⟩

/-- A call on session `i` that changes the session and the queue, if it
succeeds. -/
def onSession (sys : SharedQueue) (i : Nat)
    (call : ConsumerSession → Option (ConsumerSession × HybridRangeBlockQueue)) : SharedQueue :=
  match sys.sessions[i]? with
  | none => sys
  | some s =>
    match call s with
    | none => sys
    | some (s', queue) => ⟨queue, sys.sessions.set i s'⟩

def step (sys : SharedQueue) : SharedOp → SharedQueue
  | .publish count => { sys with queue := (sys.queue.publishContiguous count).1 }
  | .openSession id channelId prefetch =>
    { sys with sessions := sys.sessions ++ [ConsumerSession.new id channelId prefetch] }
  | .deliver i max => sys.onSession i fun s =>
    (s.deliverFromQueue sys.queue max).toOption.map fun res => (res.1, res.2.1)
  | .ack i req => sys.onSession i fun s =>
    (s.ack req sys.queue).toOption.map fun res => (res.1, res.2.1)
  | .nack i req => sys.onSession i fun s =>
    (s.nack req sys.queue).toOption.map fun res => (res.1, res.2.1)
  | .reject i req => sys.onSession i fun s =>
    (s.reject req sys.queue).toOption.map fun res => (res.1, res.2.1)
  | .cancel i disp => sys.onSession i fun s =>
    some ((s.cancel disp sys.queue).1, (s.cancel disp sys.queue).2.1)
  | .retryAllNow => { sys with queue := sys.queue.retryAllNow.1 }

def run (ops : List SharedOp) : SharedQueue := ops.foldl step empty

/-- The segments an operation delivers. -/
def handed (sys : SharedQueue) : SharedOp → List TaggedDeliverySegment
  | .deliver i max =>
    match sys.sessions[i]? with
    | none => []
    | some s =>
      match s.deliverFromQueue sys.queue max with
      | .ok (_, _, out, _) => out
      | .error _ => []
  | _ => []

/-! ## The cases of a step -/

/-- The call an operation makes succeeds. -/
def succeeds (sys : SharedQueue) : SharedOp → Bool
  | .deliver i max => sys.sessions[i]?.any fun s => (s.deliverFromQueue sys.queue max).isOk
  | .ack i req => sys.sessions[i]?.any fun s => (s.ack req sys.queue).isOk
  | .nack i req => sys.sessions[i]?.any fun s => (s.nack req sys.queue).isOk
  | .reject i req => sys.sessions[i]?.any fun s => (s.reject req sys.queue).isOk
  | .cancel i _ => sys.sessions[i]?.isSome
  | _ => true

/-- Everything an operation can do to the shared queue. -/
inductive Effect (sys : SharedQueue) (st : Nat → Option MessageState) :
    SharedOp → SharedQueue → Prop where
  | refused {op : SharedOp} (hfail : sys.succeeds op = false) : Effect sys st op sys
  | published (count : Nat) :
      Effect sys st (.publish count) { sys with queue := (sys.queue.publishContiguous count).1 }
  | opened (id channelId : Nat) (prefetch : PrefetchMode) :
      Effect sys st (.openSession id channelId prefetch)
        { sys with sessions := sys.sessions ++ [ConsumerSession.new id channelId prefetch] }
  | delivered {i max n : Nat} {s s' : ConsumerSession} {q' : HybridRangeBlockQueue} {S : List Nat}
      {out : List TaggedDeliverySegment} (hs : sys.sessions[i]? = some s)
      (call : s.deliverFromQueue sys.queue max = .ok (s', q', out, n))
      (spec : SessionDelivers s sys.queue st (min s.credit.available max) S s' q' out n)
      (tally : q'.stats =
        { sys.queue.stats with totalDelivered := sys.queue.stats.totalDelivered + n }) :
      Effect sys st (.deliver i max) ⟨q', sys.sessions.set i s'⟩
  | settled {op : SharedOp} {i : Nat} {s s' : ConsumerSession} {q' : HybridRangeBlockQueue}
      {take : Nat → Bool} {dst : MessageState} (hs : sys.sessions[i]? = some s)
      (hok : sys.succeeds op = true) (hout : sys.handed op = [])
      (hcov : ∀ j t, op.covers j t = (i == j && take t))
      (spec : Settles take dst s sys.queue st s' q') (hdst : dst = .acked ∨ dst = .retry)
      (tally : q'.stats = HybridRangeBlockQueue.settledStats dst sys.queue.stats
        (taken take s.entries).length) : Effect sys st op ⟨q', sys.sessions.set i s'⟩
  | retried : Effect sys st .retryAllNow { sys with queue := sys.queue.retryAllNow.1 }

variable {sys : SharedQueue} {st : Nat → Option MessageState}

section

variable (h : Owns sys.queue st sys.sessions)
include h

theorem deliver_effect (i max : Nat) :
    Effect sys st (.deliver i max) (sys.step (.deliver i max)) := by
  rw [step, onSession]
  cases hs : sys.sessions[i]? with
  | none => exact .refused (by simp [succeeds, hs])
  | some s =>
    dsimp only
    cases hcan : s.cancelled with
    | true =>
      rw [deliverFromQueue_cancelled hcan]
      exact .refused (by simp [succeeds, hs, deliverFromQueue_cancelled hcan, Except.isOk,
        Except.toBool])
    | false =>
      have hmem : s ∈ sys.sessions := mem_of_getElem? hs
      obtain ⟨S, s', q', out, n, heq, hd⟩ :=
        deliverFromQueue_spec (h.ok s hmem) h.denotes hcan max
      rw [heq]
      exact .delivered hs heq hd (deliverFromQueue_stats heq)

theorem ack_effect (i : Nat) (req : AckRequest) :
    Effect sys st (.ack i req) (sys.step (.ack i req)) := by
  obtain ⟨tag, mode⟩ := req
  rw [step, onSession]
  cases hs : sys.sessions[i]? with
  | none => exact .refused (by simp [succeeds, hs])
  | some s =>
    dsimp only
    have hmem : s ∈ sys.sessions := mem_of_getElem? hs
    by_cases hx : ∃ x, (tag, x) ∈ s.entries
    · obtain ⟨x, hx⟩ := hx
      obtain ⟨s', q', ranges, heq, hset, -⟩ :=
        ack_ok (h.ok s hmem) h.denotes (h.entries_inflight hmem) hx mode
      rw [heq]
      refine .settled hs ?_ rfl (fun _ _ => rfl) hset (.inl rfl) (ack_stats (h.ok s hmem) hx heq)
      simp [succeeds, hs, heq, Except.isOk, Except.toBool]
    · have hno := ack_refused (q := sys.queue) (not_exists.mp hx) mode
      rw [hno]
      exact .refused (by simp [succeeds, hs, hno, Except.isOk, Except.toBool])

theorem nack_effect (i : Nat) (req : NackRequest) :
    Effect sys st (.nack i req) (sys.step (.nack i req)) := by
  obtain ⟨tag, mode, reason⟩ := req
  rw [step, onSession]
  cases hs : sys.sessions[i]? with
  | none => exact .refused (by simp [succeeds, hs])
  | some s =>
    dsimp only
    have hmem : s ∈ sys.sessions := mem_of_getElem? hs
    by_cases hx : ∃ x, (tag, x) ∈ s.entries
    · obtain ⟨x, hx⟩ := hx
      obtain ⟨s', q', heq, hset, -⟩ :=
        nack_ok (h.ok s hmem) h.denotes (h.entries_inflight hmem) hx mode reason
      rw [heq]
      refine .settled hs ?_ rfl (fun _ _ => rfl) hset ?_ (nack_stats (h.ok s hmem) hx heq)
      · simp [succeeds, hs, heq, Except.isOk, Except.toBool]
      · cases reason <;> simp [target]
    · have hno := nack_refused (q := sys.queue) (not_exists.mp hx) mode reason
      rw [hno]
      exact .refused (by simp [succeeds, hs, hno, Except.isOk, Except.toBool])

/-- `reject` is `nack` of one tag. -/
theorem reject_effect (i : Nat) (req : RejectRequest) :
    Effect sys st (.reject i req) (sys.step (.reject i req)) := by
  have heff := nack_effect h i ⟨req.tag, .one, req.reason⟩
  change Effect sys st (.reject i req) (sys.step (.nack i ⟨req.tag, .one, req.reason⟩))
  generalize hop : SharedOp.nack i ⟨req.tag, .one, req.reason⟩ = op at heff ⊢
  generalize sys.step op = sys' at heff ⊢
  cases heff with
  | refused hfail =>
    subst hop
    exact .refused hfail
  | settled hs hok hout hcov spec hdst tally =>
    subst hop
    exact .settled hs hok rfl hcov spec hdst tally
  | published | opened | delivered | retried => cases hop

theorem cancel_effect (i : Nat) (disp : CancelDisposition) :
    Effect sys st (.cancel i disp) (sys.step (.cancel i disp)) := by
  rw [step, onSession]
  cases hs : sys.sessions[i]? with
  | none => exact .refused (by simp [succeeds, hs])
  | some s =>
    have hmem : s ∈ sys.sessions := mem_of_getElem? hs
    have hspec := cancel_spec (h.ok s hmem) h.denotes (h.entries_inflight hmem) disp
    refine .settled hs (by simp [succeeds, hs]) rfl (fun j t => ?_) hspec.1 ?_
      (cancel_stats (h.ok s hmem) disp sys.queue)
    · simp [SharedOp.covers]
    · cases disp <;> simp [CancelDisposition.target]

/-- **What a step does**, for any operation. -/
theorem step_effect (op : SharedOp) : Effect sys st op (sys.step op) := by
  cases op with
  | publish count => exact .published count
  | openSession id channelId prefetch => exact .opened id channelId prefetch
  | deliver i max => exact deliver_effect h i max
  | ack i req => exact ack_effect h i req
  | nack i req => exact nack_effect h i req
  | reject i req => exact reject_effect h i req
  | cancel i disp => exact cancel_effect h i disp
  | retryAllNow => exact .retried

end

/-! ## Ownership -/

/-- The sessions own the inflight messages. -/
def Owned (sys : SharedQueue) : Prop := ∃ st, Owns sys.queue st sys.sessions

/-- The sessions around one of them, and what replacing it does. -/
theorem sessions_split {i : Nat} {s : ConsumerSession} (hs : sys.sessions[i]? = some s) :
    ∃ pre post, sys.sessions = pre ++ s :: post ∧
      ∀ s', sys.sessions.set i s' = pre ++ s' :: post := by
  obtain ⟨hi, hget⟩ := List.getElem?_eq_some_iff.mp hs
  refine ⟨sys.sessions.take i, sys.sessions.drop (i + 1), ?_, fun s' => ?_⟩
  · rw [← hget, getElem_cons_drop, take_append_drop]
  · rw [set_eq_take_append_cons_drop, if_pos hi]

/-- **Every operation keeps ownership.** -/
theorem Owned.step (h : sys.Owned) (op : SharedOp) : (sys.step op).Owned := by
  obtain ⟨st, h⟩ := h
  have heff := step_effect h op
  generalize sys.step op = sys' at heff ⊢
  cases heff with
  | refused => exact ⟨st, h⟩
  | published count => exact ⟨_, h.publish count⟩
  | opened id channelId prefetch =>
    have h' : Owns sys.queue st (sys.sessions ++ []) := by rwa [List.append_nil]
    exact ⟨st, h'.join (sessionOk_new id channelId prefetch) rfl⟩
  | delivered hs _ spec _ =>
    obtain ⟨pre, post, hsplit, hset⟩ := sessions_split hs
    rw [hsplit] at h
    rw [hset]
    exact ⟨_, h.deliver spec⟩
  | settled hs _ _ _ spec hdst _ =>
    obtain ⟨pre, post, hsplit, hset⟩ := sessions_split hs
    rw [hsplit] at h
    rw [hset]
    exact ⟨_, h.settle (by rcases hdst with rfl | rfl <;> simp) spec⟩
  | retried => exact h.retry

theorem owned_run (ops : List SharedOp) : (run ops).Owned := by
  have key : ∀ (ops : List SharedOp) (sys : SharedQueue), sys.Owned →
      (ops.foldl SharedQueue.step sys).Owned := by
    intro ops
    induction ops with
    | nil => exact fun _ h => h
    | cons op ops ih => exact fun sys h => ih (sys.step op) (h.step op)
  exact key ops empty ⟨_, owns_empty⟩

/-- **Ownership partition.** After any run every published message is in
exactly one state and nothing is marked past `next_seq`; the inflight
messages are the outstanding entries of the sessions, each held once;
and the queue's own diagnostics agree. -/
theorem run_partition (ops : List SharedOp) :
    (∀ x < (run ops).queue.nextSeq, ∃ p, (run ops).queue.inState p x = true ∧
      ∀ p', (run ops).queue.inState p' x = true → p' = p) ∧
    (∀ x, (run ops).queue.nextSeq ≤ x →
      (∀ p, (run ops).queue.inState p x = false ∧ (run ops).queue.bit p x = false) ∧
      (run ops).queue.flag x = false) ∧
    (((run ops).sessions.flatMap fun s => s.entries.map Prod.snd).Nodup ∧
      ∀ x, (run ops).queue.bit .inflight x = true ↔
        ∃ s ∈ (run ops).sessions, ∃ tag, (tag, x) ∈ s.entries) ∧
    (run ops).queue.validateInvariants = .ok () ∧
    (run ops).queue.debugCounts.ready + (run ops).queue.debugCounts.inflight +
      (run ops).queue.debugCounts.acked + (run ops).queue.debugCounts.retry =
      (run ops).queue.debugCounts.published := by
  obtain ⟨st, h⟩ := owned_run ops
  have hq := h.denotes
  refine ⟨fun x hx => ?_, fun x hx => ⟨fun p => ?_, ?_⟩, ⟨h.nodup, fun x => ?_⟩,
    hq.validateInvariants, ?_⟩
  · obtain ⟨p, hp⟩ := Option.ne_none_iff_exists'.mp
      (fun hn => absurd ((hq.dom x).mp hn) (by omega))
    refine ⟨p, (hq.state p x).mpr hp, fun p' hp' => ?_⟩
    rw [(hq.state p' x).mp hp'] at hp
    exact Option.some.inj hp
  · have hstate : (run ops).queue.inState p x = false := by
      rw [Bool.eq_false_iff]
      intro hc
      exact absurd (hq.lt_next ((hq.state p x).mp hc)) (by omega)
    refine ⟨hstate, ?_⟩
    by_cases hp : p = .ready
    · subst hp
      simp [HybridRangeBlockQueue.bit, MsgBlock.plane]
    · rwa [HybridRangeBlockQueue.inState_of_ne hp] at hstate
  · rw [Bool.eq_false_iff]
    intro hc
    exact absurd (hq.flags x hc) (by omega)
  · rw [← mem_holdings, ← h.inflight, ← hq.state]
    rfl
  · rw [hq.debugCounts]
    exact countsOf_sum fun x hx hn => absurd ((hq.dom x).mp hn) (by omega)

end SharedQueue

end Aurum.Consumer
