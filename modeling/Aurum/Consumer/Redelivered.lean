import Aurum.Consumer.Shared

/-!
# Consumer — the redelivered flag

A message is handed out for the first time as part of the sequential
interval and later only as a sparse bit. The flag of a segment is read
from a bitset that `retry_all_now` alone writes, so it is right because
of two facts about every reachable queue: what was handed out before is
exactly what lies below `sequential_head`, and every sparse-ready bit
carries the flag.
-/

namespace Aurum.Queue.HybridRangeBlockQueue

open Aurum.Bits MsgBlock List

variable {q q' q'' : HybridRangeBlockQueue} {st : Nat → Option MessageState}

/-! ## Every sparse-ready message is flagged -/

/-- Every sparse-ready message carries the flag. -/
def Flagged (q : HybridRangeBlockQueue) : Prop :=
  ∀ x, q.bit .sparseReady x = true → q.flag x = true

theorem flagged_empty : Flagged empty := fun x hx => by
  simp [empty, bit, blockAt, plane, new] at hx

theorem Flagged.aside (h : Flagged q) (hs : Aside q q') : Flagged q' := fun x hx => by
  rw [flag_congr fun i => congrArg (·.2.1) (hs.sides i)]
  have hwords : (blockAt q'.blocks (x / 256)).sparseReady = _ := congrArg (·.1) (hs.sides _)
  refine h x ?_
  rw [bit, plane, hwords] at hx
  exact hx

/-- What becomes sparse-ready is flagged at once. -/
theorem Flagged.moves {src : Option MessageState} {dst : MessageState} {S : List Nat}
    (h : Flagged q) (hm : Moves src dst S q q') : Flagged q' := fun x hx => by
  rw [hm.flags, Bool.or_eq_true]
  rw [hm.bits, moveBit] at hx
  by_cases hmoved : dst = .sparseReady ∧ x ∈ S
  · right
    simp [hmoved.1, hmoved.2]
  · left
    refine h x ?_
    by_cases hS : x ∈ S
    · simp only [hS, decide_true] at hx
      have hdst : MessageState.sparseReady ≠ dst := fun hc => hmoved ⟨hc.symm, hS⟩
      by_contra hno
      rw [Bool.not_eq_true] at hno
      simp_all
    · simpa [hS] using hx

theorem Flagged.publish (h : Flagged q) (count : Nat) : Flagged (q.publishContiguous count).1 := by
  unfold publishContiguous
  split
  · exact h
  · intro x hx
    have hread := fun {β : Type} (f : MsgBlock → β) hf i =>
      blockAt_growBlocks f hf ((q.nextSeq + count + (MSGS_PER_BLOCK - 1)) / MSGS_PER_BLOCK -
        q.blocks.length) q.blocks i
    rw [flag, hread (fun b => b.redelivered) fun _ => rfl]
    refine h x ?_
    rw [bit, plane] at hx ⊢
    dsimp only at hx
    rwa [hread (fun b => b.sparseReady) fun _ => rfl] at hx

/-- `deliver` flags nothing and makes nothing sparse-ready. -/
theorem Denotes.deliver_flags (h : Denotes q st) (max : Nat) (x : Nat) :
    (q.deliver max).1.flag x = q.flag x ∧
      ((q.deliver max).1.bit .sparseReady x = true → q.bit .sparseReady x = true) := by
  obtain ⟨hq1, -, hsame⟩ := h.rangeTaken max
  obtain ⟨masks, -, -, hands⟩ := deliverSparseMasks_hands hq1.shape (q.sparseAsked max)
  have hflag := hands.moves.flags x
  have hbit := hands.moves.bits .sparseReady x
  rw [deliver_eq]
  refine ⟨(hflag.trans (by simp)).trans (hsame x).1, fun hx => ?_⟩
  -- the sparse half clears sparse bits
  rw [← (hsame x).2]
  have hx : ((q.rangeTaken max).deliverSparseMasks (q.sparseAsked max) []).1.bit
      .sparseReady x = true := hx
  rw [hbit, moveBit_src (by simp), Bool.and_eq_true] at hx
  exact hx.1

theorem Flagged.deliver (h : Flagged q) (hq : Denotes q st) (max : Nat) :
    Flagged (q.deliver max).1 := fun x hx => by
  obtain ⟨hflag, hbit⟩ := hq.deliver_flags max x
  rw [hflag]
  exact h x (hbit hx)

/-- Below `sequential_head` lie the messages that are no longer ready. -/
theorem Denotes.lt_head (h : Denotes q st) (x : Nat) :
    x < q.sequentialHead ↔ st x ≠ none ∧ st x ≠ some .ready := by
  have hready : st x = some .ready ↔ q.sequentialHead ≤ x ∧ x < q.nextSeq := by
    rw [← h.state .ready x]
    simp only [inState, decide_eq_true_eq, h.tail]
  have hhead := h.head
  rw [ne_eq, ne_eq, h.dom, hready]
  omega

/-- The flag of a delivered mask. -/
theorem redeliveredMask_ne_zero {m : DeliveryMask} (hw : m.word < 4) {x : Nat} (hx : x ∈ m.seqs)
    (hflag : q.flag x = true) : q.redeliveredMask m.block m.word m.mask ≠ 0#64 := by
  obtain ⟨i, hi, rfl⟩ := mem_map.mp hx
  have hi' := mem_positions.mp hi
  have hlt : i < 64 := BitVec.lt_of_getLsbD hi'
  have hblock : seqOfBit m.block m.word i / 256 = m.block := by
    simp only [seqOfBit, MSGS_PER_BLOCK]
    omega
  have hmod : seqOfBit m.block m.word i % 256 = 64 * m.word + i := by
    simp only [seqOfBit, MSGS_PER_BLOCK]
    omega
  rw [flag, hblock, hmod, bitAt, show (64 * m.word + i) / 64 = m.word by omega,
    show (64 * m.word + i) % 64 = i by omega, blockAt] at hflag
  intro hzero
  have hbit := congrArg (BitVec.getLsbD · i) hzero
  rw [redeliveredMask] at hbit
  cases hb : q.blocks[m.block]? with
  | none =>
    rw [hb] at hflag
    simp [new] at hflag
  | some blk =>
    rw [hb] at hflag hbit
    simp_all

end Aurum.Queue.HybridRangeBlockQueue

namespace Aurum.Consumer

open Aurum.Bits Aurum.Queue

namespace TaggedDeliverySegment

/-- The messages of a delivered segment. -/
def seqs : TaggedDeliverySegment → List Nat
  | .range _ r _ => r.seqs
  | .mask _ m _ _ => m.seqs

/-- `flags.contains(REDELIVERED)`. -/
def redelivered : TaggedDeliverySegment → Bool
  | .range _ _ fl => fl
  | .mask _ _ _ fl => fl

theorem map_snd_entries (seg : TaggedDeliverySegment) : seg.entries.map Prod.snd = seg.seqs := by
  cases seg <;> exact map_snd_tagged _ _

/-- How the flag of a segment was computed, from the queue `q` after the
delivery. -/
def FlagOf (q : HybridRangeBlockQueue) : TaggedDeliverySegment → Prop
  | .range _ _ fl => fl = false
  | .mask _ m _ fl => m.word < 4 ∧ fl = (q.redeliveredMask m.block m.word m.mask != 0#64)

end TaggedDeliverySegment

variable {s s' : ConsumerSession} {q q' : HybridRangeBlockQueue}
  {st : Nat → Option MessageState} {out : List TaggedDeliverySegment} {n max : Nat}

theorem flagOf_foldl {ranges : List DeliveryRange} {masks : List DeliveryMask}
    (hmasks : ∀ m ∈ masks, m.word < 4) (queue : HybridRangeBlockQueue) (s : ConsumerSession) :
    ∀ seg ∈ (masks.foldl (ConsumerSession.tagMask queue)
      (ranges.foldl ConsumerSession.tagRange (s, []))).2, seg.FlagOf queue := by
  obtain ⟨segs, h1, -, hall⟩ := foldl_pushes (f := ConsumerSession.tagRange)
    (P := fun seg => seg.FlagOf queue) ranges (s, [])
    fun r _ acc => ⟨.range acc.1.nextTag r false, rfl, rfl⟩
  obtain ⟨segs', h2, -, hall'⟩ := foldl_pushes (f := ConsumerSession.tagMask queue)
    (P := fun seg => seg.FlagOf queue) masks (ranges.foldl ConsumerSession.tagRange (s, []))
    fun m hm acc => ⟨.mask acc.1.nextTag m _ _, rfl, hmasks m hm, rfl⟩
  intro seg hseg
  rw [h2, h1, List.nil_append, List.mem_append] at hseg
  exact hseg.elim (hall seg) (hall' seg)

/-- The queue after a delivery and the flags of its segments. -/
theorem deliverFromQueue_flagOf (hq : q.Denotes st)
    (h : s.deliverFromQueue q max = .ok (s', q', out, n)) :
    (q' = q ∨ ∃ asked, q' = (q.deliver asked).1) ∧ ∀ seg ∈ out, seg.FlagOf q' := by
  unfold ConsumerSession.deliverFromQueue at h
  split at h
  · cases h
  dsimp only at h
  generalize min s.credit.available max = asked at h
  split at h
  · obtain ⟨-, rfl, rfl, -⟩ := h
    exact ⟨.inl rfl, by simp⟩
  have hmasks := (hq.deliver asked).2.1.masks
  split at h
  · obtain ⟨-, rfl, rfl, -⟩ := h
    exact ⟨.inr ⟨asked, rfl⟩, by simp⟩
  · obtain ⟨-, rfl, rfl, -⟩ := h
    exact ⟨.inr ⟨asked, rfl⟩, flagOf_foldl (fun m hm => (hmasks m hm).1) _ s⟩

/-- The segments of a delivery hold its messages, in order. -/
theorem SessionDelivers.out_seqs {asked : Nat} {S : List Nat}
    (hd : SessionDelivers s q st asked S s' q' out n) :
    out.flatMap TaggedDeliverySegment.seqs = S := by
  have hsnd := congrArg (List.map Prod.snd) hd.out
  rw [map_snd_tagged, List.map_flatMap] at hsnd
  rw [← hsnd]
  exact List.flatMap_congr fun seg _ => (seg.map_snd_entries).symm

/-- What one delivery says about the messages handed out before. -/
structure MarksRepeats (q q' : HybridRangeBlockQueue) (out : List TaggedDeliverySegment) :
    Prop where
  flag : ∀ seg ∈ out, ∀ x ∈ seg.seqs, seg.redelivered = true ↔ x < q.sequentialHead
  head : ∀ x, x < q'.sequentialHead ↔ x < q.sequentialHead ∨ ∃ seg ∈ out, x ∈ seg.seqs
  once : (out.flatMap TaggedDeliverySegment.seqs).Nodup
  flagged : q'.Flagged

/-- **`deliver_from_queue`** flags exactly the messages below the
sequential head. -/
theorem deliverFromQueue_marksRepeats (hs : SessionOk s) (hq : q.Denotes st) (hflag : q.Flagged)
    (h : s.deliverFromQueue q max = .ok (s', q', out, n)) : MarksRepeats q q' out := by
  cases hcan : s.cancelled with
  | true => simp [deliverFromQueue_cancelled hcan] at h
  | false =>
  obtain ⟨hq', hflags⟩ := deliverFromQueue_flagOf hq h
  obtain ⟨S, s1, q1, out1, n1, heq, hd⟩ := deliverFromQueue_spec hs hq hcan max
  rw [heq] at h
  obtain ⟨rfl, rfl, rfl, rfl⟩ : s1 = s' ∧ q1 = q' ∧ out1 = out ∧ n1 = n := by simpa using h
  have hseqs := hd.out_seqs
  have hmem : ∀ x, x ∈ S ↔ ∃ seg ∈ out1, x ∈ seg.seqs := fun x => by
    rw [← hseqs, List.mem_flatMap]
  have hkeep : ∀ x, q.bit .sparseReady x = true → q1.flag x = true := by
    intro x hx
    rcases hq' with rfl | ⟨asked, rfl⟩
    · exact hflag x hx
    · rw [(hq.deliver_flags asked x).1]
      exact hflag x hx
  refine ⟨fun seg hseg x hx => ?_, fun x => ?_, hseqs ▸ hd.nodup, ?_⟩
  · rw [hq.lt_head]
    obtain ⟨ranges, masks, rfl, -, hfresh, hsparse⟩ := hd.handout
    rcases List.mem_append.mp hseg with hr | hm
    · -- a range is never flagged, and its messages were ready
      have hready := hfresh seg hr
      have hfl := hflags seg hseg
      cases seg with
      | range tag r fl =>
        have hfl' : fl = false := hfl
        simp [TaggedDeliverySegment.redelivered, hfl', hready x hx]
      | mask tag m count fl => exact absurd hready id
    · -- a mask holds sparse messages, all of them flagged
      have hstate := hsparse seg hm
      have hfl := hflags seg hseg
      cases seg with
      | range tag r fl => exact absurd hstate id
      | mask tag m count fl =>
        have hx' := hstate x hx
        have hbit : q.bit .sparseReady x = true := (hq.state .sparseReady x).mpr hx'
        have hne := HybridRangeBlockQueue.redeliveredMask_ne_zero hfl.1 hx (hkeep x hbit)
        simp [TaggedDeliverySegment.redelivered, hfl.2, hne, hx']
  · rw [hd.denotes.lt_head, hq.lt_head, ← hmem]
    by_cases hx : x ∈ S
    · simp [setAll_of_mem hx, hx]
    · simp [setAll_of_not_mem hx, hx]
  · rcases hq' with rfl | ⟨asked, rfl⟩
    · exact hflag
    · exact hflag.deliver hq asked

/-! ## Settlement -/

/-- A call behind the tag check succeeds only if the call does. -/
theorem checkTag_bind_ok {β : Type} {tag : Nat} {e : Except ConsumerError β} {b : β}
    (h : ((s.checkTag tag).bind fun _ => e) = .ok b) : e = .ok b := by
  cases hc : s.checkTag tag with
  | error err => simp [hc, Except.bind] at h
  | ok _ => simpa [hc, Except.bind] using h

theorem ack_aside {req : AckRequest} {res : AckApplyResult}
    (h : s.ack req q = .ok (s', q', res)) : q.Aside q' := by
  obtain ⟨tag, mode⟩ := req
  rw [ack_eq] at h
  have h' := checkTag_bind_ok h
  cases ht : takeBy s.window mode tag with
  | error err => simp [ht] at h'
  | ok taken =>
    rw [ht] at h'
    obtain ⟨-, rfl, -⟩ := h'
    exact HybridRangeBlockQueue.aside_applyAckBatch q _

theorem nack_aside {req : NackRequest} {res : NackApplyResult}
    (h : s.nack req q = .ok (s', q', res)) : q.Aside q' := by
  obtain ⟨tag, mode, reason⟩ := req
  rw [nack_eq] at h
  have h' := checkTag_bind_ok h
  cases ht : takeBy s.window mode tag with
  | error err => simp [ht] at h'
  | ok taken =>
    rw [ht] at h'
    obtain ⟨-, rfl, -⟩ := h'
    cases reason with
    | requeue => exact HybridRangeBlockQueue.aside_applyNackBatch q _
    | reject => exact HybridRangeBlockQueue.aside_applyAckBatch q _
    | deadLetter => exact HybridRangeBlockQueue.aside_applyAckBatch q _

theorem cancel_aside (s : ConsumerSession) (disp : CancelDisposition)
    (q : HybridRangeBlockQueue) : q.Aside (s.cancel disp q).2.1 := by
  cases disp with
  | requeueUnacked => exact HybridRangeBlockQueue.aside_applyNackBatch q _
  | dropUnacked => exact HybridRangeBlockQueue.aside_applyAckBatch q _

/-! ## Runs -/

namespace SharedQueue

open List SharedQueue

/-- The segments delivered by the operations, in order. -/
def deliveriesFrom : SharedQueue → List SharedOp → List TaggedDeliverySegment
  | _, [] => []
  | sys, op :: ops => sys.handed op ++ deliveriesFrom (sys.step op) ops

/-- The segments delivered in a run. -/
def deliveries (ops : List SharedOp) : List TaggedDeliverySegment := deliveriesFrom empty ops

/-- The messages of the segments `past` are those below the sequential
head, and the sparse-ready ones carry the flag. -/
structure Tracks (sys : SharedQueue) (past : List TaggedDeliverySegment) : Prop where
  owned : sys.Owned
  flagged : sys.queue.Flagged
  head : ∀ x, x < sys.queue.sequentialHead ↔ ∃ seg ∈ past, x ∈ seg.seqs

/-- The flags of the segments `new` are right after the segments `past`. -/
def FlagsRight (past new : List TaggedDeliverySegment) : Prop :=
  ∀ pre seg post, new = pre ++ seg :: post → ∀ x ∈ seg.seqs,
    seg.redelivered = true ↔ ∃ d ∈ past ++ pre, x ∈ d.seqs

theorem FlagsRight.nil (past : List TaggedDeliverySegment) : FlagsRight past [] :=
  fun pre seg post h => by simp at h

theorem FlagsRight.append {past new later : List TaggedDeliverySegment}
    (h : FlagsRight past new) (h' : FlagsRight (past ++ new) later) :
    FlagsRight past (new ++ later) := by
  intro pre seg post heq x hx
  -- the segment is one of `new` or one of `later`
  rcases append_eq_append_iff.mp heq with ⟨mid, rfl, hmid⟩ | ⟨mid, rfl, hmid⟩
  · rw [h' mid seg post hmid x hx]
    simp
  · cases mid with
    | nil => simpa using h' [] seg post (by simpa using hmid.symm) x hx
    | cons d mid =>
      obtain ⟨rfl, rfl⟩ : seg = d ∧ post = mid ++ later := by simpa using hmid
      exact h pre seg mid rfl x hx

variable {sys : SharedQueue} {past : List TaggedDeliverySegment}

theorem tracks_empty : Tracks empty [] where
  owned := ⟨_, owns_empty⟩
  flagged := HybridRangeBlockQueue.flagged_empty
  head := fun x => by simp [empty, HybridRangeBlockQueue.empty]

/-- An operation that delivers nothing and leaves what a delivery could
flag. -/
theorem Tracks.quiet {op : SharedOp} (h : sys.Tracks past) (hnone : sys.handed op = [])
    (hq : sys.queue.Aside (sys.step op).queue) :
    (sys.step op).Tracks (past ++ sys.handed op) ∧ FlagsRight past (sys.handed op) := by
  rw [hnone, append_nil]
  exact ⟨⟨h.owned.step op, h.flagged.aside hq, fun x => by rw [hq.head]; exact h.head x⟩,
    .nil past⟩

theorem aside_onSession (sys : SharedQueue) (i : Nat)
    {call : ConsumerSession → Option (ConsumerSession × HybridRangeBlockQueue)}
    (hcall : ∀ s s' q', call s = some (s', q') → sys.queue.Aside q') :
    sys.queue.Aside (sys.onSession i call).queue := by
  unfold onSession
  cases sys.sessions[i]? with
  | none => exact .refl _
  | some s =>
    dsimp only
    cases hc : call s with
    | none => exact .refl _
    | some res => exact hcall s res.1 res.2 hc

theorem aside_ofExcept {α : Type}
    {res : Except ConsumerError (ConsumerSession × HybridRangeBlockQueue × α)}
    (hres : ∀ s' q' a, res = .ok (s', q', a) → q.Aside q') {s' : ConsumerSession}
    (h : res.toOption.map (fun r => (r.1, r.2.1)) = some (s', q')) : q.Aside q' := by
  cases res with
  | error err => simp [Except.toOption] at h
  | ok r =>
    obtain ⟨rfl, rfl⟩ : r.1 = s' ∧ r.2.1 = q' := by simpa [Except.toOption] using h
    exact hres _ _ _ rfl

/-- **One delivery** flags what was delivered before. -/
theorem Tracks.deliver (h : sys.Tracks past) (i max : Nat) :
    (sys.step (.deliver i max)).Tracks (past ++ sys.handed (.deliver i max)) ∧
      FlagsRight past (sys.handed (.deliver i max)) := by
  have howned := h.owned.step (.deliver i max)
  obtain ⟨st, howns⟩ := h.owned
  simp only [handed, step, onSession] at howned ⊢
  cases hs : sys.sessions[i]? with
  | none => exact ⟨by simpa using h, .nil past⟩
  | some s =>
    simp only [hs] at howned ⊢
    cases hd : s.deliverFromQueue sys.queue max with
    | error err => exact ⟨by simpa [Except.toOption] using h, .nil past⟩
    | ok res =>
      obtain ⟨s', q', out, n⟩ := res
      have hmarks := deliverFromQueue_marksRepeats (howns.ok s (mem_of_getElem? hs))
        howns.denotes h.flagged hd
      simp only [hd, Except.toOption, Option.map_some] at howned ⊢
      refine ⟨⟨howned, hmarks.flagged, fun x => ?_⟩, fun pre seg post heq x hx => ?_⟩
      · rw [hmarks.head, h.head]
        simp only [mem_append, or_and_right, exists_or]
      · rw [hmarks.flag seg (by rw [heq]; simp) x hx, h.head]
        -- one call delivers a message once
        have honce := hmarks.once
        rw [heq, flatMap_append, flatMap_cons] at honce
        have hnot : ¬ ∃ d ∈ pre, x ∈ d.seqs := fun hc =>
          (nodup_append.mp honce).2.2 x (mem_flatMap.mpr hc) x
            (mem_append_left _ hx) rfl
        simp only [mem_append, or_and_right, exists_or, hnot, or_false]

/-- **Every operation** keeps the record and flags what it delivers. -/
theorem Tracks.step (h : sys.Tracks past) (op : SharedOp) :
    (sys.step op).Tracks (past ++ sys.handed op) ∧ FlagsRight past (sys.handed op) := by
  cases op with
  | deliver i max => exact h.deliver i max
  | publish count =>
    obtain ⟨st, howns⟩ := h.owned
    have hhead : (sys.queue.publishContiguous count).1.sequentialHead =
        sys.queue.sequentialHead := by
      unfold HybridRangeBlockQueue.publishContiguous
      split <;> rfl
    refine ⟨⟨h.owned.step (.publish count), h.flagged.publish count, fun x => ?_⟩, .nil past⟩
    simpa [handed, hhead, SharedQueue.step] using h.head x
  | openSession id channelId prefetch => exact h.quiet rfl (.refl _)
  | ack i req =>
    apply h.quiet rfl
    exact aside_onSession sys i fun s s' q' hc =>
      aside_ofExcept (fun _ _ _ hok => ack_aside hok) hc
  | nack i req =>
    apply h.quiet rfl
    exact aside_onSession sys i fun s s' q' hc =>
      aside_ofExcept (fun _ _ _ hok => nack_aside hok) hc
  | reject i req =>
    apply h.quiet rfl
    exact aside_onSession sys i fun s s' q' hc =>
      aside_ofExcept (fun _ _ _ hok => nack_aside hok) hc
  | cancel i disp =>
    apply h.quiet rfl
    refine aside_onSession sys i fun s s' q' hc => ?_
    obtain ⟨-, rfl⟩ : _ ∧ (s.cancel disp sys.queue).2.1 = q' := by simpa using hc
    exact cancel_aside s disp sys.queue
  | retryAllNow =>
    obtain ⟨st, howns⟩ := h.owned
    obtain ⟨S, hm, -⟩ := HybridRangeBlockQueue.retryAllNow_moves howns.denotes.shape
    refine ⟨⟨h.owned.step .retryAllNow, h.flagged.moves hm, fun x => ?_⟩, .nil past⟩
    simpa [handed, SharedQueue.step, hm.head] using h.head x

/-- What a run delivers from a tracked state on is flagged right. -/
theorem Tracks.run : ∀ (ops : List SharedOp) {sys : SharedQueue}
    {past : List TaggedDeliverySegment}, sys.Tracks past → FlagsRight past (sys.deliveriesFrom ops)
  | [], _, past, _ => .nil past
  | op :: ops, _, _, h => (h.step op).2.append (Tracks.run ops (h.step op).1)

theorem deliveriesFrom_snoc (op : SharedOp) : ∀ (ops : List SharedOp) (sys : SharedQueue),
    sys.deliveriesFrom (ops ++ [op]) =
      sys.deliveriesFrom ops ++ (ops.foldl step sys).handed op := by
  intro ops
  induction ops with
  | nil => exact fun sys => by simp [deliveriesFrom]
  | cons first ops ih =>
    intro sys
    rw [cons_append, deliveriesFrom, deliveriesFrom, ih, append_assoc]
    rfl

/-- **The redelivered flag is exact.** In every run a segment is flagged
for a message exactly when an earlier segment, to whichever session, held
that message; and a segment holds only first deliveries or only repeated
ones. -/
theorem redelivered_iff_delivered_before (ops : List SharedOp)
    (pre post : List TaggedDeliverySegment) (seg : TaggedDeliverySegment)
    (hrun : deliveries ops = pre ++ seg :: post) :
    (∀ x ∈ seg.seqs, seg.redelivered = true ↔ ∃ d ∈ pre, x ∈ d.seqs) ∧
    ((∀ x ∈ seg.seqs, ∃ d ∈ pre, x ∈ d.seqs) ∨ ∀ x ∈ seg.seqs, ¬ ∃ d ∈ pre, x ∈ d.seqs) := by
  have hflag : ∀ x ∈ seg.seqs, seg.redelivered = true ↔ ∃ d ∈ pre, x ∈ d.seqs := by
    simpa using tracks_empty.run ops pre seg post hrun
  refine ⟨hflag, ?_⟩
  cases hr : seg.redelivered with
  | true => exact .inl fun x hx => (hflag x hx).mp hr
  | false => exact .inr fun x hx hc => by simp [(hflag x hx).mpr hc] at hr

/-- Two sessions; a message is nacked by the first. -/
def nackedRun : List SharedOp :=
  [.publish 2, .openSession 1 1 .unlimited, .openSession 2 1 .unlimited, .deliver 0 2,
    .nack 0 ⟨1, .one, .requeue⟩, .retryAllNow, .publish 1, .deliver 1 5]

/-- The second session gets a new message and the nacked one. -/
theorem nacked_message_is_flagged :
    deliveries nackedRun = [.range 1 ⟨0, 2⟩ false, .range 1 ⟨2, 1⟩ false] ++
      .mask 2 ⟨0, 0, 1#64⟩ 1 true :: [] ∧
    ∀ x ∈ (TaggedDeliverySegment.mask 2 ⟨0, 0, 1#64⟩ 1 true).seqs,
      true = true ↔ ∃ d ∈ [TaggedDeliverySegment.range 1 ⟨0, 2⟩ false, .range 1 ⟨2, 1⟩ false],
        x ∈ d.seqs :=
  ⟨by decide +kernel, (redelivered_iff_delivered_before nackedRun _ [] _ (by decide +kernel)).1⟩

end SharedQueue

end Aurum.Consumer
