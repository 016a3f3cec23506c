import Aurum.Queue.Counts
import Aurum.Queue.Runs

/-!
# Queue — the order of sparse delivery

The sparse-ready messages of a queue stand in one order: block after
block as the sparse list has them, ascending within a block. One call of
`deliver_sparse_masks` takes the first messages of this order and leaves
the rest of it, so a block that was not finished is continued by the next
call. The other operations keep the listed blocks where they are;
`retry_all_now` adds blocks behind them.
-/

namespace Aurum.Queue

open Aurum.Bits Aurum.Intrusive Aurum.Kernels List

namespace HybridRangeBlockQueue

/-! ## The other operations -/

/-- The sparse side is untouched. -/
structure SameSparse (q q' : HybridRangeBlockQueue) : Prop where
  shape : ∀ xs, sparseWork.Shape q.blocks q.sparseBlocks xs →
    sparseWork.Shape q'.blocks q'.sparseBlocks xs
  words : ∀ i, (blockAt q'.blocks i).sparseReady = (blockAt q.blocks i).sparseReady

section Same

variable {q q' : HybridRangeBlockQueue}

theorem SameSparse.refl (q : HybridRangeBlockQueue) : SameSparse q q :=
  ⟨fun _ h => h, fun _ => rfl⟩

theorem SameSparse.sparseSeqs (h : SameSparse q q') (xs : List Nat) :
    q'.sparseSeqs xs = q.sparseSeqs xs :=
  sparseSeqs_congr fun b _ => h.words b

theorem Aside.sameSparse (h : Aside q q') : SameSparse q q' := by
  have hside : ∀ {β : Type} (f : _ → β) i, f (sparseSide (blockAt q'.blocks i)) = f _ :=
    fun f i => congrArg f (h.sides i)
  refine ⟨fun xs hs => ?_, hside (·.1)⟩
  rw [h.list]
  exact hs.congr h.len.ge (hside (·.2.2.2)) (hside (·.2.2.1)) (hside (·.1))

theorem sameSparse_publishContiguous (q : HybridRangeBlockQueue) (count : Nat) :
    SameSparse q (q.publishContiguous count).1 := by
  unfold publishContiguous
  split
  · exact .refl q
  · dsimp only
    generalize _ - q.blocks.length = missing
    have hread := fun {β : Type} (f : MsgBlock → β) hf i =>
      blockAt_growBlocks f hf missing q.blocks i
    refine ⟨fun xs hs => hs.congr ?_ (hread _ fun _ => rfl) (hread _ fun _ => rfl)
      (hread _ fun _ => rfl), hread _ fun _ => rfl⟩
    rw [length_growBlocks]
    omega

end Same

/-! ## `deliver` -/

section Deliver

variable {q q' : HybridRangeBlockQueue} {st : Nat → Option MessageState} {xs : List Nat}
  {max : Nat}

theorem sameSparse_rangeTaken (q : HybridRangeBlockQueue) (max : Nat) :
    SameSparse q (q.rangeTaken max) := by
  unfold rangeTaken
  split
  · have hsame := fun n => (aside_markInflightRange q q.sequentialHead n).sameSparse
    exact ⟨(hsame _).shape, (hsame _).words⟩
  · exact .refl q

/-- **`deliver` takes the first messages of the sparse order.** -/
theorem Denotes.deliver_takes (h : Denotes q st)
    (hs : sparseWork.Shape q.blocks q.sparseBlocks xs) (max : Nat) :
    ∃ zs, sparseWork.Shape (q.deliver max).1.blocks (q.deliver max).1.sparseBlocks zs ∧
      maskSeqs (q.deliver max).2.1.masks = (q.sparseSeqs xs).take (q.sparseAsked max) ∧
      (q.sparseAsked max = 0 → zs = xs) ∧
      ∀ s ∈ maskSeqs (q.deliver max).2.1.masks, s / 256 ∈ zs → zs.head? = some (s / 256) := by
  have hshape := (h.rangeTaken max).1.shape
  have hsame := sameSparse_rangeTaken q max
  have hlen : xs.length ≤ (q.rangeTaken max).blocks.length :=
    (hsame.shape xs hs).rep.holds.length_le
  obtain ⟨ms, zs, h1, -, hsw⟩ := sparseLoop_sweeps
    ((q.rangeTaken max).blocks.length + 1) (q.rangeTaken max) (q.sparseAsked max) 0 [] xs
    hshape.retry (hsame.shape xs hs) (fun _ => by omega)
  rw [deliver_eq]
  have hmasks : ((q.rangeTaken max).deliverSparseMasks (q.sparseAsked max) []).2.2 = ms := h1
  dsimp only
  rw [hmasks]
  exact ⟨zs, hsw.shape, hsw.taken.trans (by rw [hsame.sparseSeqs]), hsw.idle, hsw.front⟩

/-- The sparse-ready messages of a block, ascending. -/
def sparseOf (st : Nat → Option MessageState) (b : Nat) : List Nat :=
  (List.range' (256 * b) 256).filter fun s => decide (st s = some .sparseReady)

/-- The part of the sparse order that belongs to one block. -/
theorem Denotes.filter_sparseSeqs (h : Denotes q st)
    (hs : sparseWork.Shape q.blocks q.sparseBlocks xs) (b : Nat) :
    (q.sparseSeqs xs).filter (fun s => decide (s / 256 = b)) = sparseOf st b := by
  have hsorted : ((q.sparseSeqs xs).filter fun s => decide (s / 256 = b)).Pairwise (· < ·) := by
    refine ((sparseSeqs_ascend hs.rep.nodup).filter _).imp_of_mem fun {s t} hsm htm hlt => hlt ?_
    have h1 := (mem_filter.mp hsm).2
    have h2 := (mem_filter.mp htm).2
    simp only [decide_eq_true_eq] at h1 h2
    rw [h1, h2]
  have hsorted' : (sparseOf st b).Pairwise (· < ·) := (pairwise_lt_range' 1).filter _
  refine List.Perm.eq_of_pairwise' hsorted hsorted' ?_
  refine (perm_ext_iff_of_nodup (hsorted.imp Nat.ne_of_lt) (hsorted'.imp Nat.ne_of_lt)).mpr
    fun s => ?_
  have hstate : q.bit .sparseReady s = true ↔ st s = some .sparseReady := h.state .sparseReady s
  rw [mem_filter, mem_sparseSeqs_of_shape hs, sparseOf, mem_filter, mem_range'_1, hstate,
    decide_eq_true_eq, decide_eq_true_eq]
  constructor
  · rintro ⟨hsp, rfl⟩
    exact ⟨by omega, hsp⟩
  · rintro ⟨hin, hsp⟩
    exact ⟨hsp, by omega⟩

/-- The first message of the order is one of the front block. -/
theorem sparseSeqs_front {b : Nat} (hs : sparseWork.Shape q.blocks q.sparseBlocks xs)
    (hb : xs.head? = some b) : ∃ s rest, q.sparseSeqs xs = s :: rest ∧ s / 256 = b := by
  obtain ⟨ys, rfl⟩ := head?_eq_some_iff.mp hb
  have hmask := (hs.mem b).mp (by simp)
  have hne : blockSeqs b (blockAt q.blocks b).sparseReady ≠ [] := fun hnil =>
    hmask ((blockSeqs_eq_nil b (hs.sums b)).mpr hnil)
  obtain ⟨s, rest, hcons⟩ := exists_cons_of_ne_nil hne
  have hmem : s ∈ blockSeqs b (blockAt q.blocks b).sparseReady := by
    rw [hcons]
    exact mem_cons_self
  refine ⟨s, rest ++ q.sparseSeqs ys, ?_, (mem_blockSeqs.mp hmem).1⟩
  rw [sparseSeqs, flatMap_cons, hcons]
  rfl

/-- A delivery that hands out no mask. -/
def HandsNoMask (q : HybridRangeBlockQueue) : QueueOp → Prop
  | .deliver max => (q.deliver max).2.1.masks = []
  | _ => True

instance (q : HybridRangeBlockQueue) : ∀ op, Decidable (q.HandsNoMask op)
  | .deliver max => decEq (q.deliver max).2.1.masks []
  | .publish _ | .ackRange _ | .ackMask _ | .ackId _ | .nackRange _ | .nackMask _ | .retryAllNow =>
    instDecidableTrue

/-- **The front block stays in front** until a delivery takes from it. -/
theorem front_step {b : Nat} (h : Denotes q st)
    (hs : sparseWork.Shape q.blocks q.sparseBlocks xs) (hb : xs.head? = some b) {op : QueueOp}
    (hop : q.Valid op) (hquiet : q.HandsNoMask op) :
    ∃ ys, sparseWork.Shape (q.step op).blocks (q.step op).sparseBlocks ys ∧ ys.head? = some b := by
  have hsame : ∀ {q'}, SameSparse q q' →
      ∃ ys, sparseWork.Shape q'.blocks q'.sparseBlocks ys ∧ ys.head? = some b :=
    fun hq => ⟨xs, hq.shape xs hs, hb⟩
  cases op with
  | publish count => exact hsame (sameSparse_publishContiguous q count)
  | deliver max =>
    obtain ⟨zs, hzs, htaken, hall, -⟩ := h.deliver_takes hs max
    obtain ⟨s, rest, hcons, -⟩ := sparseSeqs_front hs hb
    have hnone : (q.deliver max).2.1.masks = [] := hquiet
    rw [hnone, hcons] at htaken
    -- something is there, so nothing was asked for
    have hasked : q.sparseAsked max = 0 := by
      by_contra hne
      obtain ⟨k, hk⟩ := Nat.exists_eq_succ_of_ne_zero hne
      rw [hk] at htaken
      simp at htaken
    exact ⟨zs, hzs, by rw [hall hasked]; exact hb⟩
  | ackRange r => exact hsame (aside_ackRange q _ _).sameSparse
  | ackMask m => exact hsame (aside_ackMask q m).sameSparse
  | ackId seq =>
    have hlt := h.lt_next (h.allInflight hop seq (by simp))
    rw [step, ackId_eq q hlt]
    exact hsame (aside_ackMask q _).sameSparse
  | nackRange r => exact hsame (aside_nackRangeToRetry q _ _).sameSparse
  | nackMask m => exact hsame (aside_nackMaskToRetry q m).sameSparse
  | retryAllNow =>
    obtain ⟨ys, hr⟩ := h.shape.retry
    have hlen := hr.rep.holds.length_le
    obtain ⟨-, -, -, -, -, -, zs, hzs⟩ :=
      retryLoop_moves ys (q.blocks.length + 1) q 0 xs hr hs (by omega) (by decide)
    obtain ⟨rest, rfl⟩ := head?_eq_some_iff.mp hb
    exact ⟨_, hzs, rfl⟩

/-- **The front block comes next.** -/
theorem Denotes.next_mask {b : Nat} (h : Denotes q st)
    (hs : sparseWork.Shape q.blocks q.sparseBlocks xs) (hb : xs.head? = some b) {max : Nat}
    {m : DeliveryMask} (hm : (q.deliver max).2.1.masks.head? = some m) : m.block = b := by
  obtain ⟨-, hdel, -⟩ := h.deliver max
  obtain ⟨zs, -, htaken, -⟩ := h.deliver_takes hs max
  obtain ⟨s, rest, hcons, hsb⟩ := sparseSeqs_front hs hb
  obtain ⟨ms, hms⟩ := head?_eq_some_iff.mp hm
  obtain ⟨hw, hne⟩ := hdel.masks m (by rw [hms]; simp)
  obtain ⟨i, is, hpos, -⟩ := exists_lowest hne
  have hseqs : m.seqs = seqOfBit m.block m.word i :: is.map (seqOfBit m.block m.word) := by
    rw [DeliveryMask.seqs, hpos, map_cons]
  have hfirst : seqOfBit m.block m.word i ∈ m.seqs := by
    rw [hseqs]
    exact mem_cons_self
  rw [hms, maskSeqs, flatMap_cons, hseqs, hcons] at htaken
  cases hasked : q.sparseAsked max with
  | zero => simp [hasked] at htaken
  | succ k =>
    rw [hasked, take_succ_cons, cons_append] at htaken
    rw [← DeliveryMask.div_of_mem hw hfirst, (List.cons.inj htaken).1, hsb]

/-- **What one `deliver(max)` does**, in terms of the states the queue
reports before and after it. -/
structure DeliverSpec (q : HybridRangeBlockQueue) (max : Nat) : Prop where
  /-- the loop over the sparse list ends: more rounds change nothing -/
  ends : ∀ extra, sparseLoop ((q.rangeTaken max).blocks.length + 1 + extra) (q.rangeTaken max)
    (q.sparseAsked max) 0 [] = (q.rangeTaken max).deliverSparseMasks (q.sparseAsked max) []
  count : (q.deliver max).2.2 = min max (countState q.debugStateOf q.nextSeq .ready +
    countState q.debugStateOf q.nextSeq .sparseReady)
  length : (workSeqs (q.deliver max).2.1.ranges (q.deliver max).2.1.masks).length =
    (q.deliver max).2.2
  nodup : (workSeqs (q.deliver max).2.1.ranges (q.deliver max).2.1.masks).Nodup
  nonempty : ∀ m ∈ (q.deliver max).2.1.masks, m.mask ≠ 0#64
  inflight : ∀ s ∈ workSeqs (q.deliver max).2.1.ranges (q.deliver max).2.1.masks,
    (q.deliver max).1.debugStateOf s = some .inflight
  kept : ∀ s, s ∉ workSeqs (q.deliver max).2.1.ranges (q.deliver max).2.1.masks →
    (q.deliver max).1.debugStateOf s = q.debugStateOf s
  /-- fresh messages come as one range from the head on -/
  ranges : (q.deliver max).2.1.ranges = q.rangeOf max
  fresh : ∀ s ∈ (q.deliver max).2.1.ranges.flatMap DeliveryRange.seqs,
    q.debugStateOf s = some .ready
  sparse : ∀ s ∈ maskSeqs (q.deliver max).2.1.masks, q.debugStateOf s = some .sparseReady
  /-- and before any sparse message -/
  exhausted : (q.deliver max).2.1.masks ≠ [] → ∀ s, (q.deliver max).1.debugStateOf s ≠ some .ready
  /-- a block gives its sparse messages in ascending order -/
  ascending : ∀ b, (maskSeqs (q.deliver max).2.1.masks).filter (fun s => decide (s / 256 = b)) <+:
    sparseOf q.debugStateOf b
  /-- a block that was begun and has messages left comes next, whatever
  happens until then -/
  continues : ∀ b, (∃ s ∈ maskSeqs (q.deliver max).2.1.masks, s / 256 = b) →
    sparseOf (q.deliver max).1.debugStateOf b ≠ [] →
    ∀ ops, Runs.Meets step (fun q op => q.Valid op ∧ q.HandsNoMask op) (q.deliver max).1 ops →
      ∀ max' m, ((ops.foldl step (q.deliver max).1).deliver max').2.1.masks.head? = some m →
        m.block = b

/-- A block that was begun and has messages left is the front block. -/
theorem Denotes.front_of_begun (h : Denotes q st) {b : Nat}
    (hbegun : ∃ s ∈ maskSeqs (q.deliver max).2.1.masks, s / 256 = b)
    (hleft : sparseOf (q.deliver max).1.debugStateOf b ≠ []) :
    ∃ zs, sparseWork.Shape (q.deliver max).1.blocks (q.deliver max).1.sparseBlocks zs ∧
      zs.head? = some b := by
  obtain ⟨s, hs, rfl⟩ := hbegun
  obtain ⟨xs, hxs⟩ := h.shape.sparse
  obtain ⟨zs, hzs, -, -, hfront⟩ := h.deliver_takes hxs max
  have hafter := (h.deliver max).1
  refine ⟨zs, hzs, hfront s hs ?_⟩
  -- the block has a message left, so it is listed
  obtain ⟨t, ht⟩ := exists_mem_of_ne_nil _ hleft
  have hst : (q.deliver max).1.debugStateOf = _ := funext hafter.debugStateOf
  rw [hst, ← hafter.filter_sparseSeqs hzs, mem_filter, mem_sparseSeqs,
    decide_eq_true_eq] at ht
  rw [← ht.2]
  exact ht.1.1

/-- **A queue that denotes a map delivers as specified.** -/
theorem Denotes.deliverSpec (h : Denotes q st) (max : Nat) : DeliverSpec q max := by
  obtain ⟨hafter, hdel, hnext⟩ := h.deliver max
  obtain ⟨xs, hxs⟩ := h.shape.sparse
  obtain ⟨zs, -, htaken, -⟩ := h.deliver_takes hxs max
  have hbefore : q.debugStateOf = st := funext h.debugStateOf
  have hranges : (q.deliver max).2.1.ranges = q.rangeOf max := by rw [deliver_eq]
  have hhanded : Handed st max (workSeqs (q.deliver max).2.1.ranges (q.deliver max).2.1.masks) :=
    ⟨hdel.nodup, hdel.available, hdel.le, hdel.exhausted⟩
  rw [hbefore.symm] at hdel hhanded
  refine ⟨(h.rangeTaken max).1.shape.sparseLoop_ends _ _, ?_, hdel.count.symm, hdel.nodup,
    fun m hm => (hdel.masks m hm).2, fun s hs => ?_, fun s hs => ?_, hranges, fun s hs => ?_,
    fun s hs => ?_, fun hne s hready => ?_, fun b => ?_,
    fun b hbegun hleft ops hops max' m hm => ?_⟩
  · rw [hdel.count, hhanded.length fun x => by rw [h.debugStateOf]; exact h.dom x]
    rfl
  · rw [hafter.debugStateOf, setAll_of_mem hs]
  · rw [hafter.debugStateOf, setAll_of_not_mem hs, hbefore]
  · obtain ⟨r, hr, hsr⟩ := mem_flatMap.mp hs
    exact hdel.fresh r hr s hsr
  · obtain ⟨m, hm, hsm⟩ := mem_flatMap.mp hs
    exact hdel.sparse m hm s hsm
  · -- a mask was handed out, so the range reached the tail
    have hasked : q.sparseAsked max ≠ 0 := by
      intro h0
      rw [h0, take_zero] at htaken
      obtain ⟨m, ms, hms⟩ := exists_cons_of_ne_nil hne
      have hm := (hdel.masks m (by rw [hms]; simp)).2
      rw [hms, maskSeqs, flatMap_cons, append_eq_nil_iff] at htaken
      have hlen := congrArg List.length htaken.1
      rw [DeliveryMask.length_seqs] at hlen
      exact hm (countOnes_eq_zero.mp hlen)
    rw [hafter.debugStateOf] at hready
    by_cases hs : s ∈ workSeqs (q.deliver max).2.1.ranges (q.deliver max).2.1.masks
    · rw [setAll_of_mem hs] at hready
      cases hready
    · rw [setAll_of_not_mem hs] at hready
      refine hs (mem_append.mpr (.inl ?_))
      have hin := (h.state .ready s).mpr hready
      simp only [inState, decide_eq_true_eq] at hin
      simp only [sparseAsked, sequentialReadyLen] at hasked
      rw [hranges, rangeOf, sequentialReadyLen, if_pos (by omega), flatMap_singleton,
        DeliveryRange.mem_seqs]
      dsimp only
      omega
  · rw [htaken, hbefore, ← h.filter_sparseSeqs hxs]
    exact IsPrefix.filter _ <| take_prefix _ _
  · -- the block stays in front of the list until it is its turn
    obtain ⟨ys, hys, hb⟩ := h.front_of_begun hbegun hleft
    obtain ⟨⟨st', hst'⟩, zs', hzs', hb'⟩ := hops.invariant
      (I := fun q => (∃ st, Denotes q st) ∧
        ∃ ys, sparseWork.Shape q.blocks q.sparseBlocks ys ∧ ys.head? = some b)
      (fun q op hq hop => by
        obtain ⟨⟨_, hq⟩, _, hys, hb⟩ := hq
        exact ⟨denotes_step hq hop.1, front_step hq hys hb hop.1 hop.2⟩)
      ⟨⟨_, hafter⟩, ys, hys, hb⟩
    exact hst'.next_mask hzs' hb' hm

end Deliver

/-- **Delivery.** In every state of a queue that is reached by publishing,
delivering, retrying and settling inflight messages, every `deliver(max)`
does what `DeliverSpec` says. -/
theorem deliver_as_specified (ops : List QueueOp) (hops : Runs.Meets step Valid empty ops)
    (max : Nat) : DeliverSpec (run ops) max := by
  obtain ⟨st, hst⟩ := denotes_run denotes_empty hops
  exact hst.deliverSpec max

/-- Five messages are delivered, two of them requeued and retried. -/
def twoRetried : List QueueOp :=
  [.publish 6, .deliver 5, .nackRange ⟨1, 1⟩, .ackId 0, .nackMask ⟨0, 0, 8#64⟩, .retryAllNow]

/-- The sixth message goes out first, then message 1, then message 3. -/
theorem retried_messages_follow : DeliverSpec (run twoRetried) 2 ∧
      ((run twoRetried).deliver 2).2.1 = ⟨[⟨5, 1⟩], [⟨0, 0, 2#64⟩]⟩ ∧
      (((run twoRetried).deliver 2).1.deliver 9).2.1 = ⟨[], [⟨0, 0, 8#64⟩]⟩ :=
  ⟨deliver_as_specified twoRetried (by decide +kernel) 2, by decide +kernel, by decide +kernel⟩

end HybridRangeBlockQueue

end Aurum.Queue
