import Aurum.Queue.Spec

/-!
# Queue — every mutation moves messages between bit planes

`Moves src dst S q q'`: the messages `S` lose their `src` bit and get
their `dst` bit, every other bit stays, and the block lists keep their
shape. The per-block steps of the range loops and the per-mask steps of
the batches are each one `Moves` fact; loops and batches follow by
composition.
-/

namespace Aurum.Queue

open Aurum.Bits Aurum.Intrusive Aurum.Kernels MsgBlock HybridRangeBlockQueue
open List hiding Vector

/-- The new bit of a message in plane `p`, `hit` when it is moved. -/
def moveBit (src : Option MessageState) (dst : MessageState) (hit : Bool) (p : MessageState)
    (old : Bool) : Bool :=
  if hit then (if p = dst then true else if some p = src then false else old) else old

variable {src : Option MessageState} {dst p : MessageState} {mask : BitVec 8}
  {words : Vector Word 4}

theorem moveBit_comp (hne : src ≠ some dst) (a b : Bool) (p : MessageState) (old : Bool) :
    moveBit src dst b p (moveBit src dst a p old) = moveBit src dst (a || b) p old := by
  unfold moveBit
  by_cases hp : p = dst
  · subst hp
    cases a <;> cases b <;> simp
  · by_cases hs : some p = src
    · cases a <;> cases b <;> simp [hp, hs]
    · cases a <;> cases b <;> simp [hp, hs]

theorem moveBit_src (hne : p ≠ dst) (hit old : Bool) :
    moveBit (some p) dst hit p old = (old && !hit) := by
  cases hit <;> simp [moveBit, hne]

theorem moveBit_dst (dst : MessageState) (hit old : Bool) :
    moveBit src dst hit dst old = (old || hit) := by
  cases hit <;> simp [moveBit]

theorem moveBit_other (hsrc : some p ≠ src) (hdst : p ≠ dst) (hit old : Bool) :
    moveBit src dst hit p old = old := by
  cases hit <;> simp [moveBit, hsrc, hdst]

/-! ## Summary bytes -/

/-- The summary byte after `for w in first..=last { word_mask |= 1 << w }`. -/
theorem getLsbD_markWords (mask : BitVec 8) (first : Nat)
    {last : Nat} (hlast : last < 8) (w : Nat) :
    (markWords mask first last).getLsbD w = true ↔
      mask.getLsbD w = true ∨ (first ≤ w ∧ w ≤ last) := by
  unfold markWords
  have hfold : ∀ (ws : List Nat) (m : BitVec 8), (∀ v ∈ ws, v < 8) →
      ((ws.foldl (fun m w => m ||| (1#8 <<< w)) m).getLsbD w = true ↔
        m.getLsbD w = true ∨ w ∈ ws) := by
    intro ws
    induction ws with
    | nil => simp
    | cons v ws ih =>
      intro m hws
      have hv : v < 8 := hws v (by simp)
      rw [foldl_cons, ih _ (fun u hu => hws u (by simp [hu])), BitVec.getLsbD_or,
        getLsbD_one_shiftLeft, mem_cons, Bool.or_eq_true, Bool.and_eq_true,
        decide_eq_true_eq, decide_eq_true_eq]
      constructor
      · rintro ((h | h) | h)
        · exact .inl h
        · exact .inr (.inl h.2)
        · exact .inr (.inr h)
      · rintro (h | h | h)
        · exact .inl (.inl h)
        · exact .inl (.inr ⟨by omega, h⟩)
        · exact .inr h
  rw [hfold _ _ (fun v hv => by rw [mem_range'_1] at hv; omega), mem_range'_1]
  constructor
  · rintro (h | h)
    · exact .inl h
    · exact .inr (by omega)
  · rintro (h | h)
    · exact .inl h
    · exact .inr (by omega)

/-- The words a bit range touches are those of its first and last bit and
all between. -/
theorem Summarises.setRange (h : Summarises mask words) {bit take : Nat} (hpos : 0 < take)
    (hle : bit + take ≤ 256) :
    Summarises (markWords mask (bit / 64) ((bit + take - 1) / 64))
      (Kernels.setRange words bit take) := by
  intro w
  have hset := fun i => bitAt_setRange words (n := 4) hle i
  rw [getLsbD_markWords mask (bit / 64) (by omega), h w, word_ne_zero, word_ne_zero]
  constructor
  · rintro (⟨i, hi, hb⟩ | hw)
    · exact ⟨i, hi, by rw [hset, hb]; rfl⟩
    · -- a bit of the range inside word `w`
      refine ⟨max bit (64 * w), by omega, ?_⟩
      rw [hset, Bool.or_eq_true, decide_eq_true_eq]
      exact .inr (by omega)
  · rintro ⟨i, hi, hb⟩
    rw [hset, Bool.or_eq_true, decide_eq_true_eq] at hb
    rcases hb with hb | hb
    · exact .inl ⟨i, hi, hb⟩
    · exact .inr (by omega)

theorem or_bit_ne_zero (mask : BitVec 8) {w : Nat} (hw : w < 8) : mask ||| (1#8 <<< w) ≠ 0#8 := by
  intro hz
  have hbit := congrArg (BitVec.getLsbD · w) hz
  simp only [BitVec.getLsbD_or, getLsbD_one_shiftLeft] at hbit
  simp [hw] at hbit

theorem Summarises.orWord (h : Summarises mask words) {w : Nat} (hw : w < 4) {bits : Word}
    (hbits : bits ≠ 0#64) :
    Summarises (mask ||| (1#8 <<< w)) (updateWord words w (· ||| bits)) := by
  intro v
  rw [word_updateWord, BitVec.getLsbD_or, getLsbD_one_shiftLeft, Bool.or_eq_true, h v,
    Bool.and_eq_true, decide_eq_true_eq, decide_eq_true_eq]
  by_cases hv : w = v
  · subst hv
    rw [if_pos ⟨rfl, hw⟩]
    have hor : word words w ||| bits ≠ 0#64 := fun hz => hbits (BitVec.or_eq_zero_iff.mp hz).2
    simp only [hor, ne_eq, not_false_eq_true, iff_true, and_true]
    exact .inr (by omega)
  · rw [if_neg (fun hc => hv hc.1)]
    simp [Ne.symm hv]

namespace HybridRangeBlockQueue

/-- The two worklists are in shape. -/
structure Shape (q : HybridRangeBlockQueue) : Prop where
  retry : ∃ xs, retryWork.Shape q.blocks q.retryBlocks xs
  sparse : ∃ xs, sparseWork.Shape q.blocks q.sparseBlocks xs

/-- Moving the messages `S` from plane `src` (if any) to plane `dst`;
what becomes sparse-ready is flagged as redelivered. -/
structure Moves (src : Option MessageState) (dst : MessageState) (S : List Nat)
    (q q' : HybridRangeBlockQueue) : Prop where
  bits : ∀ p s, q'.bit p s = moveBit src dst (decide (s ∈ S)) p (q.bit p s)
  shape : q.Shape → q'.Shape
  next : q'.nextSeq = q.nextSeq
  head : q'.sequentialHead = q.sequentialHead
  tail : q'.sequentialTail = q.sequentialTail
  len : q'.blocks.length = q.blocks.length
  flags : ∀ s, q'.flag s = (q.flag s || (decide (dst = .sparseReady) && decide (s ∈ S)))

variable {S T : List Nat} {q q' q'' : HybridRangeBlockQueue}

theorem Moves.refl (q : HybridRangeBlockQueue) : Moves src dst [] q q where
  bits := fun p s => by simp [moveBit]
  shape := id
  next := rfl
  head := rfl
  tail := rfl
  len := rfl
  flags := by simp

theorem Moves.trans (hne : src ≠ some dst) (h : Moves src dst S q q')
    (h' : Moves src dst T q' q'') : Moves src dst (S ++ T) q q'' where
  bits := fun p s => by
    rw [h'.bits, h.bits, moveBit_comp hne]
    simp only [mem_append, Bool.decide_or]
  shape := fun hq => h'.shape (h.shape hq)
  next := h'.next.trans h.next
  head := h'.head.trans h.head
  tail := h'.tail.trans h.tail
  len := h'.len.trans h.len
  flags := fun s => by
    rw [h'.flags, h.flags]
    simp only [mem_append, Bool.decide_or, Bool.and_or_distrib_left, Bool.or_assoc]

/-- The totals play no part. -/
theorem Moves.setStats (h : Moves src dst S q q') (stats : QueueStats) :
    Moves src dst S q { q' with stats := stats } :=
  ⟨h.bits, fun hq => ⟨(h.shape hq).retry, (h.shape hq).sparse⟩, h.next, h.head, h.tail, h.len,
    h.flags⟩

/-! ## One block -/

/-- Nothing changed but the links of blocks and the list headers. -/
structure Relinks (q q' : HybridRangeBlockQueue) : Prop where
  unlink : ∀ i, (blockAt q'.blocks i).unlink = (blockAt q.blocks i).unlink
  next : q'.nextSeq = q.nextSeq
  head : q'.sequentialHead = q.sequentialHead
  tail : q'.sequentialTail = q.sequentialTail
  len : q'.blocks.length = q.blocks.length

theorem relinks_of_sameBut (wl : Worklist) (h : SameBut wl.slot q.blocks q'.blocks)
    (hnext : q'.nextSeq = q.nextSeq) (hhead : q'.sequentialHead = q.sequentialHead)
    (htail : q'.sequentialTail = q.sequentialTail) : Relinks q q' :=
  ⟨wl.unlink_sameBut h, hnext, hhead, htail, h.1⟩

/-- The block at `x`, read after a change of links. -/
theorem Relinks.block (h : Relinks q q') {x : Nat} (hx : x < q.blocks.length) :
    ∃ blk, q'.blocks[x]? = some blk ∧ blockAt q'.blocks x = blk ∧
      ∀ {β : Type} (f : MsgBlock → β), (∀ b, f b.unlink = f b) →
        f (blockAt q.blocks x) = f blk := by
  have hblk := getElem?_eq_getElem (h.len.symm ▸ hx)
  have hat := blockAt_of_getElem? hblk
  exact ⟨_, hblk, hat, fun f hf => by rw [← hf, ← h.unlink, hat, hf]⟩

/-- Block `x` became `blk`, and the links may have changed. -/
structure Replaces (x : Nat) (blk : MsgBlock) (q q' : HybridRangeBlockQueue) : Prop where
  unlink : ∀ i, (blockAt q'.blocks i).unlink =
    if i = x then blk.unlink else (blockAt q.blocks i).unlink
  next : q'.nextSeq = q.nextSeq
  head : q'.sequentialHead = q.sequentialHead
  tail : q'.sequentialTail = q.sequentialTail
  len : q'.blocks.length = q.blocks.length

section

variable {x : Nat} {blk : MsgBlock}

theorem replaces_updateBlock (hx : x < q.blocks.length) (f : MsgBlock → MsgBlock) :
    Replaces x (f (blockAt q.blocks x)) q (q.updateBlock x f) := by
  refine ⟨fun i => ?_, rfl, rfl, rfl, by simp [updateBlock]⟩
  rw [updateBlock, blockAt_modify]
  by_cases hi : i = x
  · simp [hi, hx]
  · simp [hi, Ne.symm hi]

theorem Replaces.relinks (h : Replaces x blk q q') (h' : Relinks q' q'') : Replaces x blk q q'' :=
  ⟨fun i => (h'.unlink i).trans (h.unlink i), h'.next.trans h.next, h'.head.trans h.head,
    h'.tail.trans h.tail, h'.len.trans h.len⟩

theorem Relinks.replaces (h : Relinks q q') (h' : Replaces x blk q' q'') : Replaces x blk q q'' :=
  ⟨fun i => by rw [h'.unlink, h.unlink], h'.next.trans h.next, h'.head.trans h.head,
    h'.tail.trans h.tail, h'.len.trans h.len⟩

theorem Replaces.read {β : Type} (f : MsgBlock → β) (hf : ∀ b, f b.unlink = f b)
    (h : Replaces x blk q q') (i : Nat) :
    f (blockAt q'.blocks i) = if i = x then f blk else f (blockAt q.blocks i) := by
  rw [← hf, h.unlink]
  split <;> exact hf _

/-- **A replaced block moves messages** if its bits are those of a move. -/
theorem Replaces.moves (h : Replaces x blk q q') (hshape : q.Shape → q'.Shape)
    (hS : ∀ s ∈ S, s / 256 = x)
    (hbits : ∀ p i, i < 256 → bitAt (blk.plane p) i =
      moveBit src dst (decide (256 * x + i ∈ S)) p (bitAt ((blockAt q.blocks x).plane p) i))
    (hflags : ∀ i, i < 256 → bitAt blk.redelivered i =
      (bitAt (blockAt q.blocks x).redelivered i ||
        (decide (dst = .sparseReady) && decide (256 * x + i ∈ S)))) :
    Moves src dst S q q' := by
  have hseq : ∀ {s}, s / 256 = x → 256 * x + s % 256 = s := by omega
  have hnot : ∀ {s}, s / 256 ≠ x → s ∉ S := fun hs hc => hs (hS _ hc)
  refine ⟨fun p s => ?_, hshape, h.next, h.head, h.tail, h.len, fun s => ?_⟩
  · rw [bit, bit, h.read (·.plane p) (fun b => b.plane_unlink p)]
    by_cases hs : s / 256 = x
    · rw [if_pos hs, hbits p _ (by omega), hseq hs, hs]
    · simp [hs, hnot hs, moveBit]
  · rw [flag, flag, h.read redelivered fun _ => rfl]
    by_cases hs : s / 256 = x
    · have hflag := hflags (s % 256) (by omega)
      rw [hseq hs] at hflag
      rw [if_pos hs, hs]
      exact hflag
    · simp [hs, hnot hs]

end

theorem flag_congr
    (h : ∀ i, (blockAt q'.blocks i).redelivered = (blockAt q.blocks i).redelivered) (s : Nat) :
    q'.flag s = q.flag s := by
  rw [flag, flag, h]

variable {b start len i : Nat} {f : MsgBlock → MsgBlock}
  {step : Nat → Nat → Nat → HybridRangeBlockQueue → HybridRangeBlockQueue} {m : DeliveryMask}

/-- An update that leaves the worklists' data alone. -/
theorem moves_updateBlock (hb : b < q.blocks.length) (hdst : dst ≠ .sparseReady)
    (hlinks : ∀ blk, (f blk).retryLink = blk.retryLink ∧ (f blk).sparseLink = blk.sparseLink ∧
      (f blk).redelivered = blk.redelivered)
    (hretry : ∀ blk, (f blk).retryWordMask = blk.retryWordMask ∧ (f blk).retry = blk.retry)
    (hsparse : ∀ blk,
      (f blk).sparseWordMask = blk.sparseWordMask ∧ (f blk).sparseReady = blk.sparseReady)
    (hS : ∀ s ∈ S, s / 256 = b) (hf : ∀ p i, i < 256 → bitAt ((f (blockAt q.blocks b)).plane p) i =
      moveBit src dst (decide (256 * b + i ∈ S)) p (bitAt ((blockAt q.blocks b).plane p) i)) :
    Moves src dst S q (q.updateBlock b f) := by
  refine (replaces_updateBlock hb f).moves (fun hq => ?_) hS hf fun i _ => ?_
  · obtain ⟨⟨xs, hr⟩, ⟨ys, hs⟩⟩ := hq
    refine ⟨⟨xs, ?_⟩, ⟨ys, ?_⟩⟩
    · exact hr.modify (hlinks _).1 (hretry _).1 (hretry _).2
    · exact hs.modify (hlinks _).2.1 (hsparse _).1 (hsparse _).2
  · rw [(hlinks _).2.2]
    simp [hdst]

variable (q)

theorem ensureRetryListed_eq (b : Nat) : q.ensureRetryListed b =
      { q with
        retryBlocks := (retryWork.ensure q.blocks q.retryBlocks b).1
        blocks := (retryWork.ensure q.blocks q.retryBlocks b).2 } := by
  unfold ensureRetryListed Worklist.ensure
  by_cases h : (linkAt retrySlot q.blocks b).isLinked = true
  · simp [h, retryWork]
  · simp [h, retryWork]

theorem ensureSparseListed_eq (b : Nat) : q.ensureSparseListed b =
      { q with
        sparseBlocks := (sparseWork.ensure q.blocks q.sparseBlocks b).1
        blocks := (sparseWork.ensure q.blocks q.sparseBlocks b).2 } := by
  unfold ensureSparseListed Worklist.ensure
  by_cases h : (linkAt sparseSlot q.blocks b).isLinked = true
  · simp [h, sparseWork]
  · simp [h, sparseWork]

variable {q}

/-- An update that gives block `b` retry work, then `ensure_retry_listed`. -/
theorem moves_markRetry (hb : b < q.blocks.length) (hdst : dst ≠ .sparseReady)
    (hlinks : ∀ blk, (f blk).retryLink = blk.retryLink ∧ (f blk).sparseLink = blk.sparseLink ∧
      (f blk).redelivered = blk.redelivered) (hsparse : ∀ blk,
      (f blk).sparseWordMask = blk.sparseWordMask ∧ (f blk).sparseReady = blk.sparseReady)
    (hmask : (f (blockAt q.blocks b)).retryWordMask ≠ 0#8)
    (hsum : ∀ blk, Summarises blk.retryWordMask blk.retry →
      Summarises (f blk).retryWordMask (f blk).retry) (hS : ∀ s ∈ S, s / 256 = b)
    (hf : ∀ p i, i < 256 → bitAt ((f (blockAt q.blocks b)).plane p) i =
      moveBit src dst (decide (256 * b + i ∈ S)) p (bitAt ((blockAt q.blocks b).plane p) i)) :
    Moves src dst S q ((q.updateBlock b f).ensureRetryListed b) := by
  have hsame := retryWork.sameBut_ensure (q.updateBlock b f).blocks
    (q.updateBlock b f).retryBlocks b
  rw [ensureRetryListed_eq]
  refine Replaces.moves (Replaces.relinks (replaces_updateBlock hb f)
    (relinks_of_sameBut retryWork hsame rfl rfl rfl)) (fun hq => ?_) hS hf fun i _ => ?_
  · obtain ⟨⟨xs, hr⟩, ⟨ys, hs⟩⟩ := hq
    refine ⟨?_, ⟨ys, ?_⟩⟩
    · exact hr.mark hb (hlinks _).1 hmask (hsum _ (hr.sums b))
    · have hmod := hs.modify (x := b) (hlinks _).2.1 (hsparse _).1 (hsparse _).2
      exact hmod.other retryWork (fun _ _ => rfl) hsame
  · rw [(hlinks _).2.2]
    simp [hdst]

/-! ## Ranges -/

/-- A relation every block step is in, the whole block loop is in. -/
theorem forBlocks_rel {R : HybridRangeBlockQueue → HybridRangeBlockQueue → Prop}
    (hrefl : ∀ q, R q q) (htrans : ∀ {q q' q''}, R q q' → R q' q'' → R q q'')
    (hstep : ∀ b bit take q, R q (step b bit take q)) (stop : Nat) :
    ∀ (fuel seq : Nat) (q : HybridRangeBlockQueue), R q (forBlocks step stop fuel seq q) := by
  intro fuel
  induction fuel with
  | zero => exact fun _ q => hrefl q
  | succ fuel ih =>
    intro seq q
    rw [forBlocks]
    split
    · exact htrans (hstep _ _ _ q) (ih _ _)
    · exact hrefl q

/-! ## What settling leaves alone -/

/-- The part of a block that only a retry or a delivery changes. -/
def sparseSide (b : MsgBlock) : Vector Word 4 × Vector Word 4 × BitVec 8 × Link :=
  (b.sparseReady, b.redelivered, b.sparseWordMask, b.sparseLink)

/-- Nothing changed but the other bitsets, the retry list and the totals. -/
structure Aside (q q' : HybridRangeBlockQueue) : Prop where
  next : q'.nextSeq = q.nextSeq
  head : q'.sequentialHead = q.sequentialHead
  list : q'.sparseBlocks = q.sparseBlocks
  len : q'.blocks.length = q.blocks.length
  sides : ∀ i, sparseSide (blockAt q'.blocks i) = sparseSide (blockAt q.blocks i)

theorem Aside.refl (q : HybridRangeBlockQueue) : Aside q q := ⟨rfl, rfl, rfl, rfl, fun _ => rfl⟩

theorem Aside.trans (h : Aside q q') (h' : Aside q' q'') : Aside q q'' where
  next := h'.next.trans h.next
  head := h'.head.trans h.head
  list := h'.list.trans h.list
  len := h'.len.trans h.len
  sides := fun i => (h'.sides i).trans (h.sides i)

theorem Aside.setStats (h : Aside q q') (stats : QueueStats) :
    Aside q { q' with stats := stats } := ⟨h.next, h.head, h.list, h.len, h.sides⟩

theorem aside_updateBlock (q : HybridRangeBlockQueue) (b : Nat)
    (hf : ∀ blk, sparseSide (f blk) = sparseSide blk) : Aside q (q.updateBlock b f) := by
  refine ⟨rfl, rfl, rfl, by simp [updateBlock], fun i => ?_⟩
  rw [updateBlock, blockAt_modify]
  split
  · next h => rw [hf, h.1]
  · rfl

theorem aside_ensureRetryListed (q : HybridRangeBlockQueue) (b : Nat) :
    Aside q (q.ensureRetryListed b) := by
  have hsame := retryWork.sameBut_ensure q.blocks q.retryBlocks b
  rw [ensureRetryListed_eq]
  refine ⟨rfl, rfl, rfl, hsame.1, fun i => ?_⟩
  have hread := hsame.read sparseSide (fun _ _ => rfl) i
  rw [blockAt, blockAt, ← Option.getD_map sparseSide, ← Option.getD_map sparseSide, hread]

section

variable (q : HybridRangeBlockQueue) (start len : Nat)

theorem aside_markInflightRange : Aside q (q.markInflightRange start len) := by
  unfold markInflightRange
  split
  · exact .refl q
  · exact forBlocks_rel Aside.refl Aside.trans
      (fun b _ _ q => aside_updateBlock q b (by exact fun _ => rfl)) _ _ _ q

theorem aside_ackRange : Aside q (q.ackRange start len) := by
  unfold ackRange
  split
  · exact .refl q
  · refine (forBlocks_rel Aside.refl Aside.trans (fun b _ _ q => ?_) _ _ _ q).setStats _
    exact aside_updateBlock q b fun _ => rfl

theorem aside_nackRangeToRetry : Aside q (q.nackRangeToRetry start len) := by
  unfold nackRangeToRetry
  split
  · exact .refl q
  · refine (forBlocks_rel Aside.refl Aside.trans (fun b _ _ q => ?_) _ _ _ q).setStats _
    exact (aside_updateBlock q b (by exact fun _ => rfl)).trans (aside_ensureRetryListed _ b)

theorem aside_ackMask (m : AckMask) : Aside q (q.ackMask m) :=
  (aside_updateBlock q m.block (by exact fun _ => rfl)).setStats _

theorem aside_nackMaskToRetry (m : NackMask) : Aside q (q.nackMaskToRetry m) :=
  ((aside_updateBlock q m.block (by exact fun _ => rfl)).trans
    (aside_ensureRetryListed _ m.block)).setStats _

theorem aside_applyAckBatch (batch : AckBatch) : Aside q (q.applyAckBatch batch) :=
  List.foldlRecOn _ _ (List.foldlRecOn _ _ (.refl q) fun _ h _ _ => h.trans (aside_ackRange ..))
    fun _ h _ _ => h.trans (aside_ackMask ..)

theorem aside_applyNackBatch (batch : NackBatch) : Aside q (q.applyNackBatch batch) :=
  List.foldlRecOn _ _
    (List.foldlRecOn _ _ (.refl q) fun _ h _ _ => h.trans (aside_nackRangeToRetry ..))
    fun _ h _ _ => h.trans (aside_nackMaskToRetry ..)

end

/-- **The block loop of a range**: if every block step moves its part of
the range, the loop moves the whole range. -/
theorem forBlocks_moves (hne : src ≠ some dst)
    (hstep : ∀ (q : HybridRangeBlockQueue) b bit take, b < q.blocks.length → 0 < take →
      bit + take ≤ 256 → Moves src dst (List.range' (256 * b + bit) take) q (step b bit take q))
    (stop : Nat) : ∀ (fuel seq : Nat) (q : HybridRangeBlockQueue), stop - seq ≤ fuel →
      stop ≤ 256 * q.blocks.length →
      Moves src dst (List.range' seq (stop - seq)) q (forBlocks step stop fuel seq q) := by
  intro fuel
  induction fuel with
  | zero =>
    intro seq q hf _
    rw [show stop - seq = 0 by omega]
    exact Moves.refl q
  | succ fuel ih =>
    intro seq q hf hbound
    rw [forBlocks]
    by_cases hlt : seq < stop
    · rw [if_pos hlt]
      simp only [locate, MSGS_PER_BLOCK]
      generalize htake : min (256 - seq % 256) (stop - seq) = take
      have hone := hstep q (seq / 256) (seq % 256) take (by omega) (by omega) (by omega)
      rw [show 256 * (seq / 256) + seq % 256 = seq by omega] at hone
      have hrest := ih (seq + take) (step (seq / 256) (seq % 256) take q) (by omega)
        (by rw [hone.len]; exact hbound)
      have hsplit : List.range' seq (stop - seq) =
          List.range' seq take ++ List.range' (seq + take) (stop - (seq + take)) := by
        rw [range'_append_1]
        congr 1
        omega
      rw [hsplit]
      exact hone.trans hne hrest
    · rw [if_neg hlt, show stop - seq = 0 by omega]
      exact Moves.refl q

/-- The loop as the range operations call it. -/
theorem forBlocks_range (hne : src ≠ some dst) (h : len ≠ 0 → start + len ≤ 256 * q.blocks.length)
    (h0 : len ≠ 0)
    (hstep : ∀ (q : HybridRangeBlockQueue) b bit take, b < q.blocks.length → 0 < take →
      bit + take ≤ 256 → Moves src dst (List.range' (256 * b + bit) take) q (step b bit take q)) :
    Moves src dst (List.range' start len) q (forBlocks step (start + len) len start q) := by
  have hloop := forBlocks_moves hne hstep (start + len) len start q (by omega) (h h0)
  rwa [Nat.add_sub_cancel_left] at hloop

/-- Every step of the block loop advances, so one unit of fuel per message
is enough. -/
theorem forBlocks_enough
    (step : Nat → Nat → Nat → HybridRangeBlockQueue → HybridRangeBlockQueue) (stop extra : Nat) :
    ∀ (fuel seq : Nat) (q : HybridRangeBlockQueue), stop - seq ≤ fuel →
      forBlocks step stop (fuel + extra) seq q = forBlocks step stop fuel seq q := by
  have hdone : ∀ (fuel seq : Nat) (q : HybridRangeBlockQueue), stop ≤ seq →
      forBlocks step stop fuel seq q = q := by
    intro fuel seq q hle
    cases fuel with
    | zero => rfl
    | succ fuel => rw [forBlocks, if_neg (by omega)]
  intro fuel
  induction fuel with
  | zero => exact fun seq q hf => hdone _ seq q (by omega)
  | succ fuel ih =>
    intro seq q hf
    by_cases hlt : seq < stop
    · rw [Nat.add_right_comm, forBlocks, forBlocks, if_pos hlt, if_pos hlt]
      simp only [locate, MSGS_PER_BLOCK]
      exact ih _ _ (by omega)
    · rw [hdone _ seq q (by omega), hdone _ seq q (by omega)]

theorem decide_mem_range' (b bit take i : Nat) :
    decide (256 * b + i ∈ List.range' (256 * b + bit) take) =
      decide (bit ≤ i ∧ i < bit + take) := by
  rw [decide_eq_decide, mem_range'_1]
  omega

theorem div_of_mem_range' {bit take s : Nat} (h : bit + take ≤ 256)
    (hs : s ∈ List.range' (256 * b + bit) take) : s / 256 = b := by
  rw [mem_range'_1] at hs
  omega

theorem moves_markInflightRange (h : len ≠ 0 → start + len ≤ 256 * q.blocks.length) :
    Moves none .inflight (List.range' start len) q (q.markInflightRange start len) := by
  unfold markInflightRange
  split
  · next h0 =>
      rw [h0]
      exact Moves.refl q
  · next h0 =>
    refine forBlocks_range (by simp) h h0 fun q b bit take hb _ hle => ?_
    refine moves_updateBlock hb (by simp) (fun _ => ⟨rfl, rfl, rfl⟩) (fun _ => ⟨rfl, rfl⟩)
      (fun _ => ⟨rfl, rfl⟩) (fun s hs => div_of_mem_range' hle hs) fun p i _ => ?_
    have hset := bitAt_setRange (blockAt q.blocks b).inflight (n := 4) hle i
    rw [decide_mem_range']
    generalize decide (bit ≤ i ∧ i < bit + take) = hit at hset ⊢
    cases p <;> cases hit <;> simp [plane, moveBit, hset]

theorem moves_ackRange (h : len ≠ 0 → start + len ≤ 256 * q.blocks.length) :
    Moves (some .inflight) .acked (List.range' start len) q (q.ackRange start len) := by
  unfold ackRange
  split
  · next h0 =>
      rw [h0]
      exact Moves.refl q
  · next h0 =>
    refine Moves.setStats (forBlocks_range (by simp) h h0 fun q b bit take hb _ hle => ?_) _
    refine moves_updateBlock hb (by simp) (fun _ => ⟨rfl, rfl, rfl⟩) (fun _ => ⟨rfl, rfl⟩)
      (fun _ => ⟨rfl, rfl⟩) (fun s hs => div_of_mem_range' hle hs) fun p i _ => ?_
    have hset := bitAt_setRange (blockAt q.blocks b).acked (n := 4) hle i
    have hclear := bitAt_clearRange (blockAt q.blocks b).inflight (n := 4) hle i
    rw [decide_mem_range']
    generalize decide (bit ≤ i ∧ i < bit + take) = hit at hset hclear ⊢
    cases p <;> cases hit <;> simp [plane, moveBit, hset, hclear]

theorem moves_nackRangeToRetry (h : len ≠ 0 → start + len ≤ 256 * q.blocks.length) :
    Moves (some .inflight) .retry (List.range' start len) q (q.nackRangeToRetry start len) := by
  unfold nackRangeToRetry
  split
  · next h0 =>
      rw [h0]
      exact Moves.refl q
  · next h0 =>
    refine Moves.setStats (forBlocks_range (by simp) h h0 fun q b bit take hb hpos hle => ?_) _
    refine moves_markRetry hb (by simp) (fun _ => ⟨rfl, rfl, rfl⟩) (fun _ => ⟨rfl, rfl⟩)
      (fun hz => ?_) (fun _ hsum => hsum.setRange hpos hle)
      (fun s hs => div_of_mem_range' hle hs) fun p i _ => ?_
    · have hbit := (getLsbD_markWords (blockAt q.blocks b).retryWordMask
        (bit / 64) (show (bit + take - 1) / 64 < 8 by omega) (bit / 64)).mpr (.inr (by omega))
      dsimp only at hz
      rw [hz] at hbit
      simp at hbit
    · have hset := bitAt_setRange (blockAt q.blocks b).retry (n := 4) hle i
      have hclear := bitAt_clearRange (blockAt q.blocks b).inflight (n := 4) hle i
      rw [decide_mem_range']
      generalize decide (bit ≤ i ∧ i < bit + take) = hit at hset hclear ⊢
      cases p <;> cases hit <;> simp [plane, moveBit, hset, hclear]

/-! ## Masks -/

theorem decide_mem_seqs (hw : m.word < 4) (hi : i < 256) : decide (256 * m.block + i ∈ m.seqs) =
      (decide (m.word = i / 64) && m.mask.getLsbD (i % 64)) := by
  rw [Bool.eq_iff_iff, decide_eq_true_eq, DeliveryMask.mem_seqs_block hw hi, Bool.and_eq_true,
    decide_eq_true_eq]

/-- The bits of an update of one word of one plane, by the mask's messages. -/
theorem bitAt_orMask (words : Vector Word 4) (hw : m.word < 4) (hi : i < 256) :
    bitAt (updateWord words m.word (· ||| m.mask)) i =
      (bitAt words i || decide (256 * m.block + i ∈ m.seqs)) := by
  rw [bitAt_updateWord, decide_mem_seqs hw hi]
  by_cases h : m.word = i / 64
  · rw [if_pos ⟨h, hw⟩, BitVec.getLsbD_or, bitAt, h]
    simp
  · rw [if_neg (fun hc => h hc.1)]
    simp [h]

theorem bitAt_clearMask (words : Vector Word 4) (hw : m.word < 4) (hi : i < 256) :
    bitAt (updateWord words m.word (· &&& ~~~m.mask)) i =
      (bitAt words i && !decide (256 * m.block + i ∈ m.seqs)) := by
  rw [bitAt_updateWord, decide_mem_seqs hw hi]
  by_cases h : m.word = i / 64
  · rw [if_pos ⟨h, hw⟩, BitVec.getLsbD_and, BitVec.getLsbD_not, bitAt, h]
    have hlt : i % 64 < 64 := Nat.mod_lt _ (by omega)
    simp [hlt]
  · rw [if_neg (fun hc => h hc.1)]
    simp [h]

theorem moves_ackMask {m : AckMask} (hb : m.block < q.blocks.length) (hw : m.word < 4) :
    Moves (some .inflight) .acked m.seqs q (q.ackMask m) := by
  refine @Moves.setStats _ _ _ _ (q.updateBlock m.block _) ?_ _
  refine moves_updateBlock hb (by simp) (fun _ => ⟨rfl, rfl, rfl⟩) (fun _ => ⟨rfl, rfl⟩)
    (fun _ => ⟨rfl, rfl⟩) (fun s hs => DeliveryMask.div_of_mem hw hs) fun p i hi => ?_
  have hor := bitAt_orMask (blockAt q.blocks m.block).acked hw hi
  have hclear := bitAt_clearMask (blockAt q.blocks m.block).inflight hw hi
  generalize decide (256 * m.block + i ∈ m.seqs) = hit at hor hclear ⊢
  cases p <;> cases hit <;> simp [plane, moveBit, hor, hclear]

theorem moves_nackMaskToRetry {m : NackMask} (hb : m.block < q.blocks.length)
    (hw : m.word < 4) (hm : m.mask ≠ 0#64) :
    Moves (some .inflight) .retry m.seqs q (q.nackMaskToRetry m) := by
  refine @Moves.setStats _ _ _ _ ((q.updateBlock m.block _).ensureRetryListed m.block) ?_ _
  refine moves_markRetry hb (by simp) (fun _ => ⟨rfl, rfl, rfl⟩) (fun _ => ⟨rfl, rfl⟩)
    (or_bit_ne_zero _ (by omega)) (fun _ hsum => hsum.orWord hw hm)
    (fun s hs => DeliveryMask.div_of_mem hw hs) fun p i hi => ?_
  have hor := bitAt_orMask (blockAt q.blocks m.block).retry hw hi
  have hclear := bitAt_clearMask (blockAt q.blocks m.block).inflight hw hi
  generalize decide (256 * m.block + i ∈ m.seqs) = hit at hor hclear ⊢
  cases p <;> cases hit <;> simp [plane, moveBit, hor, hclear]

/-! ## Batches -/

/-- The ranges and masks of a batch stay inside `n` blocks, and no mask
is empty. -/
structure Fits (n : Nat) (ranges : List DeliveryRange) (masks : List DeliveryMask) : Prop where
  ranges : ∀ r ∈ ranges, r.len ≠ 0 → r.startSeq + r.len ≤ 256 * n
  masks : ∀ m ∈ masks, m.block < n ∧ m.word < 4 ∧ m.mask ≠ 0#64

/-- A fold whose every step moves its own messages moves them all. -/
theorem foldl_moves {α : Type} {f : HybridRangeBlockQueue → α → HybridRangeBlockQueue}
    {seqs : α → List Nat} (ok : Nat → α → Prop) (hne : src ≠ some dst)
    (hf : ∀ (q : HybridRangeBlockQueue) a, ok q.blocks.length a →
      Moves src dst (seqs a) q (f q a)) :
    ∀ (l : List α) (q : HybridRangeBlockQueue), (∀ a ∈ l, ok q.blocks.length a) →
      Moves src dst (l.flatMap seqs) q (l.foldl f q) := by
  intro l
  induction l with
  | nil =>
    intro q _
    exact Moves.refl q
  | cons a l ih =>
    intro q hok
    have hone := hf q a (hok a (by simp))
    refine hone.trans hne (ih (f q a) fun b hb => ?_)
    rw [hone.len]
    exact hok b (by simp [hb])

/-- **Acknowledging a batch** moves exactly its messages to `acked`. -/
theorem moves_applyAckBatch {batch : AckBatch} (h : Fits q.blocks.length batch.ranges batch.masks) :
    Moves (some .inflight) .acked (workSeqs batch.ranges batch.masks) q
      (q.applyAckBatch batch) := by
  have hranges := @foldl_moves (some .inflight) .acked _
    (fun q (r : AckRange) => q.ackRange r.startSeq r.len) DeliveryRange.seqs
    (fun n r => r.len ≠ 0 → r.startSeq + r.len ≤ 256 * n) (by simp)
    (fun _ _ hr => moves_ackRange hr) batch.ranges q h.ranges
  refine hranges.trans (by simp) (foldl_moves (fun n m => m.block < n ∧ m.word < 4)
    (by simp) (fun _ _ hm => moves_ackMask hm.1 hm.2) batch.masks _ fun m hm => ?_)
  rw [hranges.len]
  exact ⟨(h.masks m hm).1, (h.masks m hm).2.1⟩

/-- **Requeueing a batch** moves exactly its messages to `retry`. -/
theorem moves_applyNackBatch {batch : NackBatch}
    (h : Fits q.blocks.length batch.ranges batch.masks) :
    Moves (some .inflight) .retry (workSeqs batch.ranges batch.masks) q
      (q.applyNackBatch batch) := by
  have hranges := @foldl_moves (some .inflight) .retry _
    (fun q (r : NackRange) => q.nackRangeToRetry r.startSeq r.len) DeliveryRange.seqs
    (fun n r => r.len ≠ 0 → r.startSeq + r.len ≤ 256 * n) (by simp)
    (fun _ _ hr => moves_nackRangeToRetry hr) batch.ranges q h.ranges
  refine hranges.trans (by simp)
    (foldl_moves (fun n m => m.block < n ∧ m.word < 4 ∧ m.mask ≠ 0#64)
      (by simp) (fun _ _ hm => moves_nackMaskToRetry hm.1 hm.2.1 hm.2.2) batch.masks _
      fun m hm => ?_)
  rw [hranges.len]
  exact h.masks m hm

end HybridRangeBlockQueue

end Aurum.Queue
