import Aurum.Queue.State

/-!
# Queue — the diagnostics report the denoted map

For a queue that denotes `st`: `debug_state_of` is `st`, `debug_counts`
counts the messages of each state, the four counts add up to the number
published, and `validate_invariants` finds nothing.
-/

namespace Aurum.Queue

open Aurum.Bits Aurum.Intrusive Aurum.Kernels MessageState
open List hiding Vector

/-- Number of messages below `n` in state `p`. -/
def countState (st : Nat → Option MessageState) (n : Nat) (p : MessageState) : Nat :=
  (List.range n).countP fun s => decide (st s = some p)

/-- The counts of a message-state map, in the form of `QueueCounts`. -/
def countsOf (st : Nat → Option MessageState) (n : Nat) : QueueCounts where
  published := n
  ready := countState st n .ready + countState st n .sparseReady
  inflight := countState st n .inflight
  acked := countState st n .acked
  retry := countState st n .retry

/-- Every known message is in exactly one state, so the counts add up. -/
theorem countsOf_sum {st : Nat → Option MessageState} {n : Nat} (h : ∀ s < n, st s ≠ none) :
    (countsOf st n).ready + (countsOf st n).inflight + (countsOf st n).acked +
      (countsOf st n).retry = n := by
  have key : ∀ l : List Nat, (∀ s ∈ l, st s ≠ none) →
      l.countP (fun s => decide (st s = some .ready)) +
        l.countP (fun s => decide (st s = some .sparseReady)) +
        l.countP (fun s => decide (st s = some .inflight)) +
        l.countP (fun s => decide (st s = some .acked)) +
        l.countP (fun s => decide (st s = some .retry)) = l.length := by
    intro l
    induction l with
    | nil => simp
    | cons s l ih =>
      intro hl
      have hrest := ih fun t ht => hl t (by simp [ht])
      obtain ⟨p, hp⟩ := Option.ne_none_iff_exists'.mp (hl s (by simp))
      simp only [countP_cons, length_cons, hp]
      cases p <;> simp <;> omega
  have := key (List.range n) fun s hs => h s (mem_range.mp hs)
  simp only [length_range] at this
  exact this

namespace HybridRangeBlockQueue

/-! ## `debug_counts` -/

/-- With right summaries the guards of `countWord` change nothing. -/
theorem countWord_eq {blk : MsgBlock} (hr : Summarises blk.retryWordMask blk.retry)
    (hs : Summarises blk.sparseWordMask blk.sparseReady) (c : QueueCounts) (w : Nat) :
    countWord blk c w = ⟨c.published, c.ready + countOnes (word blk.sparseReady w),
      c.inflight + countOnes (word blk.inflight w), c.acked + countOnes (word blk.acked w),
      c.retry + countOnes (word blk.retry w)⟩ := by
  have hguard : ∀ {mask : BitVec 8} {words : Vector Word 4} (n : Nat), Summarises mask words →
      (if mask &&& (1#8 <<< w) ≠ 0#8 then n + countOnes (word words w) else n) =
        n + countOnes (word words w) := by
    intro mask words n hsum
    split
    · rfl
    · next hz =>
        rw [not_not, and_bit_eq_zero] at hz
        have hword : word words w = 0#64 := by
          by_contra hne
          rw [(hsum w).mpr hne] at hz
          cases hz
        simp [hword]
  simp only [countWord, hguard _ hr, hguard _ hs]

/-- Number of bits of one plane of a block. -/
def planeCount (blk : MsgBlock) (p : MessageState) : Nat :=
  (List.range 256).countP (bitAt (blk.plane p))

theorem countWords_eq {blk : MsgBlock} (hr : Summarises blk.retryWordMask blk.retry)
    (hs : Summarises blk.sparseWordMask blk.sparseReady) (c : QueueCounts) :
    (List.range WORDS_PER_BLOCK).foldl (countWord blk) c =
      ⟨c.published, c.ready + planeCount blk .sparseReady,
        c.inflight + planeCount blk .inflight, c.acked + planeCount blk .acked,
        c.retry + planeCount blk .retry⟩ := by
  have key : ∀ (ws : List Nat) (c : QueueCounts), ws.foldl (countWord blk) c =
      ⟨c.published, c.ready + (ws.map fun w => countOnes (word blk.sparseReady w)).sum,
        c.inflight + (ws.map fun w => countOnes (word blk.inflight w)).sum,
        c.acked + (ws.map fun w => countOnes (word blk.acked w)).sum,
        c.retry + (ws.map fun w => countOnes (word blk.retry w)).sum⟩ := by
    intro ws
    induction ws with
    | nil =>
      intro c
      simp
    | cons w ws ih =>
      intro c
      rw [foldl_cons, ih, countWord_eq hr hs]
      simp [Nat.add_assoc]
  rw [show WORDS_PER_BLOCK = 4 from rfl, key]
  simp only [planeCount, MsgBlock.plane]
  rw [← countP_bitAt, ← countP_bitAt, ← countP_bitAt, ← countP_bitAt]

theorem countBlocks_eq : ∀ (blocks : List MsgBlock) (c : QueueCounts),
    (∀ blk ∈ blocks, Summarises blk.retryWordMask blk.retry ∧
      Summarises blk.sparseWordMask blk.sparseReady) →
    blocks.foldl (fun c blk => (List.range WORDS_PER_BLOCK).foldl (countWord blk) c) c =
      ⟨c.published, c.ready + (blocks.map (planeCount · .sparseReady)).sum,
        c.inflight + (blocks.map (planeCount · .inflight)).sum,
        c.acked + (blocks.map (planeCount · .acked)).sum,
        c.retry + (blocks.map (planeCount · .retry)).sum⟩ := by
  intro blocks
  induction blocks with
  | nil =>
    intro c _
    simp
  | cons blk blocks ih =>
    intro c hb
    obtain ⟨hr, hs⟩ := hb blk (by simp)
    rw [foldl_cons, countWords_eq hr hs, ih _ fun b hm => hb b (by simp [hm])]
    simp [Nat.add_assoc]

variable {q : HybridRangeBlockQueue} {st : Nat → Option MessageState}

/-- The block sums count the bits of the queue. -/
theorem sum_planeCount (q : HybridRangeBlockQueue) (p : MessageState) :
    (q.blocks.map (planeCount · p)).sum =
      (List.range (256 * q.blocks.length)).countP (q.bit p) := by
  have hmap : q.blocks.map (planeCount · p) =
      (List.range q.blocks.length).map fun i => planeCount (blockAt q.blocks i) p := by
    apply ext_getElem?
    intro i
    rw [getElem?_map, getElem?_map]
    by_cases hi : i < q.blocks.length
    · simp [hi, blockAt]
    · simp [hi]
  rw [hmap]
  generalize q.blocks.length = k
  induction k with
  | zero => rfl
  | succ k ih =>
    have hblock : (List.range 256).countP (q.bit p ∘ (256 * k + ·)) =
        planeCount (blockAt q.blocks k) p := by
      refine countP_congr fun i hi => ?_
      have hlt : i < 256 := mem_range.mp hi
      rw [Function.comp, bit, show (256 * k + i) / 256 = k by omega,
        show (256 * k + i) % 256 = i by omega]
    rw [range_succ, map_append, sum_append, ih, Nat.mul_succ, range_add,
      countP_append, countP_map, hblock]
    simp

theorem countP_range_of_false {p : Nat → Bool} {n m : Nat} (hnm : n ≤ m)
    (h : ∀ s, n ≤ s → p s = false) :
    (List.range m).countP p = (List.range n).countP p := by
  obtain ⟨k, rfl⟩ := Nat.exists_eq_add_of_le hnm
  rw [range_add, countP_append]
  have : ((List.range k).map (n + ·)).countP p = 0 := by
    rw [countP_eq_zero]
    intro s hs
    obtain ⟨i, _, rfl⟩ := mem_map.mp hs
    simp [h (n + i) (by omega)]
  omega

/-- **`debug_counts`** counts the states of the denoted map. -/
theorem Denotes.debugCounts (h : Denotes q st) : q.debugCounts = countsOf st q.nextSeq := by
  obtain ⟨⟨xs, hr⟩, ⟨ys, hs⟩⟩ := h.shape
  have hsums : ∀ blk ∈ q.blocks, Summarises blk.retryWordMask blk.retry ∧
      Summarises blk.sparseWordMask blk.sparseReady := by
    intro blk hblk
    obtain ⟨i, hi, rfl⟩ := mem_iff_getElem.mp hblk
    have hat : blockAt q.blocks i = q.blocks[i] :=
      blockAt_of_getElem? (getElem?_eq_getElem hi)
    have h1 := hr.sums i
    have h2 := hs.sums i
    rw [hat] at h1 h2
    exact ⟨h1, h2⟩
  have hblocks := h.blocks
  have hcount : ∀ p, p ≠ .ready →
      (q.blocks.map (planeCount · p)).sum = countState st q.nextSeq p := by
    intro p hp
    have hbit : ∀ s, q.bit p s = true ↔ st s = some p := by
      intro s
      rw [← inState_of_ne hp]
      exact h.state p s
    rw [sum_planeCount, countP_range_of_false (n := q.nextSeq) (by omega)]
    · exact countP_congr fun s _ => by rw [hbit s, decide_eq_true_eq]
    · intro s hge
      rw [Bool.eq_false_iff]
      intro hc
      have := h.lt_next ((hbit s).mp hc)
      omega
  have hready : q.sequentialReadyLen = countState st q.nextSeq .ready := by
    have hhead := h.head
    have hst : ∀ s, st s = some .ready ↔ q.sequentialHead ≤ s ∧ s < q.nextSeq := by
      intro s
      rw [← h.state .ready s]
      simp only [inState, decide_eq_true_eq, h.tail]
    obtain ⟨k, hk⟩ := Nat.exists_eq_add_of_le hhead
    rw [countState, sequentialReadyLen, h.tail, hk, range_add, countP_append]
    have h1 : (List.range q.sequentialHead).countP (fun s => decide (st s = some .ready)) = 0 := by
      rw [countP_eq_zero]
      intro s hs
      have := mem_range.mp hs
      simp only [decide_eq_true_eq, hst]
      omega
    have h2 : ((List.range k).map (q.sequentialHead + ·)).countP
        (fun s => decide (st s = some .ready)) = k := by
      rw [countP_eq_length.mpr]
      · simp
      · intro s hs
        obtain ⟨i, hi, rfl⟩ := mem_map.mp hs
        have := mem_range.mp hi
        simp only [decide_eq_true_eq, hst]
        omega
    omega
  rw [HybridRangeBlockQueue.debugCounts, countBlocks_eq _ _ hsums, countsOf]
  simp only [hcount _ (show sparseReady ≠ .ready by simp),
    hcount _ (show inflight ≠ .ready by simp),
    hcount _ (show acked ≠ .ready by simp),
    hcount _ (show retry ≠ .ready by simp), hready, Nat.zero_add]

/-! ## `debug_state_of` -/

/-- The word test of the source reads one bit of the plane. -/
theorem word_and_bit (words : Vector Word 4) (i : Nat) :
    word words (i / 64) &&& (1#64 <<< (i % 64)) ≠ 0#64 ↔ bitAt words i = true := by
  rw [ne_eq, and_bit_eq_zero, Bool.not_eq_false, bitAt]

/-- **`debug_state_of`** is the denoted map. -/
theorem Denotes.debugStateOf (h : Denotes q st) (s : Nat) : q.debugStateOf s = st s := by
  unfold HybridRangeBlockQueue.debugStateOf
  by_cases hge : q.nextSeq ≤ s
  · rw [if_pos hge, (h.dom s).mpr hge]
  rw [if_neg hge]
  by_cases hseq : q.sequentialHead ≤ s ∧ s < q.sequentialTail
  · rw [if_pos hseq]
    refine ((h.state .ready s).mp ?_).symm
    simpa [inState] using hseq
  rw [if_neg hseq]
  simp only [locate, MSGS_PER_BLOCK]
  have hblocks := h.blocks
  have hlt : s / 256 < q.blocks.length := by omega
  rw [getElem?_eq_getElem hlt]
  have hat : blockAt q.blocks (s / 256) = q.blocks[s / 256] :=
    blockAt_of_getElem? (getElem?_eq_getElem hlt)
  have hstate := fun p => h.state p s
  obtain ⟨p, hp⟩ := Option.ne_none_iff_exists'.mp (fun hn => hge ((h.dom s).mp hn))
  rw [hp] at hstate ⊢
  have hplane : ∀ p', p' ≠ .ready →
      (bitAt (q.blocks[s / 256].plane p') (s % 256) = true ↔ p = p') := by
    intro p' hne
    have hp' := hstate p'
    rw [inState_of_ne hne, Option.some_inj, bit, hat] at hp'
    exact hp'
  have h1 := hplane .acked (by simp)
  have h2 := hplane .inflight (by simp)
  have h3 := hplane .retry (by simp)
  have h4 := hplane .sparseReady (by simp)
  simp only [MsgBlock.plane] at h1 h2 h3 h4
  simp only [word_and_bit, h1, h2, h3, h4]
  cases p with
  | ready =>
    have hin := (hstate .ready).mpr rfl
    simp only [inState, decide_eq_true_eq] at hin
    exact absurd hin hseq
  | _ => rfl

/-! ## `validate_invariants` -/

theorem forM_ok {ε α : Type} {f : α → Except ε Unit} :
    ∀ {l : List α}, (∀ a ∈ l, f a = .ok ()) → l.forM f = .ok () := by
  intro l
  induction l with
  | nil =>
    intro _
    rfl
  | cons a l ih =>
    intro h
    have hrest := ih fun b hb => h b (by simp [hb])
    change (f a >>= fun _ => l.forM f) = _
    rw [h a (by simp)]
    exact hrest

/-- Two planes of a block share no bit. -/
theorem Denotes.word_disjoint (h : Denotes q st) {a b : MessageState} (ha : a ≠ .ready)
    (hb : b ≠ .ready) (hab : a ≠ b) {i : Nat} {w : Nat} (hw : w < 4) :
    word ((blockAt q.blocks i).plane a) w &&& word ((blockAt q.blocks i).plane b) w = 0#64 := by
  apply BitVec.eq_of_getLsbD_eq
  intro j hj
  rw [BitVec.getLsbD_and, BitVec.getLsbD_zero, Bool.eq_false_iff]
  intro hboth
  obtain ⟨h1, h2⟩ := Bool.and_eq_true_iff.mp hboth
  have hread : ∀ p, q.bit p (256 * i + 64 * w + j) =
      (word ((blockAt q.blocks i).plane p) w).getLsbD j := by
    intro p
    rw [bit, bitAt, show (256 * i + 64 * w + j) / 256 = i by omega,
      show (256 * i + 64 * w + j) % 256 / 64 = w by omega,
      show (256 * i + 64 * w + j) % 256 % 64 = j by omega]
  have hsa := (h.state a (256 * i + 64 * w + j)).mp (by rw [inState_of_ne ha, hread]; exact h1)
  have hsb := (h.state b (256 * i + 64 * w + j)).mp (by rw [inState_of_ne hb, hread]; exact h2)
  rw [hsa] at hsb
  exact hab (Option.some.inj hsb)

theorem bne_eq_of_summarises {mask : BitVec 8} {words : Vector Word 4}
    (h : Summarises mask words) (w : Nat) :
    (word words w != 0#64) = (mask &&& (1#8 <<< w) != 0#8) := by
  rw [Bool.eq_iff_iff, bne_iff_ne, bne_iff_ne, ← h w, ne_eq, and_bit_eq_zero,
    Bool.not_eq_false]

theorem Denotes.validateWord (h : Denotes q st) {i w : Nat} (hw : w < 4) :
    validateWord i (blockAt q.blocks i) w = .ok () := by
  obtain ⟨⟨xs, hr⟩, ⟨ys, hs⟩⟩ := h.shape
  have hdisj : ∀ a b : MessageState, a ≠ .ready → b ≠ .ready → a ≠ b →
      word ((blockAt q.blocks i).plane a) w &&& word ((blockAt q.blocks i).plane b) w = 0#64 :=
    fun a b ha hb hab => h.word_disjoint ha hb hab hw
  have h1 := hdisj .inflight .acked (by simp) (by simp) (by simp)
  have h2 := hdisj .inflight .retry (by simp) (by simp) (by simp)
  have h3 := hdisj .inflight .sparseReady (by simp) (by simp) (by simp)
  have h4 := hdisj .acked .retry (by simp) (by simp) (by simp)
  have h5 := hdisj .acked .sparseReady (by simp) (by simp) (by simp)
  have h6 := hdisj .retry .sparseReady (by simp) (by simp) (by simp)
  simp only [MsgBlock.plane] at h1 h2 h3 h4 h5 h6
  have hrm := bne_eq_of_summarises (hr.sums i) w
  have hsm := bne_eq_of_summarises (hs.sums i) w
  simp only [retryWork, sparseWork] at hrm hsm
  simp [HybridRangeBlockQueue.validateWord, h1, h2, h3, h4, h5, h6, hrm, hsm]

theorem Denotes.validateBlock (h : Denotes q st) (i : Nat) :
    validateBlock (blockAt q.blocks i) i = .ok () := by
  obtain ⟨⟨xs, hr⟩, ⟨ys, hs⟩⟩ := h.shape
  have hwords : (List.range WORDS_PER_BLOCK).forM
      (HybridRangeBlockQueue.validateWord i (blockAt q.blocks i)) = .ok () :=
    forM_ok fun w hw => h.validateWord (mem_range.mp hw)
  have hretry : ((blockAt q.blocks i).retryWordMask != 0#8) =
      (blockAt q.blocks i).isRetryListed := by
    rw [Bool.eq_iff_iff, bne_iff_ne]
    refine (hr.mem i).symm.trans ((hr.rep.isLinked i).symm.trans ?_)
    rw [Worklist.linkAt_eq]
    rfl
  have hsparse : ((blockAt q.blocks i).sparseWordMask != 0#8) =
      (blockAt q.blocks i).isSparseListed := by
    rw [Bool.eq_iff_iff, bne_iff_ne]
    refine (hs.mem i).symm.trans ((hs.rep.isLinked i).symm.trans ?_)
    rw [Worklist.linkAt_eq]
    rfl
  simp [HybridRangeBlockQueue.validateBlock, hwords, hretry, hsparse, bind, Except.bind]

/-- **`validate_invariants`** accepts every queue that denotes a map. -/
theorem Denotes.validateInvariants (h : Denotes q st) : q.validateInvariants = .ok () := by
  obtain ⟨⟨xs, hr⟩, ⟨ys, hs⟩⟩ := h.shape
  have hhead := h.head
  have hblocks : (q.blocks.zipIdx.forM fun p =>
      HybridRangeBlockQueue.validateBlock p.1 p.2) = .ok () := by
    refine forM_ok fun p hp => ?_
    obtain ⟨blk, i⟩ := p
    have hget : q.blocks[i]? = some blk := mem_zipIdx_iff_getElem?.mp hp
    rw [← blockAt_of_getElem? hget]
    exact h.validateBlock i
  have hrv : q.retryBlocks.validate retrySlot RETRY_TAG q.blocks = .ok () := hr.rep.holds.validate
  have hsv : q.sparseBlocks.validate sparseSlot SPARSE_TAG q.blocks = .ok () :=
    hs.rep.holds.validate
  rw [HybridRangeBlockQueue.validateInvariants, if_neg (by rw [h.tail]; omega),
    if_neg (by rw [h.tail]; omega), hblocks, hrv, hsv]
  rfl

end HybridRangeBlockQueue

end Aurum.Queue
