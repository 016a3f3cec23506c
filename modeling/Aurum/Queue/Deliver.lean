import Aurum.Queue.Moves

/-!
# Queue — retry and sparse delivery

The two loops that consume a worklist. Each iteration pops a block,
moves messages between two planes of that block and puts the lists back
in shape; the loop lemmas say which messages the whole loop moved and
what is left when it stops: `retry_all_now` leaves no retry bit, and
`deliver_sparse_masks` leaves no sparse bit unless it handed out all it
was asked for.
-/

namespace Aurum.Queue

open Aurum.Bits Aurum.Intrusive Aurum.Kernels DeliveryMask MsgBlock
open List hiding Vector

/-- The messages of a list of masks. -/
def maskSeqs (masks : List DeliveryMask) : List Nat := masks.flatMap seqs

@[simp] theorem maskSeqs_nil : maskSeqs [] = [] := rfl

@[simp] theorem maskSeqs_append (ms ns : List DeliveryMask) :
    maskSeqs (ms ++ ns) = maskSeqs ms ++ maskSeqs ns := by
  simp [maskSeqs]

/-! ## Taking the lowest bits -/

theorem positions_takeLowestBitsLocal (word : Word) (max : Nat) :
    positions (takeLowestBitsLocal word max) = (positions word).take max := by
  unfold takeLowestBitsLocal
  by_cases h0 : word = 0#64 ∨ max = 0
  · rw [if_pos h0]
    rcases h0 with rfl | rfl <;> simp
  · rw [if_neg h0]
    by_cases hle : countOnes word ≤ max
    · rw [if_pos hle, take_of_length_le hle]
    · rw [if_neg hle, positions_takeLowestLoop (by omega)]

/-- **Both selections take the lowest set bits**, as many as there are up
to `max`, and every bit they leave is higher. -/
theorem lowest_bits_selected (word : Word) (max : Nat) : let taken := takeLowestBitsLocal word max
    let rest := word &&& ~~~taken
    takeLowestBits word max = (taken, rest) ∧ countOnes taken = min max (countOnes word) ∧
      taken ||| rest = word ∧
      ∀ i j, taken.getLsbD i = true → rest.getLsbD j = true → i < j := by
  have hlocal := positions_takeLowestBitsLocal word max
  obtain ⟨hkernel, hword⟩ := positions_takeLowestBits word max
  have htaken := ext_positions (hkernel.trans hlocal.symm)
  have hrest := positions_clearTaken hlocal
  have hsorted := positions_sorted word
  rw [← take_append_drop max (positions word), pairwise_append, ← hlocal, ← hrest]
    at hsorted
  refine ⟨Prod.ext htaken (by rw [hword, htaken]), ?_, ?_, fun i j hi hj => ?_⟩
  · rw [countOnes, hlocal, length_take, countOnes]
  · refine ext_positions (positions_eq_of_sorted (positions_sorted word) fun i => ?_)
    rw [BitVec.getLsbD_or, Bool.or_eq_true, ← mem_positions, ← mem_positions, hrest, hlocal,
      ← mem_append, take_append_drop]
  · exact hsorted.2.2 i (mem_positions.mpr hi) j (mem_positions.mpr hj)

namespace HybridRangeBlockQueue

/-! ## One block of `deliver_sparse_masks` -/

/-- The messages of the words `ws` of a bitset of block `b`. -/
def wordsSeqs (b : Nat) (words : Vector Word 4) (ws : List Nat) : List Nat :=
  ws.flatMap fun w => (DeliveryMask.mk b w (word words w)).seqs

variable {words : Vector Word 4} {blk : MsgBlock} {w s : Nat}

theorem wordsSeqs_congr {b : Nat} {words' : Vector Word 4} {ws : List Nat}
    (h : ∀ w ∈ ws, word words' w = word words w) :
    wordsSeqs b words' ws = wordsSeqs b words ws := by
  refine flatMap_congr fun w hw => ?_
  rw [h w hw]

/-- **What the word loop takes** from the words `ws`: the first messages,
as many as are asked for. The rest stays. -/
structure Takes (b : Nat) (ws : List Nat) (acc acc' : SparseAcc) : Prop where
  masks : ∃ ms, acc'.masks = acc.masks ++ ms ∧
    maskSeqs ms = (wordsSeqs b acc.block.sparseReady ws).take acc.remaining
  left : wordsSeqs b acc'.block.sparseReady ws =
    (wordsSeqs b acc.block.sparseReady ws).drop acc.remaining
  remaining : acc'.remaining = acc.remaining - (wordsSeqs b acc.block.sparseReady ws).length
  others : ∀ v, v ∉ ws → word acc'.block.sparseReady v = word acc.block.sparseReady v

/-- What the word loop does to the words `ws` of block `b`: it hands out
the masks `ms`, all of them sparse-ready before and inflight after, and
if it is not done yet it has emptied the words it passed. -/
structure Drains (b : Nat) (ws : List Nat) (ms : List DeliveryMask) (acc acc' : SparseAcc) :
    Prop where
  masks : acc'.masks = acc.masks ++ ms
  fits : ∀ m ∈ ms, m.block = b ∧ m.word < 4 ∧ m.mask ≠ 0#64
  le : (maskSeqs ms).length ≤ acc.remaining
  remaining : acc'.remaining = acc.remaining - (maskSeqs ms).length
  delivered : acc'.delivered = acc.delivered + (maskSeqs ms).length
  bits : ∀ p i, i < 256 → bitAt (acc'.block.plane p) i =
    moveBit (some .sparseReady) .inflight (decide (256 * b + i ∈ maskSeqs ms)) p
      (bitAt (acc.block.plane p) i)
  wereSparse : ∀ s ∈ maskSeqs ms, bitAt acc.block.sparseReady (s % 256) = true
  nodup : (maskSeqs ms).Nodup
  sums : Summarises acc.block.sparseWordMask acc.block.sparseReady →
    Summarises acc'.block.sparseWordMask acc'.block.sparseReady
  frame : acc'.block.retryLink = acc.block.retryLink ∧
    acc'.block.sparseLink = acc.block.sparseLink ∧
    acc'.block.retryWordMask = acc.block.retryWordMask ∧ acc'.block.retry = acc.block.retry ∧
    acc'.block.redelivered = acc.block.redelivered
  emptied : Summarises acc.block.sparseWordMask acc.block.sparseReady → acc'.remaining ≠ 0 →
    ∀ w ∈ ws, word acc'.block.sparseReady w = 0#64

/-- **What the word loop hands out**: the masks `ms`, which turn from
sparse-ready to inflight. -/
structure Emits (b : Nat) (ms : List DeliveryMask) (acc acc' : SparseAcc) : Prop where
  masks : acc'.masks = acc.masks ++ ms
  fits : ∀ m ∈ ms, m.block = b ∧ m.word < 4 ∧ m.mask ≠ 0#64
  delivered : acc'.delivered = acc.delivered + (maskSeqs ms).length
  bits : ∀ p i, i < 256 → bitAt (acc'.block.plane p) i =
    moveBit (some .sparseReady) .inflight (decide (256 * b + i ∈ maskSeqs ms)) p
      (bitAt (acc.block.plane p) i)
  sums : Summarises acc'.block.sparseWordMask acc'.block.sparseReady
  frame : acc'.block.retryLink = acc.block.retryLink ∧
    acc'.block.sparseLink = acc.block.sparseLink ∧
    acc'.block.retryWordMask = acc.block.retryWordMask ∧ acc'.block.retry = acc.block.retry ∧
    acc'.block.redelivered = acc.block.redelivered

variable {b : Nat} {ws : List Nat} {ms ns : List DeliveryMask} {acc acc' acc'' : SparseAcc}

theorem Emits.refl (h : Summarises acc.block.sparseWordMask acc.block.sparseReady) :
    Emits b [] acc acc :=
  ⟨by simp, by simp, by simp, fun p i _ => by simp [moveBit], h, ⟨rfl, rfl, rfl, rfl, rfl⟩⟩

theorem Emits.trans (h : Emits b ms acc acc') (h' : Emits b ns acc' acc'') :
    Emits b (ms ++ ns) acc acc'' where
  masks := by rw [h'.masks, h.masks, List.append_assoc]
  fits := fun m hm => (mem_append.mp hm).elim (h.fits m) (h'.fits m)
  delivered := by
    rw [h'.delivered, h.delivered, maskSeqs_append, length_append]
    omega
  bits := by
    intro p i hi
    rw [h'.bits p i hi, h.bits p i hi, moveBit_comp (by simp), maskSeqs_append]
    simp only [mem_append, Bool.decide_or]
  sums := h'.sums
  frame := by
    obtain ⟨h1, h2, h3, h4, h5⟩ := h.frame
    obtain ⟨g1, g2, g3, g4, g5⟩ := h'.frame
    exact ⟨g1.trans h1, g2.trans h2, g3.trans h3, g4.trans h4, g5.trans h5⟩

/-- The two planes `takeSparseWord` writes; nothing else of them moves. -/
theorem takeSparseWord_eq (blk : MsgBlock) (w : Nat) (mask : Word) :
    ∃ sum, takeSparseWord blk w mask =
      { blk with
        sparseReady := updateWord blk.sparseReady w (· &&& ~~~mask)
        inflight := updateWord blk.inflight w (· ||| mask)
        sparseWordMask := sum } := by
  unfold takeSparseWord
  dsimp only
  split
  · exact ⟨_, rfl⟩
  · exact ⟨blk.sparseWordMask, rfl⟩

/-- Clearing part of a nonzero word keeps the summary right. -/
theorem Summarises.takeSparseWord (hw : w < 4) {mask : Word}
    (h : Summarises blk.sparseWordMask blk.sparseReady) (hne : word blk.sparseReady w ≠ 0#64) :
    Summarises (takeSparseWord blk w mask).sparseWordMask
      (takeSparseWord blk w mask).sparseReady := by
  intro v
  have hword : word (updateWord blk.sparseReady w (· &&& ~~~mask)) v =
      if w = v then word blk.sparseReady w &&& ~~~mask else word blk.sparseReady v := by
    rw [word_updateWord]
    simp [hw]
  have hself : word (updateWord blk.sparseReady w (· &&& ~~~mask)) w =
      word blk.sparseReady w &&& ~~~mask := by
    rw [word_updateWord, if_pos ⟨rfl, hw⟩]
  unfold HybridRangeBlockQueue.takeSparseWord
  dsimp only
  rw [hself]
  split
  · next hz =>
      rw [hword, BitVec.getLsbD_and, BitVec.getLsbD_not, getLsbD_one_shiftLeft]
      by_cases hv : w = v
      · subst hv
        simp [hz, show w < 8 by omega]
      · have hlt : blk.sparseWordMask.getLsbD v = true → v < 8 := BitVec.lt_of_getLsbD
        rw [if_neg hv, ← h v]
        simpa [Ne.symm hv] using hlt
  · next hnz =>
      rw [hword, h v]
      by_cases hv : w = v
      · subst hv
        simp [hne, hnz]
      · simp [hv]

/-- A word with sparse messages: `mask` is handed out. -/
theorem emits_takeSparseWord (b : Nat) (acc : SparseAcc) (hw : w < 4) {mask : Word}
    (hs : Summarises acc.block.sparseWordMask acc.block.sparseReady)
    (hz : word acc.block.sparseReady w ≠ 0#64) (hne : mask ≠ 0#64) (left : Nat) :
    Emits b [⟨b, w, mask⟩] acc
      { block := takeSparseWord acc.block w mask
        remaining := left
        delivered := acc.delivered + countOnes mask
        masks := acc.masks ++ [⟨b, w, mask⟩] } := by
  have hseqs : maskSeqs [⟨b, w, mask⟩] = (DeliveryMask.mk b w mask).seqs := by simp [maskSeqs]
  obtain ⟨sum, heq⟩ := takeSparseWord_eq acc.block w mask
  refine ⟨rfl, by simp [hw, hne], by rw [hseqs, DeliveryMask.length_seqs], ?_,
    Summarises.takeSparseWord hw hs hz, by rw [heq]; exact ⟨rfl, rfl, rfl, rfl, rfl⟩⟩
  intro p i hi
  have hor := bitAt_orMask acc.block.inflight (m := ⟨b, w, mask⟩) hw hi
  have hclear := bitAt_clearMask acc.block.sparseReady (m := ⟨b, w, mask⟩) hw hi
  rw [hseqs, heq]
  generalize decide (256 * b + i ∈ (DeliveryMask.mk b w mask).seqs) = hit at hor hclear ⊢
  dsimp only at hor hclear
  cases p <;> cases hit <;> simp [plane, moveBit, hor, hclear]

/-- A word that is empty, or nothing more to take. -/
theorem Takes.idle (hidle : acc.remaining = 0 ∨ word acc.block.sparseReady w = 0#64) :
    Takes b [w] acc acc := by
  have hseqs : acc.remaining = 0 ∨ wordsSeqs b acc.block.sparseReady [w] = [] := by
    refine hidle.imp id fun hz => ?_
    simp [wordsSeqs, hz, DeliveryMask.seqs]
  refine ⟨⟨[], by simp, ?_⟩, ?_, ?_, fun _ _ => rfl⟩ <;> rcases hseqs with h | h <;> simp [h]

theorem deliverWord_spec (b : Nat) (hw : w < 4)
    (hs : Summarises acc.block.sparseWordMask acc.block.sparseReady) :
    ∃ ms, Emits b ms acc (deliverWord b acc w) ∧ Takes b [w] acc (deliverWord b acc w) := by
  unfold deliverWord
  by_cases hr : acc.remaining = 0
  · rw [if_pos hr]
    exact ⟨[], .refl hs, .idle (.inl hr)⟩
  rw [if_neg hr]
  have hbit : acc.block.sparseWordMask &&& (1#8 <<< w) = 0#8 ↔
      word acc.block.sparseReady w = 0#64 := by
    rw [and_bit_eq_zero, ← Bool.not_eq_true, hs w, not_not]
  by_cases hz : word acc.block.sparseReady w = 0#64
  · rw [if_pos (hbit.mpr hz)]
    exact ⟨[], .refl hs, .idle (.inr hz)⟩
  · simp only [if_neg (mt hbit.mp hz), if_neg hz]
    have hpos := positions_takeLowestBitsLocal (word acc.block.sparseReady w) acc.remaining
    have hne : takeLowestBitsLocal (word acc.block.sparseReady w) acc.remaining ≠ 0#64 := by
      have hsome := countOnes_pos.mpr hz
      rw [countOnes] at hsome
      rw [← countOnes_pos, countOnes, hpos, length_take]
      omega
    obtain ⟨sum, heq⟩ := takeSparseWord_eq acc.block w
      (takeLowestBitsLocal (word acc.block.sparseReady w) acc.remaining)
    have hseqs : wordsSeqs b acc.block.sparseReady [w] =
        (positions (word acc.block.sparseReady w)).map (seqOfBit b w) := by
      simp [wordsSeqs, DeliveryMask.seqs]
    refine ⟨_, emits_takeSparseWord b acc hw hs hz hne _, ⟨_, rfl, ?_⟩, ?_, ?_, fun v hv => ?_⟩
    · rw [hseqs]
      simp [maskSeqs, DeliveryMask.seqs, hpos, map_take]
    · rw [hseqs, ← map_drop, ← positions_clearTaken hpos, heq]
      simp [wordsSeqs, DeliveryMask.seqs, word_updateWord, hw]
    · rw [hseqs, length_map, countOnes, hpos, length_take]
      dsimp only
      omega
    · rw [heq]
      dsimp only
      rw [word_updateWord, if_neg fun hc => hv (by simp [hc.1])]

theorem Takes.cons (hnew : w ∉ ws) (h : Takes b [w] acc acc') (h' : Takes b ws acc' acc'') :
    Takes b (w :: ws) acc acc'' := by
  obtain ⟨ms, hms, hseqs⟩ := h.masks
  obtain ⟨ns, hns, hseqs'⟩ := h'.masks
  have hsame : wordsSeqs b acc'.block.sparseReady ws = wordsSeqs b acc.block.sparseReady ws :=
    wordsSeqs_congr fun v hv => h.others v fun hc => hnew (mem_singleton.mp hc ▸ hv)
  have hself : wordsSeqs b acc''.block.sparseReady [w] = wordsSeqs b acc'.block.sparseReady [w] :=
    wordsSeqs_congr fun v hv => h'.others v (mem_singleton.mp hv ▸ hnew)
  have hsplit : ∀ words, wordsSeqs b words (w :: ws) =
      wordsSeqs b words [w] ++ wordsSeqs b words ws := fun words => by simp [wordsSeqs]
  refine ⟨⟨ms ++ ns, ?_, ?_⟩, ?_, ?_, fun v hv => ?_⟩
  · rw [hns, hms, List.append_assoc]
  · rw [maskSeqs_append, hseqs, hseqs', h.remaining, hsame, hsplit, take_append]
  · rw [hsplit, hsplit, hself, h.left, h'.left, h.remaining, hsame, drop_append]
  · rw [h'.remaining, h.remaining, hsame, hsplit, length_append]
    omega
  · rw [mem_cons, not_or] at hv
    rw [h'.others v hv.2, h.others v (by simpa using hv.1)]

variable (b)

theorem deliverWords_spec : ∀ (ws : List Nat) (acc : SparseAcc), ws.Nodup →
    (∀ w ∈ ws, w < 4) → Summarises acc.block.sparseWordMask acc.block.sparseReady →
    ∃ ms, Emits b ms acc (ws.foldl (deliverWord b) acc) ∧
      Takes b ws acc (ws.foldl (deliverWord b) acc) := by
  intro ws
  induction ws with
  | nil =>
    intro acc _ _ hs
    exact ⟨[], .refl hs, ⟨[], by simp, by simp [wordsSeqs]⟩, by simp [wordsSeqs],
      by simp [wordsSeqs], fun _ _ => rfl⟩
  | cons w ws ih =>
    intro acc hnd hws hs
    rw [nodup_cons] at hnd
    obtain ⟨ms, hone, htakes⟩ := deliverWord_spec b (hws w (by simp)) hs
    obtain ⟨ns, hrest, htakes'⟩ := ih _ hnd.2 (fun v hv => hws v (by simp [hv])) hone.sums
    exact ⟨ms ++ ns, hone.trans hrest, htakes.cons hnd.1 htakes'⟩

/-- The messages of a bitset of block `b`. -/
def blockSeqs (words : Vector Word 4) : List Nat := wordsSeqs b words (List.range 4)

theorem mem_blockSeqs {b : Nat} :
    s ∈ blockSeqs b words ↔ s / 256 = b ∧ bitAt words (s % 256) = true := by
  simp only [blockSeqs, wordsSeqs, mem_flatMap, mem_range]
  constructor
  · rintro ⟨w, hw, hs⟩
    rw [DeliveryMask.mem_seqs hw] at hs
    refine ⟨hs.1, ?_⟩
    rw [bitAt, hs.2.1, show s % 256 % 64 = s % 64 by omega]
    exact hs.2.2
  · rintro ⟨hb, hbit⟩
    have hw : s % 256 / 64 < 4 := by omega
    refine ⟨s % 256 / 64, hw, (DeliveryMask.mem_seqs hw).mpr ⟨hb, rfl, ?_⟩⟩
    rw [bitAt, show s % 256 % 64 = s % 64 by omega] at hbit
    exact hbit

/-- They ascend. -/
theorem blockSeqs_sorted (words : Vector Word 4) : (blockSeqs b words).Pairwise (· < ·) := by
  refine pairwise_flatMap.mpr ⟨fun w _ => ?_, ?_⟩
  · refine (positions_sorted _).map _ fun i j hij => ?_
    simpa [seqOfBit] using hij
  · refine pairwise_lt_range.imp_of_mem fun {v w} hv hw hlt s hs t ht => ?_
    have hsv := (mem_seqs (mem_range.mp hv)).mp hs
    have htw := (mem_seqs (mem_range.mp hw)).mp ht
    have h1 := hsv.2.1
    have h2 := htw.2.1
    dsimp only at h1 h2
    have h3 := hsv.1.trans htw.1.symm
    omega

/-- An empty summary is that of a block without messages. -/
theorem blockSeqs_eq_nil {mask : BitVec 8} (h : Summarises mask words) :
    mask = 0#8 ↔ blockSeqs b words = [] := by
  rw [h.eq_zero, eq_nil_iff_forall_not_mem]
  constructor
  · intro hz s hsm
    have hbit := (mem_blockSeqs.mp hsm).2
    rw [hz] at hbit
    cases hbit
  · intro hnone i
    by_cases hi : i < 256
    · rw [Bool.eq_false_iff]
      intro hbit
      refine hnone (256 * b + i) (mem_blockSeqs.mpr ⟨by omega, ?_⟩)
      rwa [show (256 * b + i) % 256 = i by omega]
    · exact bitAt_of_ge (by omega)

/-- **The word loop over one block.** -/
theorem drains_deliverBlock (hs : Summarises blk.sparseWordMask blk.sparseReady)
    (r d : Nat) (masks : List DeliveryMask) :
    ∃ ms, Drains b (List.range 4) ms ⟨blk, r, d, masks⟩ (deliverBlock b blk r d masks) ∧
      maskSeqs ms = (blockSeqs b blk.sparseReady).take r ∧
      blockSeqs b (deliverBlock b blk r d masks).block.sparseReady =
        (blockSeqs b blk.sparseReady).drop r ∧
      (deliverBlock b blk r d masks).remaining = r - (blockSeqs b blk.sparseReady).length := by
  obtain ⟨ms, hem, htakes⟩ := deliverWords_spec b (List.range 4) ⟨blk, r, d, masks⟩
    nodup_range (fun _ hw => mem_range.mp hw) hs
  obtain ⟨ns, hns, hseqs⟩ := htakes.masks
  obtain rfl : ns = ms := append_cancel_left (hns.symm.trans hem.masks)
  have hseqs : maskSeqs ns = (blockSeqs b blk.sparseReady).take r := hseqs
  have hleft : blockSeqs b (deliverBlock b blk r d masks).block.sparseReady =
    (blockSeqs b blk.sparseReady).drop r := htakes.left
  have hrem : (deliverBlock b blk r d masks).remaining =
    r - (blockSeqs b blk.sparseReady).length := htakes.remaining
  have hlen : (maskSeqs ns).length = min r (blockSeqs b blk.sparseReady).length := by
    rw [hseqs, length_take]
  refine ⟨ns, ⟨hem.masks, hem.fits, ?_, ?_, hem.delivered, hem.bits, fun s hsm => ?_, ?_,
    fun _ => hem.sums, hem.frame, fun _ hne w _ => ?_⟩, hseqs, hleft, hrem⟩
  · dsimp only
    omega
  · change (deliverBlock b blk r d masks).remaining = r - _
    omega
  · rw [hseqs] at hsm
    exact (mem_blockSeqs.mp (mem_of_mem_take hsm)).2
  · rw [hseqs]
    exact ((blockSeqs_sorted b _).imp Nat.ne_of_lt).sublist (take_sublist _ _)
  · -- not done yet means that all messages went out
    have hne : (deliverBlock b blk r d masks).remaining ≠ 0 := hne
    have hzero := (blockSeqs_eq_nil b hem.sums).mpr
      (hleft.trans (drop_of_length_le (by omega)))
    by_contra hword
    have hbit := (hem.sums w).mpr hword
    simp [hzero] at hbit

variable {b}

/-! ## The loop of `deliver_sparse_masks` -/

section Loop

variable {q q' : HybridRangeBlockQueue} {x r : Nat} {xs : List Nat}

/-- Writing back a popped block whose summary is right. -/
theorem putBack_shape (hx : x < q.blocks.length)
    (hr : ∃ ys, retryWork.Shape q.blocks q.retryBlocks ys)
    (hs : sparseWork.ShapeBut q.blocks q.sparseBlocks xs x)
    (hlinks : blk.retryLink = (blockAt q.blocks x).retryLink ∧
      blk.sparseLink = (blockAt q.blocks x).sparseLink)
    (hretry : blk.retryWordMask = (blockAt q.blocks x).retryWordMask ∧
      blk.retry = (blockAt q.blocks x).retry)
    (hsum : Summarises blk.sparseWordMask blk.sparseReady) :
    (∃ ys, retryWork.Shape (q.putBack x blk).blocks (q.putBack x blk).retryBlocks ys) ∧
    sparseWork.Shape (q.putBack x blk).blocks (q.putBack x blk).sparseBlocks
      (if blk.sparseWordMask ≠ 0#8 then x :: xs else xs) := by
  obtain ⟨ys, hr⟩ := hr
  have hat : blockAt (q.blocks.modify x fun _ => blk) x = blk := by
    rw [blockAt_modify, if_pos ⟨rfl, hx⟩]
  have hr1 : retryWork.Shape (q.blocks.modify x fun _ => blk) q.retryBlocks ys :=
    hr.modify hlinks.1 hretry.1 hretry.2
  have hs1 : sparseWork.ShapeBut (q.blocks.modify x fun _ => blk) q.sparseBlocks xs x :=
    hs.modify hlinks.2
  have hsum1 : Summarises (sparseWork.wordMask (blockAt (q.blocks.modify x fun _ => blk) x))
      (sparseWork.words (blockAt (q.blocks.modify x fun _ => blk) x)) := by
    rw [hat]
    exact hsum
  unfold putBack updateBlock
  by_cases hmask : blk.sparseWordMask = 0#8
  · simp only [hmask, ne_eq, not_true, if_false]
    exact ⟨⟨ys, hr1⟩, hs1.idle (by rw [hat]; exact hmask) hsum1⟩
  · simp only [hmask, ne_eq, not_false_eq_true, if_true]
    refine ⟨⟨ys, hr1.other sparseWork (fun _ _ => rfl) (sameBut_pushFront _ _ _)⟩, ?_⟩
    exact hs1.pushFront (by simpa using hx) (by rw [hat]; exact hmask) hsum1

theorem replaces_putBack (hx : x < q.blocks.length) : Replaces x blk q (q.putBack x blk) := by
  have hup := replaces_updateBlock hx fun _ => blk
  unfold putBack
  dsimp only
  split
  · exact hup.relinks (relinks_of_sameBut sparseWork (sameBut_pushFront _ _ _) rfl rfl rfl)
  · exact hup

/-- `q'` is `q` after handing out the sparse masks `ms`, at most `r`
messages; with fewer than `r` nothing sparse is left. -/
structure Hands (r : Nat) (ms : List DeliveryMask) (q q' : HybridRangeBlockQueue) : Prop where
  moves : Moves (some .sparseReady) .inflight (maskSeqs ms) q q'
  fits : ∀ m ∈ ms, m.block < q.blocks.length ∧ m.word < 4 ∧ m.mask ≠ 0#64
  wereSparse : ∀ s ∈ maskSeqs ms, q.bit .sparseReady s = true
  nodup : (maskSeqs ms).Nodup
  le : (maskSeqs ms).length ≤ r
  exhausted : (maskSeqs ms).length < r → ∀ s, q'.bit .sparseReady s = false

variable (q)

/-- `self.sparse_blocks.pop_front(&mut self.blocks)` on the queue. -/
def popSparse : HybridRangeBlockQueue :=
  { q with
    sparseBlocks := (q.sparseBlocks.popFront sparseSlot q.blocks).2.1
    blocks := (q.sparseBlocks.popFront sparseSlot q.blocks).2.2 }

/-- The sparse-ready messages, in the order of the blocks `xs`. -/
def sparseSeqs (xs : List Nat) : List Nat :=
  xs.flatMap fun b => blockSeqs b (blockAt q.blocks b).sparseReady

variable {q}

theorem sparseSeqs_congr
    (h : ∀ b ∈ xs, (blockAt q'.blocks b).sparseReady = (blockAt q.blocks b).sparseReady) :
    q'.sparseSeqs xs = q.sparseSeqs xs := by
  refine flatMap_congr fun b hb => ?_
  rw [h b hb]

theorem mem_sparseSeqs : s ∈ q.sparseSeqs xs ↔ s / 256 ∈ xs ∧ q.bit .sparseReady s = true := by
  simp only [sparseSeqs, mem_flatMap, mem_blockSeqs, bit, plane]
  constructor
  · rintro ⟨b, hb, rfl, hbit⟩
    exact ⟨hb, hbit⟩
  · rintro ⟨hb, hbit⟩
    exact ⟨_, hb, rfl, hbit⟩

/-- A listed block is all there is. -/
theorem mem_sparseSeqs_of_shape (hs : sparseWork.Shape q.blocks q.sparseBlocks xs) :
    s ∈ q.sparseSeqs xs ↔ q.bit .sparseReady s = true := by
  rw [mem_sparseSeqs, and_iff_right_iff_imp]
  refine fun hbit => (hs.mem _).mpr fun hz => ?_
  have hzero : q.bit .sparseReady s = false := (hs.sums (s / 256)).eq_zero.mp hz (s % 256)
  rw [hbit] at hzero
  cases hzero

/-- Messages of one block ascend; those of different blocks are not
compared. -/
theorem sparseSeqs_ascend (hnd : xs.Nodup) :
    (q.sparseSeqs xs).Pairwise fun s t => s / 256 = t / 256 → s < t := by
  refine pairwise_flatMap.mpr ⟨fun x _ => ?_, ?_⟩
  · refine List.Pairwise.imp (fun {s t} hlt => ?_) (blockSeqs_sorted x _)
    exact fun _ => hlt
  · refine hnd.imp fun {x y} hne s hsx t hty heq => absurd ?_ hne
    rw [← (mem_blockSeqs.mp hsx).1, ← (mem_blockSeqs.mp hty).1, heq]

/-- **One iteration**: block `x` is popped, gives what it can and is put
back; it stays in front if it has messages left. -/
structure Iterates (q : HybridRangeBlockQueue) (x : Nat) (xs : List Nat) (r : Nat)
    (ms : List DeliveryMask) (out : SparseAcc) (zs : List Nat) : Prop where
  moves : Moves (some .sparseReady) .inflight (maskSeqs ms) q (q.popSparse.putBack x out.block)
  taken : maskSeqs ms = (blockSeqs x (blockAt q.blocks x).sparseReady).take r
  left : out.remaining = r - (blockSeqs x (blockAt q.blocks x).sparseReady).length
  shape : sparseWork.Shape (q.popSparse.putBack x out.block).blocks
    (q.popSparse.putBack x out.block).sparseBlocks zs
  order : (q.popSparse.putBack x out.block).sparseSeqs zs =
    (blockSeqs x (blockAt q.blocks x).sparseReady).drop r ++ q.sparseSeqs xs
  listed : zs = xs ∨ zs = x :: xs ∧ out.remaining = 0

theorem sparse_iteration (hr : ∃ ys, retryWork.Shape q.blocks q.retryBlocks ys)
    (hs : sparseWork.Shape q.blocks q.sparseBlocks (x :: xs)) (r d : Nat)
    (masks : List DeliveryMask) :
    ∃ blk ms zs, q.popSparse.blocks[x]? = some blk ∧
      Drains x (List.range 4) ms ⟨blk, r, d, masks⟩ (deliverBlock x blk r d masks) ∧
      Iterates q x xs r ms (deliverBlock x blk r d masks) zs := by
  obtain ⟨ys, hr⟩ := hr
  have hpop : sparseWork.ShapeBut q.popSparse.blocks q.popSparse.sparseBlocks xs x := hs.popFront
  have hr1 : retryWork.Shape q.popSparse.blocks q.popSparse.retryBlocks ys :=
    hr.other sparseWork (fun _ _ => rfl) (sameBut_popFront q.blocks q.sparseBlocks)
  have hrel : Relinks q q.popSparse :=
    relinks_of_sameBut sparseWork (sameBut_popFront q.blocks q.sparseBlocks) rfl rfl rfl
  have hx : x < q.blocks.length := hs.rep.bound x (by simp)
  have hx1 : x < q.popSparse.blocks.length := hrel.len.symm ▸ hx
  obtain ⟨blk, hblk, hblk', hsame⟩ := hrel.block hx
  have hwords := hsame sparseReady fun _ => rfl
  have hsum : Summarises blk.sparseWordMask blk.sparseReady := by
    have h0 := hs.sums x
    rwa [hsame _ sparseWork.wordMask_unlink, hsame _ sparseWork.words_unlink] at h0
  obtain ⟨ms, hdr, hseqs, hleft, hrem⟩ := drains_deliverBlock x hsum r d masks
  refine ⟨blk, ms, ?_⟩
  generalize deliverBlock x blk r d masks = out at *
  obtain ⟨f1, f2, f3, f4, f5⟩ := hdr.frame
  have hput := @putBack_shape out.block _ x xs hx1 ⟨ys, hr1⟩ hpop
    (by rw [hblk']; exact ⟨f1, f2⟩) (by rw [hblk']; exact ⟨f3, f4⟩) (hdr.sums hsum)
  have hreplaced := hrel.replaces (@replaces_putBack out.block _ x hx1)
  have hread := hreplaced.read sparseReady fun _ => rfl
  have hrest : (q.popSparse.putBack x out.block).sparseSeqs xs = q.sparseSeqs xs := by
    refine sparseSeqs_congr fun i hi => ?_
    rw [hread, if_neg (fun hc : i = x => hpop.absent (hc ▸ hi))]
  -- the summary byte says whether the block has messages left
  have hmask : out.block.sparseWordMask = 0#8 ↔ (blockSeqs x blk.sparseReady).drop r = [] := by
    rw [blockSeqs_eq_nil x (hdr.sums hsum), hleft]
  refine ⟨_, hblk, hdr, hreplaced.moves (fun _ => ⟨hput.1, _, hput.2⟩) (fun s hsm => ?_)
    (fun p i hi => ?_) (fun i _ => ?_), by rw [hwords, hseqs], by rw [hwords, hrem], hput.2, ?_, ?_⟩
  · exact (mem_blockSeqs.mp (mem_of_mem_take (hseqs ▸ hsm))).1
  · rw [hsame (·.plane p) fun b => b.plane_unlink p]
    exact hdr.bits p i hi
  · rw [hsame redelivered fun _ => rfl, ← f5]
    simp
  · rw [hwords]
    by_cases hz : out.block.sparseWordMask = 0#8
    · rw [if_neg (by simpa using hz), hrest, hmask.mp hz, nil_append]
    · rw [if_pos hz, ← hleft, sparseSeqs, flatMap_cons, hread, if_pos rfl, ← hrest]
      rfl
  · by_cases hz : out.block.sparseWordMask = 0#8
    · rw [if_neg (by simpa using hz)]
      exact .inl rfl
    · -- messages are left, so all that was asked for has been taken
      rw [if_pos hz]
      refine .inr ⟨rfl, ?_⟩
      have hlt := mt drop_of_length_le (mt hmask.mpr hz)
      omega

/-- Taking `r` from the front part and the rest of `r` behind it. -/
theorem take_then_rest {α : Type} (front rest : List α) (r : Nat) :
    front.take r ++ (front.drop r ++ rest).take (r - front.length) = (front ++ rest).take r ∧
      (front.drop r ++ rest).drop (r - front.length) = (front ++ rest).drop r := by
  have htake : (front ++ rest).take r = _ := take_append
  have hdrop : (front ++ rest).drop r = _ := drop_append
  rw [htake, hdrop]
  rcases Nat.le_total r front.length with hle | hle
  · simp [Nat.sub_eq_zero_of_le hle]
  · simp [drop_of_length_le hle]

theorem sparseLoop_nil (hs : sparseWork.Shape q.blocks q.sparseBlocks []) (fuel r d : Nat)
    (masks : List DeliveryMask) : sparseLoop (fuel + 1) q r d masks = (q, d, masks) := by
  have hpop : q.sparseBlocks.popFront sparseSlot q.blocks = _ := popFront_nil hs.rep
  rw [sparseLoop]
  split
  · rfl
  · rw [hpop]

theorem sparseLoop_cons (hs : sparseWork.Shape q.blocks q.sparseBlocks (x :: xs)) (hr : r ≠ 0)
    (hblk : q.popSparse.blocks[x]? = some blk) (fuel d : Nat) (masks : List DeliveryMask) :
    sparseLoop (fuel + 1) q r d masks =
      sparseLoop fuel (q.popSparse.putBack x (deliverBlock x blk r d masks).block)
        (deliverBlock x blk r d masks).remaining (deliverBlock x blk r d masks).delivered
        (deliverBlock x blk r d masks).masks := by
  have hpop : q.sparseBlocks.popFront sparseSlot q.blocks = _ := popFront_cons hs.rep
  rw [sparseLoop, if_neg hr, hpop]
  rw [popSparse] at hblk
  dsimp only at hblk ⊢
  rw [hblk]
  rfl

/-- **What the loop does** with the blocks `xs` of the list: it takes the
first `r` messages and leaves the rest in the same order. Of the blocks it
took from only the front block of the new list `zs` has messages left. -/
structure Sweeps (r : Nat) (xs : List Nat) (ms : List DeliveryMask) (q q' : HybridRangeBlockQueue)
    (zs : List Nat) : Prop where
  moves : Moves (some .sparseReady) .inflight (maskSeqs ms) q q'
  fits : ∀ m ∈ ms, m.block < q.blocks.length ∧ m.word < 4 ∧ m.mask ≠ 0#64
  taken : maskSeqs ms = (q.sparseSeqs xs).take r
  shape : sparseWork.Shape q'.blocks q'.sparseBlocks zs
  order : q'.sparseSeqs zs = (q.sparseSeqs xs).drop r
  suffix : zs <:+ xs
  idle : r = 0 → zs = xs
  front : ∀ s ∈ maskSeqs ms, s / 256 ∈ zs → zs.head? = some (s / 256)

theorem Sweeps.refl (hs : sparseWork.Shape q.blocks q.sparseBlocks xs) (hstop : r = 0 ∨ xs = []) :
    Sweeps r xs [] q q xs := by
  have hseqs : r = 0 ∨ q.sparseSeqs xs = [] := hstop.imp id fun h => by rw [h]; rfl
  refine ⟨Moves.refl q, by simp, ?_, hs, ?_, suffix_rfl, fun _ => rfl, by simp⟩ <;>
    rcases hseqs with h | h <;> simp [h]

variable {out : SparseAcc} {zs : List Nat}

/-- One iteration and then the loop. -/
theorem Iterates.sweeps {ns : List DeliveryMask} {zs' : List Nat}
    (hs : sparseWork.Shape q.blocks q.sparseBlocks (x :: xs))
    (hfits : ∀ m ∈ ms, m.block = x ∧ m.word < 4 ∧ m.mask ≠ 0#64) (hr0 : r ≠ 0)
    (h : Iterates q x xs r ms out zs)
    (h' : Sweeps out.remaining zs ns (q.popSparse.putBack x out.block) q' zs') :
    Sweeps r (x :: xs) (ms ++ ns) q q' zs' := by
  have hsplit : q.sparseSeqs (x :: xs) =
      blockSeqs x (blockAt q.blocks x).sparseReady ++ q.sparseSeqs xs := by
    rw [sparseSeqs, flatMap_cons]
    rfl
  obtain ⟨htake, hdrop⟩ := take_then_rest
    (blockSeqs x (blockAt q.blocks x).sparseReady) (q.sparseSeqs xs) r
  have hsuffix : zs <:+ x :: xs := by
    rcases h.listed with rfl | ⟨rfl, -⟩
    · exact suffix_cons x zs
    · exact suffix_rfl
  refine ⟨?_, fun m hm => ?_, ?_, h'.shape, ?_, h'.suffix.trans hsuffix, fun h0 => absurd h0 hr0,
    fun s hsm hin => ?_⟩
  · rw [maskSeqs_append]
    exact h.moves.trans (by simp) h'.moves
  · rcases mem_append.mp hm with hm | hm
    · exact ⟨(hfits m hm).1 ▸ hs.rep.bound x (by simp), (hfits m hm).2⟩
    · rw [← h.moves.len]
      exact h'.fits m hm
  · rw [maskSeqs_append, h.taken, h'.taken, h.order, h.left, hsplit, htake]
  · rw [h'.order, h.order, h.left, hsplit, hdrop]
  · rw [maskSeqs_append, mem_append] at hsm
    rcases hsm with hsm | hsm
    · -- taken from the front block: it is listed only if it was put back
      rw [h.taken] at hsm
      have hx := (mem_blockSeqs.mp (mem_of_mem_take hsm)).1
      rcases h.listed with rfl | ⟨rfl, h0⟩
      · have hno := (nodup_cons.mp hs.rep.nodup).1
        exact absurd (h'.suffix.subset hin) (hx ▸ hno)
      · rw [h'.idle h0, hx]
        rfl
    · exact h'.front s hsm hin

/-- The fuel that is left suffices for the blocks that are left. -/
theorem Iterates.fuel {fuel : Nat} (h : Iterates q x xs r ms out zs)
    (hf : (x :: xs).length < fuel + 1) : out.remaining ≠ 0 → zs.length < fuel := by
  intro hne
  rcases h.listed with rfl | ⟨-, h0⟩
  · simpa using hf
  · exact absurd h0 hne

/-- **The whole loop.** With one unit of fuel per listed block and one
more, it stops because it is done or because the list is empty. -/
theorem sparseLoop_sweeps : ∀ (fuel : Nat) (q : HybridRangeBlockQueue) (r d : Nat)
    (masks : List DeliveryMask) (xs : List Nat),
    (∃ ys, retryWork.Shape q.blocks q.retryBlocks ys) →
    sparseWork.Shape q.blocks q.sparseBlocks xs → (r ≠ 0 → xs.length < fuel) →
    ∃ ms zs, (sparseLoop fuel q r d masks).2.2 = masks ++ ms ∧
      (sparseLoop fuel q r d masks).2.1 = d + (maskSeqs ms).length ∧
      Sweeps r xs ms q (sparseLoop fuel q r d masks).1 zs := by
  intro fuel
  induction fuel with
  | zero =>
    intro q r d masks xs _ hs hf
    refine ⟨[], xs, by simp [sparseLoop], by simp [sparseLoop], .refl hs (.inl ?_)⟩
    by_contra hr0
    exact absurd (hf hr0) (by omega)
  | succ fuel ih =>
    intro q r d masks xs hr hs hf
    by_cases hr0 : r = 0
    · rw [sparseLoop, if_pos hr0]
      exact ⟨[], xs, by simp, by simp, .refl hs (.inl hr0)⟩
    cases xs with
    | nil =>
      rw [sparseLoop_nil hs]
      exact ⟨[], [], by simp, by simp, .refl hs (.inr rfl)⟩
    | cons x xs =>
      obtain ⟨blk, ms, zs, hblk, hdr, hit⟩ := sparse_iteration hr hs r d masks
      rw [sparseLoop_cons hs hr0 hblk]
      obtain ⟨ns, zs', h1, h2, h3⟩ := ih _ _ (deliverBlock x blk r d masks).delivered
        (deliverBlock x blk r d masks).masks zs (hit.moves.shape ⟨hr, _, hs⟩).retry hit.shape
        (hit.fuel (hf hr0))
      refine ⟨ms ++ ns, zs', ?_, ?_, hit.sweeps hs hdr.fits hr0 h3⟩
      · rw [h1, hdr.masks, List.append_assoc]
      · rw [h2, hdr.delivered, maskSeqs_append, length_append]
        exact Nat.add_assoc _ _ _

/-- More fuel changes nothing. -/
theorem sparseLoop_enough (extra : Nat) : ∀ (fuel : Nat) (q : HybridRangeBlockQueue) (r d : Nat)
    (masks : List DeliveryMask) (xs : List Nat),
    (∃ ys, retryWork.Shape q.blocks q.retryBlocks ys) →
    sparseWork.Shape q.blocks q.sparseBlocks xs → (r ≠ 0 → xs.length < fuel) →
    sparseLoop (fuel + extra) q r d masks = sparseLoop fuel q r d masks := by
  intro fuel
  induction fuel with
  | zero =>
    intro q r d masks xs _ _ hf
    have hr0 : r = 0 := by
      by_contra hr
      exact absurd (hf hr) (by omega)
    cases extra with
    | zero => rfl
    | succ extra =>
      have hnow : sparseLoop (extra + 1) q r d masks = (q, d, masks) := by
        rw [sparseLoop, if_pos hr0]
      rw [Nat.zero_add, hnow, sparseLoop]
  | succ fuel ih =>
    intro q r d masks xs hr hs hf
    rw [Nat.add_right_comm]
    by_cases hr0 : r = 0
    · rw [sparseLoop, sparseLoop, if_pos hr0, if_pos hr0]
    cases xs with
    | nil => rw [sparseLoop_nil hs, sparseLoop_nil hs]
    | cons x xs =>
      obtain ⟨blk, ms, zs, hblk, -, hit⟩ := sparse_iteration hr hs r d masks
      rw [sparseLoop_cons hs hr0 hblk, sparseLoop_cons hs hr0 hblk]
      exact ih _ _ _ _ zs (hit.moves.shape ⟨hr, _, hs⟩).retry hit.shape (hit.fuel (hf hr0))

/-- The loop of `deliver_sparse_masks` ends. -/
theorem Shape.sparseLoop_ends (hq : q.Shape) (r : Nat) (masks : List DeliveryMask) (extra : Nat) :
    sparseLoop (q.blocks.length + 1 + extra) q r 0 masks = q.deliverSparseMasks r masks := by
  obtain ⟨xs, hs⟩ := hq.sparse
  have hlen : xs.length ≤ q.blocks.length := hs.rep.holds.length_le
  exact sparseLoop_enough extra _ q r 0 masks xs hq.retry hs (fun _ => by omega)

theorem Sweeps.hands (h : Sweeps r xs ms q q' zs) (hnd : xs.Nodup) : Hands r ms q q' := by
  have hlen := congrArg List.length h.taken
  rw [length_take] at hlen
  refine ⟨h.moves, h.fits, fun s hsm => ?_, ?_, by omega, fun hlt s => ?_⟩
  · rw [h.taken] at hsm
    exact (mem_sparseSeqs.mp (mem_of_mem_take hsm)).2
  · rw [h.taken]
    refine ((sparseSeqs_ascend hnd).imp fun {s t} hlt heq => ?_).sublist (take_sublist _ _)
    exact absurd (hlt (by rw [heq])) (by omega)
  · rw [← Bool.not_eq_true, ← mem_sparseSeqs_of_shape h.shape, h.order,
      drop_of_length_le (by omega)]
    exact not_mem_nil

/-- **`deliver_sparse_masks`.** -/
theorem deliverSparseMasks_hands (hq : q.Shape) (r : Nat) :
    ∃ ms, (q.deliverSparseMasks r []).2.2 = ms ∧
      (q.deliverSparseMasks r []).2.1 = (maskSeqs ms).length ∧
      Hands r ms q (q.deliverSparseMasks r []).1 := by
  obtain ⟨xs, hs⟩ := hq.sparse
  have hlen : xs.length ≤ q.blocks.length := hs.rep.holds.length_le
  obtain ⟨ms, zs, h1, h2, h3⟩ := sparseLoop_sweeps (q.blocks.length + 1) q r 0 [] xs hq.retry hs
    (fun _ => by omega)
  exact ⟨ms, h1, h2.trans (Nat.zero_add _), h3.hands hs.rep.nodup⟩

end Loop

end HybridRangeBlockQueue

end Aurum.Queue
