import Aurum.Queue.Deliver

/-!
# Queue — `retry_all_now`

Every iteration empties the retry plane of one listed block into its
sparse plane; the loop stops when the retry list is empty, so no retry
bit is left.
-/

namespace Aurum.Queue

open Aurum.Bits Aurum.Intrusive Aurum.Kernels List MsgBlock

namespace HybridRangeBlockQueue

open Nat List

/-! ## One block -/

/-- What the word loop does to the words `ws` of a block: their retry
bits become sparse-ready bits, and `moved` counts them (mod `2^32`). -/
structure Requeues (ws : List Nat) (acc acc' : MsgBlock × Nat) : Prop where
  retry : ∀ v, word acc'.1.retry v = if v ∈ ws then 0#64 else word acc.1.retry v
  sparse : ∀ v, word acc'.1.sparseReady v =
    if v ∈ ws then word acc.1.sparseReady v ||| word acc.1.retry v
    else word acc.1.sparseReady v
  flags : ∀ v, word acc'.1.redelivered v =
    if v ∈ ws then word acc.1.redelivered v ||| word acc.1.retry v
    else word acc.1.redelivered v
  planes : acc'.1.inflight = acc.1.inflight ∧ acc'.1.acked = acc.1.acked
  links : acc'.1.retryLink = acc.1.retryLink ∧ acc'.1.sparseLink = acc.1.sparseLink
  sums : acc'.1.retryWordMask = acc.1.retryWordMask ∧
    acc'.1.sparseWordMask = acc.1.sparseWordMask
  moved : acc'.2 % 2 ^ 32 =
    (acc.2 + (ws.map fun v => countOnes (word acc.1.retry v)).sum) % 2 ^ 32
  lt : acc.2 < 2 ^ 32 → acc'.2 < 2 ^ 32

theorem requeues_retryWord (acc : MsgBlock × Nat) {w : Nat} (hw : w < 4) :
    Requeues [w] acc (retryWord acc w) := by
  obtain ⟨blk, moved⟩ := acc
  unfold retryWord
  by_cases hz : word blk.retry w = 0#64
  · simp only [hz, if_true]
    refine ⟨fun v => ?_, fun v => ?_, fun v => ?_, ⟨rfl, rfl⟩, ⟨rfl, rfl⟩, ⟨rfl, rfl⟩,
      by simp [hz], id⟩
    all_goals
      by_cases hv : v = w
      · simp [hv, hz]
      · simp [hv]
  · simp only [hz, if_false]
    refine ⟨fun v => ?_, fun v => ?_, fun v => ?_, ⟨rfl, rfl⟩, ⟨rfl, rfl⟩, ⟨rfl, rfl⟩, by simp,
      fun _ => mod_lt _ (by decide)⟩
    all_goals
      dsimp only
      rw [word_updateWord]
      by_cases hv : v = w
      · simp [hv, hw]
      · simp [hv, Ne.symm hv]

theorem Requeues.cons {w : Nat} {ws : List Nat} {acc acc' acc'' : MsgBlock × Nat}
    (hnew : w ∉ ws) (h : Requeues [w] acc acc') (h' : Requeues ws acc' acc'') :
    Requeues (w :: ws) acc acc'' := by
  have hsame : ∀ v ∈ ws, word acc'.1.retry v = word acc.1.retry v := by
    intro v hv
    have hne : v ≠ w := fun he => hnew (he ▸ hv)
    rw [h.retry, if_neg (by simpa using hne)]
  refine ⟨fun v => ?_, fun v => ?_, fun v => ?_, ?_, ?_, ?_, ?_, fun hlt => h'.lt (h.lt hlt)⟩
  · rw [h'.retry, h.retry]
    by_cases hv : v ∈ ws <;> by_cases hvw : v = w <;> simp [hv, hvw]
  · rw [h'.sparse, h.sparse, h.retry]
    by_cases hv : v ∈ ws
    · have hne : v ≠ w := fun he => hnew (he ▸ hv)
      simp [hv, hne]
    · by_cases hvw : v = w <;> simp [hv, hvw, hnew]
  · rw [h'.flags, h.flags, h.retry]
    by_cases hv : v ∈ ws
    · have hne : v ≠ w := fun he => hnew (he ▸ hv)
      simp [hv, hne]
    · by_cases hvw : v = w <;> simp [hv, hvw, hnew]
  · exact ⟨h'.planes.1.trans h.planes.1, h'.planes.2.trans h.planes.2⟩
  · exact ⟨h'.links.1.trans h.links.1, h'.links.2.trans h.links.2⟩
  · exact ⟨h'.sums.1.trans h.sums.1, h'.sums.2.trans h.sums.2⟩
  · have hmap : (ws.map fun v => countOnes (word acc'.1.retry v)) =
        ws.map fun v => countOnes (word acc.1.retry v) :=
      map_congr_left fun v hv => by rw [hsame v hv]
    have hone := h.moved
    rw [h'.moved, hmap, add_mod, hone, ← add_mod]
    simp [add_assoc]

theorem requeues_foldl : ∀ (ws : List Nat) (acc : MsgBlock × Nat), ws.Nodup →
    (∀ w ∈ ws, w < 4) → Requeues ws acc (ws.foldl retryWord acc) := by
  intro ws
  induction ws with
  | nil =>
    intro acc _ _
    exact ⟨by simp, by simp, by simp, ⟨rfl, rfl⟩, ⟨rfl, rfl⟩, ⟨rfl, rfl⟩, by simp, id⟩
  | cons w ws ih =>
    intro acc hnd hws
    rw [nodup_cons] at hnd
    exact (requeues_retryWord acc (hws w (by simp))).cons hnd.1
      (ih (retryWord acc w) hnd.2 fun v hv => hws v (by simp [hv]))

/-- The retry messages of block `b`. -/
def retrySeqs (b : Nat) (blk : MsgBlock) : List Nat :=
  ((range 256).filter fun i => bitAt blk.retry i).map (256 * b + ·)

theorem mem_retrySeqs {b : Nat} {blk : MsgBlock} {i : Nat} (hi : i < 256) :
    256 * b + i ∈ retrySeqs b blk ↔ bitAt blk.retry i = true := by
  simp [retrySeqs, hi]

theorem div_of_mem_retrySeqs {b : Nat} {blk : MsgBlock} {s : Nat} (hs : s ∈ retrySeqs b blk) :
    s / 256 = b := by
  simp only [retrySeqs, mem_map, mem_filter, mem_range] at hs
  omega

theorem nodup_retrySeqs (b : Nat) (blk : MsgBlock) : (retrySeqs b blk).Nodup := by
  refine (nodup_range.filter _).map ?_
  intro i j hij
  simpa using hij

theorem length_retrySeqs (b : Nat) (blk : MsgBlock) : (retrySeqs b blk).length =
      ((range 4).map fun w => countOnes (word blk.retry w)).sum := by
  rw [retrySeqs, length_map, ← countP_eq_length_filter]
  exact countP_bitAt blk.retry 4

/-- `retryBlock` is the word loop and two summary writes. -/
theorem retryBlock_requeues (blk : MsgBlock) (moved : Nat) :
    ∃ acc, Requeues (range 4) (blk, moved) acc ∧
      retryBlock blk moved =
        ({ acc.1 with
            retryWordMask := 0#8
            sparseWordMask := acc.1.sparseWordMask ||| blk.retryWordMask }, acc.2) := by
  refine ⟨(range 4).foldl retryWord (blk, moved), requeues_foldl (range 4)
    (blk, moved) nodup_range fun _ hw => mem_range.mp hw, ?_⟩
  rw [retryBlock, show WORDS_PER_BLOCK = 4 from rfl]

/-- **One block of `retry_all_now`.** -/
theorem retryBlock_bits (b : Nat) (blk : MsgBlock) (moved : Nat) (p : MessageState) {i : Nat}
    (hi : i < 256) :
    bitAt ((retryBlock blk moved).1.plane p) i =
      moveBit (some .retry) .sparseReady (decide (256 * b + i ∈ retrySeqs b blk)) p
        (bitAt (blk.plane p) i) := by
  obtain ⟨acc, h, heq⟩ := retryBlock_requeues blk moved
  have hword : i / 64 ∈ range 4 := mem_range.mpr (by omega)
  have hretry : bitAt acc.1.retry i = false := by
    rw [bitAt, h.retry, if_pos hword]
    simp
  have hsparse : bitAt acc.1.sparseReady i =
      (bitAt blk.sparseReady i || bitAt blk.retry i) := by
    rw [bitAt, h.sparse, if_pos hword, BitVec.getLsbD_or]
    rfl
  have hdec : decide (256 * b + i ∈ retrySeqs b blk) = bitAt blk.retry i := by
    rw [Bool.eq_iff_iff, decide_eq_true_eq]
    exact mem_retrySeqs hi
  rw [hdec, heq]
  cases p with
  | ready => simp [moveBit, plane]
  | inflight =>
    rw [moveBit_other (by simp) (by simp)]
    simp only [plane, h.planes.1]
  | acked =>
    rw [moveBit_other (by simp) (by simp)]
    simp only [plane, h.planes.2]
  | retry =>
    rw [moveBit_src (by simp)]
    simpa [plane] using hretry
  | sparseReady =>
    rw [moveBit_dst]
    exact hsparse

theorem retryBlock_flags (b : Nat) (blk : MsgBlock) (moved : Nat) {i : Nat} (hi : i < 256) :
    bitAt (retryBlock blk moved).1.redelivered i =
      (bitAt blk.redelivered i || decide (256 * b + i ∈ retrySeqs b blk)) := by
  obtain ⟨acc, h, heq⟩ := retryBlock_requeues blk moved
  have hword : i / 64 ∈ range 4 := mem_range.mpr (by omega)
  have hdec : decide (256 * b + i ∈ retrySeqs b blk) = bitAt blk.retry i := by
    rw [Bool.eq_iff_iff, decide_eq_true_eq]
    exact mem_retrySeqs hi
  rw [hdec, heq]
  dsimp only
  rw [bitAt, h.flags, if_pos hword, BitVec.getLsbD_or]
  rfl

theorem retryBlock_links (blk : MsgBlock) (moved : Nat) :
    (retryBlock blk moved).1.retryLink = blk.retryLink ∧
      (retryBlock blk moved).1.sparseLink = blk.sparseLink := by
  obtain ⟨acc, h, heq⟩ := retryBlock_requeues blk moved
  rw [heq]
  exact h.links

/-- The summaries afterwards: nothing to retry, and the retried words
are sparse words now. -/
theorem retryBlock_sums {blk : MsgBlock} (moved : Nat) (hr : Summarises blk.retryWordMask blk.retry)
    (hs : Summarises blk.sparseWordMask blk.sparseReady) :
    (retryBlock blk moved).1.retryWordMask = 0#8 ∧
    Summarises (retryBlock blk moved).1.retryWordMask (retryBlock blk moved).1.retry ∧
    (retryBlock blk moved).1.sparseWordMask = blk.sparseWordMask ||| blk.retryWordMask ∧
    Summarises (retryBlock blk moved).1.sparseWordMask (retryBlock blk moved).1.sparseReady := by
  obtain ⟨acc, h, heq⟩ := retryBlock_requeues blk moved
  rw [heq]
  have hmask : acc.1.sparseWordMask = blk.sparseWordMask := h.sums.2
  refine ⟨rfl, fun w => ?_, by rw [hmask], fun w => ?_⟩
  · have hzero : word acc.1.retry w = 0#64 := by
      by_cases hw : w < 4
      · rw [h.retry, if_pos (mem_range.mpr hw)]
      · exact word_of_ge (by omega)
    simp [hzero]
  · dsimp only
    rw [hmask, BitVec.getLsbD_or, Bool.or_eq_true, hs w, hr w]
    by_cases hw : w < 4
    · rw [h.sparse, if_pos (mem_range.mpr hw), ne_eq, ne_eq, ne_eq, BitVec.or_eq_zero_iff]
      tauto
    · rw [word_of_ge (show 4 ≤ w by omega), word_of_ge (show 4 ≤ w by omega),
        word_of_ge (show 4 ≤ w by omega)]
      simp

theorem retryBlock_moved (b : Nat) (blk : MsgBlock) {moved : Nat} (hlt : moved < 2 ^ 32) :
    (retryBlock blk moved).2 = (moved + (retrySeqs b blk).length) % 2 ^ 32 := by
  obtain ⟨acc, h, heq⟩ := retryBlock_requeues blk moved
  have hmoved := h.moved
  rw [mod_eq_of_lt (h.lt hlt)] at hmoved
  rw [heq, length_retrySeqs]
  exact hmoved

/-! ## The loop -/

section Loop

variable {q : HybridRangeBlockQueue} {x : Nat} {xs : List Nat} {blk : MsgBlock}

theorem bit_retry_of_empty (h : retryWork.Shape q.blocks q.retryBlocks []) (s : Nat) :
    q.bit .retry s = false := by
  have hmask : (blockAt q.blocks (s / 256)).retryWordMask = 0#8 := by
    by_contra hne
    have := (h.mem (s / 256)).mpr hne
    simp at this
  exact (h.sums (s / 256)).eq_zero.mp hmask _

/-- The queue update of one iteration, on the popped block `x`. -/
def retryStep (q : HybridRangeBlockQueue) (x : Nat) (blk : MsgBlock) : HybridRangeBlockQueue :=
  (q.updateBlock x fun _ => blk).ensureSparseListed x

theorem retryStep_shape {ys : List Nat} (hx : x < q.blocks.length)
    (hr : retryWork.ShapeBut q.blocks q.retryBlocks xs x)
    (hs : sparseWork.Shape q.blocks q.sparseBlocks ys)
    (hlinks : blk.retryLink = (blockAt q.blocks x).retryLink ∧
      blk.sparseLink = (blockAt q.blocks x).sparseLink)
    (hretry : blk.retryWordMask = 0#8 ∧ Summarises blk.retryWordMask blk.retry)
    (hsparse : blk.sparseWordMask ≠ 0#8 ∧ Summarises blk.sparseWordMask blk.sparseReady) :
    retryWork.Shape (q.retryStep x blk).blocks (q.retryStep x blk).retryBlocks xs ∧
    ∃ zs, sparseWork.Shape (q.retryStep x blk).blocks (q.retryStep x blk).sparseBlocks
      (ys ++ zs) := by
  have hat : blockAt (q.blocks.modify x fun _ => blk) x = blk := by
    rw [blockAt_modify, if_pos ⟨rfl, hx⟩]
  have hr1 : retryWork.Shape (q.blocks.modify x fun _ => blk) q.retryBlocks xs := by
    refine (hr.modify (f := fun _ => blk) hlinks.1).idle ?_ ?_
    · rw [hat]
      exact hretry.1
    · rw [hat]
      exact hretry.2
  rw [retryStep, ensureSparseListed_eq]
  refine ⟨?_, hs.mark_back hx hlinks.2 hsparse.1 hsparse.2⟩
  exact hr1.other sparseWork (fun _ _ => rfl) (sparseWork.sameBut_ensure _ _ _)

theorem replaces_retryStep (hx : x < q.blocks.length) : Replaces x blk q (q.retryStep x blk) := by
  rw [retryStep, ensureSparseListed_eq]
  exact (replaces_updateBlock hx fun _ => blk).relinks
    (relinks_of_sameBut sparseWork (sparseWork.sameBut_ensure _ _ _) rfl rfl rfl)

/-- `self.retry_blocks.pop_front(&mut self.blocks)` on the queue. -/
def popRetry (q : HybridRangeBlockQueue) : HybridRangeBlockQueue :=
  { q with
    retryBlocks := (q.retryBlocks.popFront retrySlot q.blocks).2.1
    blocks := (q.retryBlocks.popFront retrySlot q.blocks).2.2 }

theorem retryLoop_cons (hr : retryWork.Shape q.blocks q.retryBlocks (x :: xs))
    (hblk : q.popRetry.blocks[x]? = some blk) (fuel moved : Nat) :
    retryLoop (fuel + 1) q moved =
      retryLoop fuel (q.popRetry.retryStep x (retryBlock blk moved).1)
        (retryBlock blk moved).2 := by
  have hpop : q.retryBlocks.popFront retrySlot q.blocks = _ := popFront_cons hr.rep
  rw [retryLoop, hpop]
  rw [popRetry] at hblk
  dsimp only at hblk ⊢
  rw [hblk]
  rfl

/-- **One iteration**: block `x` is popped, its retry bits become sparse
bits, and it is put on the sparse list, behind the blocks listed there. -/
theorem retry_iteration {ys : List Nat} (hr : retryWork.Shape q.blocks q.retryBlocks (x :: xs))
    (hs : sparseWork.Shape q.blocks q.sparseBlocks ys) (moved : Nat) :
    ∃ q' S moved', (∀ fuel, retryLoop (fuel + 1) q moved = retryLoop fuel q' moved') ∧
      Moves (some .retry) .sparseReady S q q' ∧ S.Nodup ∧ (∀ s ∈ S, q.bit .retry s = true) ∧
      (moved < 2 ^ 32 → moved' = (moved + S.length) % 2 ^ 32) ∧
      retryWork.Shape q'.blocks q'.retryBlocks xs ∧
      ∃ zs, sparseWork.Shape q'.blocks q'.sparseBlocks (ys ++ zs) := by
  have hpop : retryWork.ShapeBut q.popRetry.blocks q.popRetry.retryBlocks xs x := hr.popFront
  have hs1 : sparseWork.Shape q.popRetry.blocks q.popRetry.sparseBlocks ys :=
    hs.other retryWork (fun _ _ => rfl) (sameBut_popFront q.blocks q.retryBlocks)
  have hrel : Relinks q q.popRetry :=
    relinks_of_sameBut retryWork (sameBut_popFront q.blocks q.retryBlocks) rfl rfl rfl
  have hx : x < q.blocks.length := hr.rep.bound x (by simp)
  have hx1 : x < q.popRetry.blocks.length := hrel.len.symm ▸ hx
  obtain ⟨blk, hblk, hblk', hsame⟩ := hrel.block hx
  have hrmask : (retryWork.wordMask blk) ≠ 0#8 := by
    rw [← hsame _ retryWork.wordMask_unlink]
    exact (hr.mem x).mp (by simp)
  have hrsum : Summarises blk.retryWordMask blk.retry := by
    have h0 := hr.sums x
    rwa [hsame _ retryWork.wordMask_unlink, hsame _ retryWork.words_unlink] at h0
  obtain ⟨hz, hz', hmask, hsum⟩ := retryBlock_sums moved hrsum
    (show Summarises blk.sparseWordMask blk.sparseReady from hblk' ▸ hs1.sums x)
  have hne : (retryBlock blk moved).1.sparseWordMask ≠ 0#8 := by
    rw [hmask]
    exact fun hc => hrmask (BitVec.or_eq_zero_iff.mp hc).2
  have hshape := retryStep_shape hx1 hpop hs1
    (by rw [hblk']; exact retryBlock_links blk moved) ⟨hz, hz'⟩ ⟨hne, hsum⟩
  refine ⟨_, _, _, fun fuel => retryLoop_cons hr hblk fuel moved,
    (hrel.replaces (replaces_retryStep hx1)).moves
    (fun _ => ⟨⟨xs, hshape.1⟩, _, hshape.2.choose_spec⟩) (fun s => div_of_mem_retrySeqs)
    (fun p i hi => ?_) (fun i hi => ?_), nodup_retrySeqs x blk, fun s hsm => ?_,
    retryBlock_moved x blk, hshape⟩
  · rw [hsame (·.plane p) fun b => b.plane_unlink p]
    exact retryBlock_bits x blk moved p hi
  · rw [hsame redelivered fun _ => rfl, retryBlock_flags x blk moved hi]
    simp
  · have hdiv := div_of_mem_retrySeqs hsm
    rw [show s = 256 * x + s % 256 by omega, mem_retrySeqs (by omega)] at hsm
    rw [bit, hdiv, hsame (·.plane .retry) fun b => b.plane_unlink .retry]
    exact hsm

theorem retryLoop_nil (hr : retryWork.Shape q.blocks q.retryBlocks []) (fuel moved : Nat) :
    retryLoop (fuel + 1) q moved = (q, moved) := by
  have hpop : q.retryBlocks.popFront retrySlot q.blocks = _ := popFront_nil hr.rep
  rw [retryLoop, hpop]

/-- **The whole loop**: some messages `S` were moved, all of them retry
messages, no retry bit is left, and blocks were added to the sparse list
at its end. -/
theorem retryLoop_moves : ∀ (xs : List Nat) (fuel : Nat) (q : HybridRangeBlockQueue)
    (moved : Nat) (ys : List Nat), retryWork.Shape q.blocks q.retryBlocks xs →
    sparseWork.Shape q.blocks q.sparseBlocks ys → xs.length < fuel → moved < 2 ^ 32 →
    ∃ S, Moves (some .retry) .sparseReady S q (retryLoop fuel q moved).1 ∧ S.Nodup ∧
      (∀ s ∈ S, q.bit .retry s = true) ∧
      (∀ s, (retryLoop fuel q moved).1.bit .retry s = false) ∧
      (retryLoop fuel q moved).2 = (moved + S.length) % 2 ^ 32 ∧
      ∃ zs, sparseWork.Shape (retryLoop fuel q moved).1.blocks
        (retryLoop fuel q moved).1.sparseBlocks (ys ++ zs) := by
  intro xs
  induction xs with
  | nil =>
    intro fuel q moved ys hr hs hf hlt
    obtain ⟨fuel, rfl⟩ : ∃ f, fuel = f + 1 := ⟨fuel - 1, by simp at hf; omega⟩
    rw [retryLoop_nil hr]
    exact ⟨[], Moves.refl q, by simp, by simp, bit_retry_of_empty hr,
      (mod_eq_of_lt hlt).symm, [], by rw [append_nil]; exact hs⟩
  | cons x xs ih =>
    intro fuel q moved ys hr hs hf hlt
    obtain ⟨fuel, rfl⟩ : ∃ f, fuel = f + 1 := ⟨fuel - 1, by omega⟩
    obtain ⟨q', S', moved', hround, hmv, hnodup, hwere, hmoved, hr2, zs, hzs⟩ :=
      retry_iteration hr hs moved
    have hlt2 : moved' < 2 ^ 32 := by
      rw [hmoved hlt]
      exact mod_lt _ (by decide)
    obtain ⟨S, h1, h2, h3, h4, h5, zs', hzs'⟩ := ih fuel q' moved' _ hr2 hzs
      (by simpa using hf) hlt2
    have hlater : ∀ s ∈ S, s ∉ S' ∧ q.bit .retry s = true := by
      intro s hsm
      have hbits := hmv.bits .retry s
      rw [moveBit_src (by simp), h3 s hsm] at hbits
      obtain ⟨g1, g2⟩ := Bool.and_eq_true_iff.mp hbits.symm
      exact ⟨by simpa using g2, g1⟩
    rw [hround]
    refine ⟨S' ++ S, hmv.trans (by simp) h1, ?_, ?_, h4, ?_, zs ++ zs',
      by rw [← append_assoc]; exact hzs'⟩
    · rw [nodup_append]
      refine ⟨hnodup, h2, ?_⟩
      rintro s hsx t hst rfl
      exact (hlater s hst).1 hsx
    · intro s hsm
      rcases mem_append.mp hsm with hsm | hsm
      · exact hwere s hsm
      · exact (hlater s hsm).2
    · rw [h5, hmoved hlt, length_append, mod_add_mod, add_assoc]

/-- One unit of fuel per listed block and one more is enough. -/
theorem retryLoop_enough (extra : Nat) : ∀ (xs : List Nat) (fuel : Nat)
    (q : HybridRangeBlockQueue) (moved : Nat), retryWork.Shape q.blocks q.retryBlocks xs →
    (∃ ys, sparseWork.Shape q.blocks q.sparseBlocks ys) → xs.length < fuel →
    retryLoop (fuel + extra) q moved = retryLoop fuel q moved := by
  intro xs
  induction xs with
  | nil =>
    intro fuel q moved hr _ hf
    obtain ⟨fuel, rfl⟩ : ∃ f, fuel = f + 1 := ⟨fuel - 1, by simp at hf; omega⟩
    rw [add_right_comm, retryLoop_nil hr, retryLoop_nil hr]
  | cons x xs ih =>
    intro fuel q moved hr hs hf
    obtain ⟨fuel, rfl⟩ : ∃ f, fuel = f + 1 := ⟨fuel - 1, by omega⟩
    obtain ⟨ys, hs⟩ := hs
    obtain ⟨q', S', moved', hround, -, -, -, -, hr2, zs, hzs⟩ := retry_iteration hr hs moved
    rw [add_right_comm, hround, hround]
    exact ih fuel _ _ hr2 ⟨_, hzs⟩ (by simpa using hf)

/-- The `loop` of `retry_all_now` ends. -/
theorem Shape.retryLoop_ends (hq : q.Shape) (extra : Nat) :
    retryLoop (q.blocks.length + 1 + extra) q 0 = retryLoop (q.blocks.length + 1) q 0 := by
  obtain ⟨xs, hr⟩ := hq.retry
  have hlen := hr.rep.holds.length_le
  exact retryLoop_enough extra xs _ q 0 hr hq.sparse (by omega)

/-- **`retry_all_now`** moves exactly the retry messages. -/
theorem retryAllNow_moves (hq : q.Shape) :
    ∃ S, Moves (some .retry) .sparseReady S q q.retryAllNow.1 ∧ S.Nodup ∧
      (∀ s, s ∈ S ↔ q.bit .retry s = true) ∧ q.retryAllNow.2 = S.length % 2 ^ 32 := by
  obtain ⟨xs, hr⟩ := hq.retry
  obtain ⟨ys, hs⟩ := hq.sparse
  have hlen := hr.rep.holds.length_le
  obtain ⟨S, h1, h2, h3, h4, h5, -⟩ := retryLoop_moves xs (q.blocks.length + 1) q 0 ys hr hs
    (by omega) (by decide)
  refine ⟨S, h1.setStats _, h2, fun s => ⟨h3 s, fun hs => ?_⟩,
    h5.trans (by rw [zero_add])⟩
  by_contra hnot
  have hbits := h1.bits .retry s
  rw [moveBit_src (by simp), h4 s, hs] at hbits
  simp [hnot] at hbits

end Loop

end HybridRangeBlockQueue

end Aurum.Queue
