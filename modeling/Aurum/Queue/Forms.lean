import Aurum.Queue.Order

/-!
# Queue — settling a range, its words, its messages

A range can be settled as a whole, word by word with masks, or message by
message. All of these lead to the same queue. For an acknowledgement the
queue is determined by the messages acknowledged and their number
(`Acks`). For a requeue the masks of one block are brought into the form
the range has: the updates of the block first, then one
`ensure_retry_listed`, which the others find done.
-/

namespace Aurum.Queue

open Aurum.Bits Aurum.Intrusive Aurum.Kernels DeliveryMask BitVec
open List hiding Vector

/-- The block without the two bitsets an acknowledgement writes. -/
def MsgBlock.sansAck (b : MsgBlock) : MsgBlock :=
  { b with acked := Vector.replicate 4 0#64, inflight := Vector.replicate 4 0#64 }

theorem MsgBlock.eq_of_sansAck {b b' : MsgBlock} (h : b.sansAck = b'.sansAck)
    (hacked : b.acked = b'.acked) (hinflight : b.inflight = b'.inflight) : b = b' := by
  cases b
  cases b'
  simp_all [MsgBlock.sansAck]

/-- Two bitsets of a block with the same bits. -/
theorem ext_bitAt {words words' : Vector Word 4}
    (h : ∀ i < 256, bitAt words i = bitAt words' i) : words = words' := by
  refine ext_word fun w hw => eq_of_getLsbD_eq fun i hi => ?_
  have hbit := h (64 * w + i) (by omega)
  rwa [bitAt, bitAt, show (64 * w + i) / 64 = w by omega,
    show (64 * w + i) % 64 = i by omega] at hbit

namespace HybridRangeBlockQueue

open BitVec

/-! ## The masks of a range -/

/-- The part of `[start, stop)` in word `w`, counted from message 0. -/
def wordMask (start stop w : Nat) : DeliveryMask :=
  ⟨w / 4, w % 4,
    (allOnes 64 <<< (start - 64 * w)) &&& ~~~(allOnes 64 <<< (stop - 64 * w))⟩

/-- The masks of the words a range touches, ascending. -/
def wordMasks (start len : Nat) : List DeliveryMask :=
  if len = 0 then []
  else (List.range' (start / 64) ((start + len - 1) / 64 + 1 - start / 64)).map
    (wordMask start (start + len))

variable {i start : Nat}

theorem getLsbD_wordMask (start stop w : Nat) (hi : i < 64) :
    (wordMask start stop w).mask.getLsbD i = true ↔ start ≤ 64 * w + i ∧ 64 * w + i < stop := by
  have hones : ∀ k, (allOnes 64 <<< k).getLsbD i = decide (k ≤ i) := by
    intro k
    rw [getLsbD_shiftLeft, getLsbD_allOnes]
    by_cases hk : k ≤ i
    · simp [hi, hk, show i - k < 64 by omega]
    · simp [hk]
  rw [wordMask, getLsbD_and, getLsbD_not, hones, hones]
  simp only [hi, decide_true, Bool.true_and, Bool.and_eq_true, decide_eq_true_eq,
    Bool.not_eq_true', decide_eq_false_iff_not]
  omega

theorem mem_wordMask {stop w s : Nat} :
    s ∈ (wordMask start stop w).seqs ↔ s / 64 = w ∧ start ≤ s ∧ s < stop := by
  have hw : (wordMask start stop w).word < 4 := Nat.mod_lt _ (by decide)
  rw [mem_seqs hw, getLsbD_wordMask start stop w (Nat.mod_lt s (by decide))]
  simp only [wordMask]
  omega

theorem wordMask_sorted (start stop w : Nat) : (wordMask start stop w).seqs.Pairwise (· < ·) := by
  refine (positions_sorted _).map _ fun i j hij => ?_
  simpa [seqOfBit] using hij

/-- **The masks name the messages of the range.** -/
theorem maskSeqs_wordMasks (start len : Nat) :
    maskSeqs (wordMasks start len) = List.range' start len := by
  unfold wordMasks
  by_cases h0 : len = 0
  · simp [h0]
  rw [if_neg h0, maskSeqs, flatMap_map]
  have hsorted : ((List.range' (start / 64) ((start + len - 1) / 64 + 1 - start / 64)).flatMap
      fun w => (wordMask start (start + len) w).seqs).Pairwise (· < ·) := by
    refine pairwise_flatMap.mpr ⟨fun w _ => wordMask_sorted _ _ w, ?_⟩
    refine (pairwise_lt_range' 1).imp fun {v w} hlt s hs t ht => ?_
    have h1 := (mem_wordMask.mp hs).1
    have h2 := (mem_wordMask.mp ht).1
    omega
  have hsorted' : (List.range' start len).Pairwise (· < ·) := pairwise_lt_range' 1
  refine List.Perm.eq_of_pairwise' hsorted hsorted' ?_
  refine (perm_ext_iff_of_nodup (hsorted.imp Nat.ne_of_lt) (hsorted'.imp Nat.ne_of_lt)).mpr
    fun s => ?_
  simp only [mem_flatMap, mem_wordMask, mem_range'_1]
  constructor
  · rintro ⟨w, -, -, hs⟩
    exact hs
  · intro hs
    exact ⟨s / 64, by omega, rfl, hs⟩

/-- Every mask lies in a block of the range, and none is empty. -/
theorem wordMasks_fit {len : Nat} {m : DeliveryMask} (hm : m ∈ wordMasks start len) :
    m.word < 4 ∧ m.mask ≠ 0#64 ∧ start / 256 ≤ m.block ∧ m.block ≤ (start + len - 1) / 256 := by
  unfold wordMasks at hm
  split at hm
  · cases hm
  · next h0 =>
    obtain ⟨w, hw, rfl⟩ := mem_map.mp hm
    rw [mem_range'_1] at hw
    have hbit :=
      getLsbD_wordMask start (start + len) w (i := max start (64 * w) - 64 * w) (by omega)
    refine ⟨Nat.mod_lt _ (by decide), fun hz => ?_, ?_, ?_⟩
    · rw [hz, getLsbD_zero] at hbit
      exact absurd (hbit.mpr (by omega)) (by simp)
    · simp only [wordMask]
      omega
    · simp only [wordMask]
      omega

/-! ## Acknowledging -/

section Acks

variable {q q' q'' : HybridRangeBlockQueue} {S T : List Nat} {n k : Nat}

/-- Of the blocks only the two bitsets changed that an acknowledgement
writes, of the rest only the total. -/
structure AckFrame (n : Nat) (q q' : HybridRangeBlockQueue) : Prop where
  blocks : ∀ i, (blockAt q'.blocks i).sansAck = (blockAt q.blocks i).sansAck
  rest : q' = { q with
    blocks := q'.blocks
    stats := { q.stats with totalAcked := q.stats.totalAcked + n } }

theorem AckFrame.refl (q : HybridRangeBlockQueue) : AckFrame 0 q q := ⟨fun _ => rfl, rfl⟩

theorem AckFrame.trans (h : AckFrame n q q') (h' : AckFrame k q' q'') : AckFrame (n + k) q q'' := by
  refine ⟨fun i => (h'.blocks i).trans (h.blocks i), ?_⟩
  rw [h'.rest, h.rest]
  simp only [Nat.add_assoc]

theorem ackFrame_updateBlock (q : HybridRangeBlockQueue) (b : Nat) {f : MsgBlock → MsgBlock}
    (hf : ∀ blk, (f blk).sansAck = blk.sansAck) : AckFrame 0 q (q.updateBlock b f) := by
  refine ⟨fun i => ?_, rfl⟩
  rw [updateBlock, blockAt_modify]
  split
  · next h => rw [hf, h.1]
  · rfl

theorem ackFrame_forBlocks {step : Nat → Nat → Nat → HybridRangeBlockQueue → HybridRangeBlockQueue}
    (hstep : ∀ b bit take q, AckFrame 0 q (step b bit take q)) (stop : Nat) :
    ∀ (fuel seq : Nat) (q : HybridRangeBlockQueue),
      AckFrame 0 q (forBlocks step stop fuel seq q) :=
  forBlocks_rel AckFrame.refl AckFrame.trans hstep stop

/-- **The messages `S` were acknowledged, and `n` were counted.** -/
structure Acks (S : List Nat) (n : Nat) (q q' : HybridRangeBlockQueue) : Prop where
  moves : Moves (some .inflight) .acked S q q'
  frame : AckFrame n q q'

theorem Acks.trans (h : Acks S n q q') (h' : Acks T k q' q'') : Acks (S ++ T) (n + k) q q'' :=
  ⟨h.moves.trans (by simp) h'.moves, h.frame.trans h'.frame⟩

/-- **There is one such queue.** -/
theorem Acks.unique (h : Acks S n q q') (h' : Acks S n q q'') : q' = q'' := by
  have hbits : ∀ p s, q'.bit p s = q''.bit p s := fun p s => by
    rw [h.moves.bits, h'.moves.bits]
  -- bit for bit the two planes agree, the rest of a block was not touched
  have hplane : ∀ p i, (blockAt q'.blocks i).plane p = (blockAt q''.blocks i).plane p := by
    intro p i
    refine ext_bitAt fun j hj => ?_
    have hbit := hbits p (256 * i + j)
    rw [bit, bit, show (256 * i + j) / 256 = i by omega,
      show (256 * i + j) % 256 = j by omega] at hbit
    exact hbit
  have hblock : ∀ i, blockAt q'.blocks i = blockAt q''.blocks i := by
    intro i
    have hsans := (h.frame.blocks i).trans (h'.frame.blocks i).symm
    have hacked : (blockAt q'.blocks i).acked = _ := hplane .acked i
    have hinflight : (blockAt q'.blocks i).inflight = _ := hplane .inflight i
    exact MsgBlock.eq_of_sansAck hsans hacked hinflight
  have hblocks : q'.blocks = q''.blocks := by
    refine ext_getElem (h.moves.len.trans h'.moves.len.symm) fun i hi hi' => ?_
    have hat := hblock i
    rw [blockAt_of_getElem? (getElem?_eq_getElem hi),
      blockAt_of_getElem? (getElem?_eq_getElem hi')] at hat
    exact hat
  rw [h.frame.rest, h'.frame.rest, hblocks]

theorem acks_ackRange {len : Nat} (h : len ≠ 0 → start + len ≤ 256 * q.blocks.length) :
    Acks (List.range' start len) len q (q.ackRange start len) := by
  refine ⟨moves_ackRange h, ?_⟩
  unfold ackRange
  split
  · next h0 =>
    rw [h0]
    exact .refl q
  · have hloop := @ackFrame_forBlocks
      (fun b bit take q => q.updateBlock b fun blk =>
        { blk with
          acked := setRange blk.acked bit take
          inflight := clearRange blk.inflight bit take })
      (fun b bit take q => ackFrame_updateBlock q b fun _ => rfl) (start + len) len start q
    refine ⟨hloop.blocks, ?_⟩
    dsimp only
    rw [hloop.rest]
    rfl

theorem acks_ackMask {m : AckMask} (hb : m.block < q.blocks.length) (hw : m.word < 4) :
    Acks m.seqs (countOnes m.mask) q (q.ackMask m) := by
  refine ⟨moves_ackMask hb hw, fun i => ?_, rfl⟩
  change (blockAt (q.updateBlock m.block _).blocks i).sansAck = _
  refine (ackFrame_updateBlock q m.block fun blk => ?_).blocks i
  rfl

theorem acks_ackMasks : ∀ (ms : List AckMask) (q : HybridRangeBlockQueue),
    (∀ m ∈ ms, m.block < q.blocks.length ∧ m.word < 4) →
    Acks (maskSeqs ms) (maskSeqs ms).length q (ms.foldl ackMask q) := by
  intro ms
  induction ms with
  | nil => exact fun q _ => ⟨.refl q, .refl q⟩
  | cons m ms ih =>
    intro q hms
    have hone := acks_ackMask (q := q) (hms m (by simp)).1 (hms m (by simp)).2
    have hrest := ih (q.ackMask m) fun m' hm' => by
      rw [hone.moves.len]
      exact hms m' (by simp [hm'])
    have hall := hone.trans hrest
    rw [← length_seqs, ← length_append] at hall
    exact hall

/-- Message by message is mask by mask. -/
theorem foldl_ackId : ∀ (S : List Nat) (q : HybridRangeBlockQueue),
    (∀ s ∈ S, s < q.nextSeq) → S.foldl ackId q = (S.map maskOf).foldl ackMask q := by
  intro S
  induction S with
  | nil => exact fun _ _ => rfl
  | cons s S ih =>
    intro q hS
    rw [foldl_cons, map_cons, foldl_cons, ackId_eq q (hS s (by simp))]
    exact ih _ fun t ht => hS t (by simp [ht])

theorem maskSeqs_maskOf (S : List Nat) : maskSeqs (S.map maskOf) = S := by
  rw [maskSeqs, flatMap_map]
  simp only [seqs_maskOf]
  exact flatMap_singleton' S

end Acks

/-! ## Requeueing -/

section Nacks

variable {q : HybridRangeBlockQueue} {f : MsgBlock → MsgBlock}

/-- An update of a block that neither reads nor writes its retry link. -/
def LinkFree (f : MsgBlock → MsgBlock) : Prop :=
  ∀ l blk, f { blk with retryLink := l } = { f blk with retryLink := l }

theorem LinkFree.retryLink (hf : LinkFree f) (blk : MsgBlock) :
    (f blk).retryLink = blk.retryLink := by
  have hlink := congrArg MsgBlock.retryLink (hf blk.retryLink blk)
  exact hlink

theorem modify_comm {α : Type} {f g : α → α} (hfg : ∀ a, f (g a) = g (f a)) (l : List α)
    (i j : Nat) : (l.modify i g).modify j f = (l.modify j f).modify i g := by
  refine ext_getElem? fun k => ?_
  simp only [getElem?_modify]
  cases l[k]? with
  | none => simp
  | some a =>
    by_cases hi : i = k <;> by_cases hj : j = k <;> simp [hi, hj, hfg]

/-- Writing links and updating blocks do not get in each other's way. -/
theorem modifyLink_modify (hf : LinkFree f) (blocks : List MsgBlock) (i j : Nat) (g : Link → Link) :
    (modifyLink retrySlot blocks i g).modify j f =
      modifyLink retrySlot (blocks.modify j f) i g := by
  unfold modifyLink
  refine modify_comm (fun blk => ?_) blocks i j
  change f { blk with retryLink := g blk.retryLink } =
    { f blk with retryLink := g (f blk).retryLink }
  rw [hf, hf.retryLink]

theorem pushBack_modify (hf : LinkFree f) (list : IndexList) (blocks : List MsgBlock) (c b : Nat) :
    (list.pushBack retrySlot RETRY_TAG (blocks.modify b f) c) =
      ((list.pushBack retrySlot RETRY_TAG blocks c).1,
        (list.pushBack retrySlot RETRY_TAG blocks c).2.modify b f) := by
  unfold IndexList.pushBack
  cases list.tail with
  | none =>
    dsimp only
    rw [modifyLink_modify hf]
  | some t =>
    dsimp only
    rw [modifyLink_modify hf, modifyLink_modify hf]

theorem linkAt_modify (hf : LinkFree f) (blocks : List MsgBlock) (b c : Nat) :
    linkAt retrySlot (blocks.modify b f) c = linkAt retrySlot blocks c := by
  unfold linkAt
  rw [getElem?_modify]
  cases blocks[c]? with
  | none => rfl
  | some blk =>
    by_cases hb : b = c
    · simp only [hb, if_true]
      exact hf.retryLink blk
    · simp [hb]

/-- **Listing a block and updating one commute.** -/
theorem updateBlock_ensureRetryListed (hf : LinkFree f) (q : HybridRangeBlockQueue) (c b : Nat) :
    (q.ensureRetryListed c).updateBlock b f = (q.updateBlock b f).ensureRetryListed c := by
  unfold ensureRetryListed updateBlock
  dsimp only
  rw [linkAt_modify hf, pushBack_modify hf]
  split <;> rfl

variable {b bit take : Nat}

/-- A block that was listed is listed. -/
theorem ensureRetryListed_twice (q : HybridRangeBlockQueue) (hb : b < q.blocks.length) :
    (q.ensureRetryListed b).ensureRetryListed b = q.ensureRetryListed b := by
  have hlinked : (linkAt retrySlot (q.ensureRetryListed b).blocks b).isLinked = true := by
    unfold ensureRetryListed
    split
    · next h => exact h
    · have hstate : (linkAt retrySlot
          (q.retryBlocks.pushBack retrySlot RETRY_TAG q.blocks b).2 b).state =
            LinkState.linked RETRY_TAG := by
        unfold IndexList.pushBack
        cases q.retryBlocks.tail with
        | none =>
          simp [linkAt, modifyLink, hb, retrySlot, Link.linkBetween]
        | some t =>
          by_cases ht : t = b
          · simp [linkAt, modifyLink, hb, ht, retrySlot, Link.linkBetween]
          · simp [linkAt, modifyLink, hb, ht, retrySlot, Link.linkBetween]
      change LinkState.isLinked (linkAt retrySlot _ b).state = true
      rw [hstate]
      decide
  rw [ensureRetryListed, if_pos hlinked]

/-! ### The masks of one block -/

/-- What a mask does to its block. -/
def nackBlock (blk : MsgBlock) (m : NackMask) : MsgBlock :=
  { blk with
    inflight := updateWord blk.inflight m.word (· &&& ~~~m.mask)
    retry := updateWord blk.retry m.word (· ||| m.mask)
    retryWordMask := blk.retryWordMask ||| (1#8 <<< m.word) }

/-- `n` more messages were requeued. -/
def addNacked (q : HybridRangeBlockQueue) (n : Nat) : HybridRangeBlockQueue :=
  { q with stats := { q.stats with totalNacked := q.stats.totalNacked + n } }

theorem addNacked_add (q : HybridRangeBlockQueue) (n k : Nat) :
    (q.addNacked n).addNacked k = q.addNacked (n + k) := by
  simp only [addNacked, Nat.add_assoc]

theorem addNacked_updateBlock (q : HybridRangeBlockQueue) (n b : Nat) :
    (q.addNacked n).updateBlock b f = (q.updateBlock b f).addNacked n := rfl

theorem addNacked_ensureRetryListed (q : HybridRangeBlockQueue) (n b : Nat) :
    (q.addNacked n).ensureRetryListed b = (q.ensureRetryListed b).addNacked n := by
  rw [ensureRetryListed_eq, ensureRetryListed_eq]
  rfl

theorem nackMaskToRetry_eq (q : HybridRangeBlockQueue) (m : NackMask) : q.nackMaskToRetry m =
      ((q.updateBlock m.block (nackBlock · m)).ensureRetryListed m.block).addNacked
        (countOnes m.mask) := rfl

theorem linkFree_nackBlocks (ms : List NackMask) : LinkFree fun blk => ms.foldl nackBlock blk := by
  intro l blk
  induction ms generalizing blk with
  | nil => rfl
  | cons m ms ih => exact ih (nackBlock blk m)

theorem updateBlock_updateBlock (q : HybridRangeBlockQueue) (b : Nat) (f g : MsgBlock → MsgBlock) :
    (q.updateBlock b f).updateBlock b g = q.updateBlock b (g ∘ f) := by
  simp only [updateBlock, modify_modify_eq]

/-- **The masks of one block**: its updates in a row, and one listing. -/
theorem foldl_nackMask : ∀ (ms : List NackMask) (q : HybridRangeBlockQueue),
    ms ≠ [] → (∀ m ∈ ms, m.block = b) → b < q.blocks.length →
    ms.foldl nackMaskToRetry q =
      ((q.updateBlock b fun blk => ms.foldl nackBlock blk).ensureRetryListed b).addNacked
        (maskSeqs ms).length := by
  intro ms
  induction ms with
  | nil => exact fun _ hne => absurd rfl hne
  | cons m ms ih =>
    intro q _ hblock hb
    obtain rfl := hblock m (by simp)
    have hlen : (maskSeqs (m :: ms)).length = countOnes m.mask + (maskSeqs ms).length := by
      rw [maskSeqs, flatMap_cons, length_append, length_seqs]
      rfl
    rw [foldl_cons, nackMaskToRetry_eq, hlen]
    by_cases hms : ms = []
    · subst hms
      rfl
    · have hup : ((q.updateBlock m.block (nackBlock · m)).blocks).length = q.blocks.length := by
        simp [updateBlock]
      have hb1 : m.block < (((q.updateBlock m.block (nackBlock · m)).ensureRetryListed
          m.block).addNacked (countOnes m.mask)).blocks.length := by
        rw [ensureRetryListed_eq]
        change m.block < (retryWork.ensure _ _ _).2.length
        rw [(retryWork.sameBut_ensure _ _ _).1, hup]
        exact hb
      rw [ih _ hms (fun m' hm' => hblock m' (by simp [hm'])) hb1, addNacked_updateBlock,
        updateBlock_ensureRetryListed (linkFree_nackBlocks ms), updateBlock_updateBlock,
        addNacked_ensureRetryListed, ensureRetryListed_twice _ (by simpa [updateBlock] using hb),
        addNacked_add]
      rfl

/-- The three fields a list of masks writes, one by one. -/
theorem foldl_nackBlock (ms : List NackMask) (blk : MsgBlock) : ms.foldl nackBlock blk =
      { blk with
        inflight := ms.foldl (fun v m => updateWord v m.word (· &&& ~~~m.mask)) blk.inflight
        retry := ms.foldl (fun v m => updateWord v m.word (· ||| m.mask)) blk.retry
        retryWordMask := ms.foldl (fun k m => k ||| (1#8 <<< m.word)) blk.retryWordMask } := by
  induction ms generalizing blk with
  | nil => rfl
  | cons m ms ih =>
    rw [foldl_cons, ih]
    rfl

theorem bitAt_foldl_orMask (hi : i < 256) :
    ∀ (ms : List NackMask) (v : Vector Word 4), (∀ m ∈ ms, m.block = b ∧ m.word < 4) →
      bitAt (ms.foldl (fun v m => updateWord v m.word (· ||| m.mask)) v) i =
        (bitAt v i || decide (256 * b + i ∈ maskSeqs ms)) := by
  intro ms
  induction ms with
  | nil => simp
  | cons m ms ih =>
    intro v hms
    obtain ⟨rfl, hw⟩ := hms m (by simp)
    have hmem : decide (256 * m.block + i ∈ maskSeqs (m :: ms)) =
        (decide (256 * m.block + i ∈ m.seqs) || decide (256 * m.block + i ∈ maskSeqs ms)) := by
      rw [maskSeqs, flatMap_cons]
      simp only [mem_append, Bool.decide_or]
      rfl
    rw [foldl_cons, ih _ fun m' hm' => hms m' (by simp [hm']), bitAt_orMask v hw hi, hmem,
      Bool.or_assoc]

theorem bitAt_foldl_clearMask (hi : i < 256) :
    ∀ (ms : List NackMask) (v : Vector Word 4), (∀ m ∈ ms, m.block = b ∧ m.word < 4) →
      bitAt (ms.foldl (fun v m => updateWord v m.word (· &&& ~~~m.mask)) v) i =
        (bitAt v i && !decide (256 * b + i ∈ maskSeqs ms)) := by
  intro ms
  induction ms with
  | nil => simp
  | cons m ms ih =>
    intro v hms
    obtain ⟨rfl, hw⟩ := hms m (by simp)
    have hmem : decide (256 * m.block + i ∈ maskSeqs (m :: ms)) =
        (decide (256 * m.block + i ∈ m.seqs) || decide (256 * m.block + i ∈ maskSeqs ms)) := by
      rw [maskSeqs, flatMap_cons]
      simp only [mem_append, Bool.decide_or]
      rfl
    rw [foldl_cons, ih _ fun m' hm' => hms m' (by simp [hm']), bitAt_clearMask v hw hi, hmem,
      Bool.not_or, Bool.and_assoc]

/-- The masks of a part of one block. -/
theorem wordMasks_block (hpos : 0 < take) (hle : bit + take ≤ 256) :
    wordMasks (256 * b + bit) take =
      (List.range' (bit / 64) ((bit + take - 1) / 64 + 1 - bit / 64)).map fun w =>
        wordMask (256 * b + bit) (256 * b + bit + take) (4 * b + w) := by
  have hcount : (256 * b + bit + take - 1) / 64 + 1 - (256 * b + bit) / 64 =
      (bit + take - 1) / 64 + 1 - bit / 64 := by omega
  rw [wordMasks, if_neg (by omega), hcount, show (256 * b + bit) / 64 = 4 * b + bit / 64 by omega,
    ← map_add_range', map_map]
  rfl

/-- **A part of one block**: fills and clears of whole ranges are the masks
of its words. -/
theorem foldl_nackBlock_range (hpos : 0 < take) (hle : bit + take ≤ 256) (blk : MsgBlock) :
    (wordMasks (256 * b + bit) take).foldl nackBlock blk =
      { blk with
        inflight := clearRange blk.inflight bit take
        retry := setRange blk.retry bit take
        retryWordMask := markWords blk.retryWordMask (bit / 64) ((bit + take - 1) / 64) } := by
  have hfit : ∀ m ∈ wordMasks (256 * b + bit) take, m.block = b ∧ m.word < 4 := by
    intro m hm
    obtain ⟨hw, -, h1, h2⟩ := wordMasks_fit hm
    exact ⟨by omega, hw⟩
  have hseqs := maskSeqs_wordMasks (256 * b + bit) take
  have hinflight : (wordMasks (256 * b + bit) take).foldl
      (fun v m => updateWord v m.word (· &&& ~~~m.mask)) blk.inflight =
        clearRange blk.inflight bit take := by
    refine ext_bitAt fun i hi => ?_
    rw [bitAt_foldl_clearMask hi _ _ hfit, hseqs, decide_mem_range',
      bitAt_clearRange blk.inflight (n := 4) hle]
  have hretry : (wordMasks (256 * b + bit) take).foldl
      (fun v m => updateWord v m.word (· ||| m.mask)) blk.retry = setRange blk.retry bit take := by
    refine ext_bitAt fun i hi => ?_
    rw [bitAt_foldl_orMask hi _ _ hfit, hseqs, decide_mem_range',
      bitAt_setRange blk.retry (n := 4) hle]
  have hmask : (wordMasks (256 * b + bit) take).foldl (fun k m => k ||| (1#8 <<< m.word))
      blk.retryWordMask = markWords blk.retryWordMask (bit / 64) ((bit + take - 1) / 64) := by
    rw [wordMasks_block hpos hle, foldl_map, markWords]
    refine foldl_ext _ _ _ fun k w hw => ?_
    rw [mem_range'_1] at hw
    rw [wordMask, show (4 * b + w) % 4 = w by omega]
  rw [foldl_nackBlock, hinflight, hretry, hmask]

/-- Only the bits inside the word matter. -/
theorem wordMask_congr {stop start' stop' w : Nat}
    (h : ∀ i < 64, (start ≤ 64 * w + i ∧ 64 * w + i < stop) ↔
      (start' ≤ 64 * w + i ∧ 64 * w + i < stop')) :
    wordMask start stop w = wordMask start' stop' w := by
  simp only [wordMask, DeliveryMask.mk.injEq, true_and]
  refine eq_of_getLsbD_eq fun i hi => ?_
  rw [Bool.eq_iff_iff]
  exact (getLsbD_wordMask start stop w hi).trans
    ((h i hi).trans (getLsbD_wordMask start' stop' w hi).symm)

/-- Masks of a range that is cut between two words. -/
theorem wordMasks_append {a c : Nat} (ha : 0 < a) (hc : 0 < c) (hcut : (start + a) % 64 = 0) :
    wordMasks start (a + c) = wordMasks start a ++ wordMasks (start + a) c := by
  have hfirst : wordMasks start a =
      (List.range' (start / 64) ((start + a) / 64 - start / 64)).map
        (wordMask start (start + (a + c))) := by
    rw [wordMasks, if_neg (by omega),
      show (start + a - 1) / 64 + 1 - start / 64 = (start + a) / 64 - start / 64 by omega]
    refine map_congr_left fun w hw => ?_
    rw [mem_range'_1] at hw
    exact wordMask_congr fun i hi => by omega
  have hsecond : wordMasks (start + a) c =
      (List.range' ((start + a) / 64)
        ((start + (a + c) - 1) / 64 + 1 - (start + a) / 64)).map
        (wordMask start (start + (a + c))) := by
    rw [wordMasks, if_neg (by omega), Nat.add_assoc]
    refine map_congr_left fun w hw => ?_
    rw [mem_range'_1] at hw
    exact wordMask_congr fun i hi => by omega
  rw [hfirst, hsecond, ← map_append, wordMasks, if_neg (by omega)]
  congr 1
  have hjoin := @range'_append_1 (start / 64) ((start + a) / 64 - start / 64)
    ((start + (a + c) - 1) / 64 + 1 - (start + a) / 64)
  rw [show start / 64 + ((start + a) / 64 - start / 64) = (start + a) / 64 by omega] at hjoin
  rw [hjoin]
  congr 1
  omega

/-! ### The block loop -/

/-- One block of `nack_range_to_retry`. -/
def nackStep (b bit take : Nat) (q : HybridRangeBlockQueue) : HybridRangeBlockQueue :=
  (q.updateBlock b fun blk =>
    { blk with
      inflight := clearRange blk.inflight bit take
      retry := setRange blk.retry bit take
      retryWordMask := markWords blk.retryWordMask (bit / 64) ((bit + take - 1) / 64) }
  ).ensureRetryListed b

theorem nackRangeToRetry_eq (q : HybridRangeBlockQueue) (start len : Nat) :
    q.nackRangeToRetry start len =
      (forBlocks nackStep (start + len) len start q).addNacked len := by
  rw [nackRangeToRetry]
  split
  · next h0 =>
    subst h0
    rfl
  · rfl

theorem nackStep_eq (hb : b < q.blocks.length) (hpos : 0 < take) (hle : bit + take ≤ 256) :
    (nackStep b bit take q).addNacked take =
      (wordMasks (256 * b + bit) take).foldl nackMaskToRetry q := by
  have hseqs := maskSeqs_wordMasks (256 * b + bit) take
  have hne : wordMasks (256 * b + bit) take ≠ [] := by
    intro hnil
    have hlen := congrArg List.length hseqs
    rw [hnil, maskSeqs_nil, length_nil, length_range'] at hlen
    omega
  rw [foldl_nackMask _ q hne (fun m hm => ?_) hb, hseqs, length_range']
  · simp only [foldl_nackBlock_range hpos hle]
    rfl
  · obtain ⟨-, -, h1, h2⟩ := wordMasks_fit hm
    omega

theorem length_nackStep (b bit take : Nat) (q : HybridRangeBlockQueue) :
    (nackStep b bit take q).blocks.length = q.blocks.length := by
  rw [nackStep, ensureRetryListed_eq]
  change (retryWork.ensure _ _ _).2.length = _
  rw [(retryWork.sameBut_ensure _ _ _).1]
  simp [updateBlock]

/-- The total is not read on the way. -/
theorem forBlocks_addNacked (stop n : Nat) : ∀ (fuel seq : Nat) (q : HybridRangeBlockQueue),
    forBlocks nackStep stop fuel seq (q.addNacked n) =
      (forBlocks nackStep stop fuel seq q).addNacked n := by
  intro fuel
  induction fuel with
  | zero => exact fun _ _ => rfl
  | succ fuel ih =>
    intro seq q
    rw [forBlocks, forBlocks]
    split
    · dsimp only
      rw [← ih, nackStep, addNacked_updateBlock, addNacked_ensureRetryListed]
      rfl
    · rfl

/-- **The block loop** requeues the masks of the range. -/
theorem forBlocks_nackStep (stop : Nat) : ∀ (fuel seq : Nat) (q : HybridRangeBlockQueue),
    stop - seq ≤ fuel → stop ≤ 256 * q.blocks.length →
    (forBlocks nackStep stop fuel seq q).addNacked (stop - seq) =
      (wordMasks seq (stop - seq)).foldl nackMaskToRetry q := by
  intro fuel
  induction fuel with
  | zero =>
    intro seq q hf _
    rw [show stop - seq = 0 by omega]
    rfl
  | succ fuel ih =>
    intro seq q hf hbound
    rw [forBlocks]
    by_cases hlt : seq < stop
    · rw [if_pos hlt]
      simp only [locate, MSGS_PER_BLOCK]
      generalize htake : min (256 - seq % 256) (stop - seq) = take
      have hone := nackStep_eq (q := q) (b := seq / 256) (by omega)
        (show 0 < take by omega) (show seq % 256 + take ≤ 256 by omega)
      rw [show 256 * (seq / 256) + seq % 256 = seq by omega] at hone
      have hrest := ih (seq + take) ((nackStep (seq / 256) (seq % 256) take q).addNacked take)
        (by omega) (by
          change stop ≤ 256 * (nackStep (seq / 256) (seq % 256) take q).blocks.length
          rw [length_nackStep]
          exact hbound)
      -- the part of this block, then the rest
      have hsplit : wordMasks seq (stop - seq) =
          wordMasks seq take ++ wordMasks (seq + take) (stop - (seq + take)) := by
        by_cases hend : stop = seq + take
        · rw [hend, Nat.sub_self, show seq + take - seq = take by omega]
          exact (List.append_nil _).symm
        · rw [← wordMasks_append (by omega) (by omega) (by omega)]
          congr 1
          omega
      rw [hsplit, foldl_append, ← hone, ← hrest, forBlocks_addNacked, addNacked_add]
      congr 1
      omega
    · rw [if_neg hlt, show stop - seq = 0 by omega]
      rfl

end Nacks

/-! ## Every run -/

section Runs

variable {q q' q'' : HybridRangeBlockQueue}

/-- No message was published and no block added. -/
def SameSize (q q' : HybridRangeBlockQueue) : Prop :=
  q'.nextSeq = q.nextSeq ∧ q'.blocks.length = q.blocks.length

theorem SameSize.refl (q : HybridRangeBlockQueue) : SameSize q q := ⟨rfl, rfl⟩

theorem SameSize.trans (h : SameSize q q') (h' : SameSize q' q'') : SameSize q q'' :=
  ⟨h'.1.trans h.1, h'.2.trans h.2⟩

theorem sameSize_updateBlock (q : HybridRangeBlockQueue) (b : Nat) (f : MsgBlock → MsgBlock) :
    SameSize q (q.updateBlock b f) := ⟨rfl, by simp [updateBlock]⟩

theorem Aside.sameSize (h : Aside q q') : SameSize q q' := ⟨h.next, h.len⟩

variable (q)

theorem sameSize_ensureSparseListed (b : Nat) : SameSize q (q.ensureSparseListed b) := by
  rw [ensureSparseListed_eq]
  exact ⟨rfl, (sparseWork.sameBut_ensure _ _ _).1⟩

theorem sameSize_retryLoop : ∀ (fuel : Nat) (q : HybridRangeBlockQueue) (moved : Nat),
    SameSize q (retryLoop fuel q moved).1 := by
  intro fuel
  induction fuel with
  | zero => exact fun q _ => .refl q
  | succ fuel ih =>
    intro q moved
    have hpop := @sameBut_popFront _ retrySlot q.blocks q.retryBlocks
    rw [retryLoop]
    split
    · exact .refl q
    · next b list blocks heq =>
      rw [heq] at hpop
      have hsame : SameSize q { q with retryBlocks := list, blocks := blocks } := ⟨rfl, hpop.1⟩
      dsimp only
      split
      · exact hsame
      · exact hsame.trans ((sameSize_updateBlock _ b _).trans
          ((sameSize_ensureSparseListed _ b).trans (ih _ _)))

theorem sameSize_sparseLoop : ∀ (fuel : Nat) (q : HybridRangeBlockQueue) (r d : Nat)
    (masks : List DeliveryMask), SameSize q (sparseLoop fuel q r d masks).1 := by
  intro fuel
  induction fuel with
  | zero => exact fun q _ _ _ => .refl q
  | succ fuel ih =>
    intro q r d masks
    have hpop := @sameBut_popFront _ sparseSlot q.blocks q.sparseBlocks
    rw [sparseLoop]
    split
    · exact .refl q
    · split
      · exact .refl q
      · next b list blocks heq =>
        rw [heq] at hpop
        have hsame : SameSize q { q with sparseBlocks := list, blocks := blocks } :=
          ⟨rfl, hpop.1⟩
        dsimp only
        split
        · exact hsame
        · next blk hblk =>
          have hput := @replaces_putBack (deliverBlock b blk r d masks).block
            { q with sparseBlocks := list, blocks := blocks } b
            (List.getElem?_eq_some_iff.mp hblk).1
          exact hsame.trans (SameSize.trans ⟨hput.next, hput.len⟩ (ih _ _ _ _))

theorem sameSize_deliver (max : Nat) : SameSize q (q.deliver max).1 := by
  rw [deliver_eq]
  refine SameSize.trans ?_ (sameSize_sparseLoop _ (q.rangeTaken max) _ 0 [])
  unfold rangeTaken
  split
  · exact (aside_markInflightRange q q.sequentialHead _).sameSize
  · exact .refl q

/-- The blocks cover what was published. -/
def Covers : Prop := q.nextSeq ≤ 256 * q.blocks.length

variable {q}

theorem SameSize.covers (h : SameSize q q') (hq : Covers q) : Covers q' := by
  rw [Covers, h.1, h.2]
  exact hq

theorem covers_publishContiguous (q : HybridRangeBlockQueue) (count : Nat) (hq : Covers q) :
    Covers (q.publishContiguous count).1 := by
  unfold publishContiguous Covers
  split
  · exact hq
  · simp only [length_growBlocks, MSGS_PER_BLOCK]
    omega

/-- **Every call keeps the blocks covering**, whatever it is called with. -/
theorem covers_step (hq : Covers q) (op : QueueOp) : Covers (q.step op) := by
  cases op with
  | publish count => exact covers_publishContiguous q count hq
  | deliver max => exact (sameSize_deliver q max).covers hq
  | ackRange r => exact (aside_ackRange q _ _).sameSize.covers hq
  | ackMask m => exact (aside_ackMask q m).sameSize.covers hq
  | ackId seq =>
    rw [step, ackId]
    split
    · exact hq
    · exact (sameSize_updateBlock q (locate seq).1 _).covers hq
  | nackRange r => exact (aside_nackRangeToRetry q _ _).sameSize.covers hq
  | nackMask m => exact (aside_nackMaskToRetry q m).sameSize.covers hq
  | retryAllNow => exact (sameSize_retryLoop (q.blocks.length + 1) q 0).covers hq

theorem covers_run (ops : List QueueOp) : Covers (run ops) :=
  (Runs.meets_true empty ops).invariant (I := Covers) (fun _ op hq _ => covers_step hq op)
    (Nat.zero_le _)

end Runs

/-- **Three ways to settle a range.** In every state of a queue and for
every range of published messages: acknowledging the range, its messages
one by one, and its words with masks give the same queue; requeueing the
range and its words with masks do too, down to the links of the retry
list. -/
theorem settlement_forms_agree (ops : List QueueOp) (start len : Nat)
    (hlen : start + len ≤ (run ops).nextSeq) :
    (run ops).ackRange start len = (List.range' start len).foldl ackId (run ops) ∧
      (run ops).ackRange start len = (wordMasks start len).foldl ackMask (run ops) ∧
      (run ops).nackRangeToRetry start len =
        (wordMasks start len).foldl nackMaskToRetry (run ops) ∧
      maskSeqs (wordMasks start len) = List.range' start len := by
  have hcovers := covers_run ops
  generalize run ops = q at hlen hcovers ⊢
  rw [Covers] at hcovers
  have hseqs := maskSeqs_wordMasks start len
  have hrange := @acks_ackRange start q len fun _ => by omega
  refine ⟨?_, ?_, ?_, hseqs⟩
  · rw [foldl_ackId _ q fun s hs => by rw [mem_range'_1] at hs; omega]
    have hmasks := acks_ackMasks ((List.range' start len).map maskOf) q fun m hm => by
      obtain ⟨s, hs, rfl⟩ := mem_map.mp hm
      rw [mem_range'_1] at hs
      exact ⟨by simp only [maskOf]; omega, (maskOk_maskOf s).1⟩
    rw [maskSeqs_maskOf, length_range'] at hmasks
    exact hrange.unique hmasks
  · have hmasks := acks_ackMasks (wordMasks start len) q fun m hm => by
      obtain ⟨hw, -, h1, h2⟩ := wordMasks_fit hm
      have hpos : len ≠ 0 := fun h0 => by simp [wordMasks, h0] at hm
      exact ⟨by omega, hw⟩
    rw [hseqs, length_range'] at hmasks
    exact hrange.unique hmasks
  · have hloop := forBlocks_nackStep (start + len) len start q (by omega) (by omega)
    rw [show start + len - start = len by omega] at hloop
    rw [nackRangeToRetry_eq, hloop]

/-- 200 of 300 inflight messages, from the end of a word into the next
block. -/
theorem range_of_two_blocks :
    (wordMasks 60 200).map (fun m => (m.block, m.word, countOnes m.mask)) =
        [(0, 0, 4), (0, 1, 64), (0, 2, 64), (0, 3, 64), (1, 0, 4)] ∧
      (run [.publish 300, .deliver 300]).nackRangeToRetry 60 200 =
        (wordMasks 60 200).foldl nackMaskToRetry (run [.publish 300, .deliver 300]) :=
  ⟨by decide +kernel,
    (settlement_forms_agree [.publish 300, .deliver 300] 60 200 (by decide +kernel)).2.2.1⟩

end HybridRangeBlockQueue

end Aurum.Queue
