import Aurum.Queue.Retry

/-!
# Queue — the message-state map a queue denotes

The abstract queue: a map `st` from sequence numbers to message states.
`Denotes q st` says that every message of the queue is in exactly the
state `st` gives it (the sequential interval or one bit plane), that
nothing exists past `next_seq`, and that the worklists are in shape.
Each public operation is one lemma: the faithful queue after it denotes
the updated map. `debug_state_of`, `debug_counts` and
`validate_invariants` are then read off the map.
-/

namespace Aurum.Queue

open Aurum.Bits Aurum.Intrusive Aurum.Kernels List MsgBlock Option

/-- The map after giving state `p` to the messages `S`. -/
def setAll (st : Nat → Option MessageState) (S : List Nat) (p : MessageState) (s : Nat) :
    Option MessageState :=
  if s ∈ S then some p else st s

variable {st : Nat → Option MessageState} {S : List Nat} {p : MessageState} {s : Nat}

theorem setAll_of_mem (h : s ∈ S) : setAll st S p s = some p := if_pos h

theorem setAll_of_not_mem (h : s ∉ S) : setAll st S p s = st s := if_neg h

variable (st)

@[simp] theorem setAll_nil (p : MessageState) : setAll st [] p = st := by
  funext s
  simp [setAll]

theorem setAll_append (S T : List Nat) (p : MessageState) :
    setAll (setAll st S p) T p = setAll st (S ++ T) p := by
  funext s
  unfold setAll
  by_cases hS : s ∈ S <;> by_cases hT : s ∈ T <;> simp [hS, hT]

variable {st}

/-- Giving messages a state publishes none. -/
theorem setAll_eq_none (hS : ∀ x ∈ S, st x ≠ none) (p : MessageState) (x : Nat) :
    setAll st S p x = none ↔ st x = none := by
  by_cases hx : x ∈ S
  · simp [setAll_of_mem hx, hS x hx]
  · rw [setAll_of_not_mem hx]

/-- Distinct numbers below `n` are at most `n`. -/
theorem length_le_of_lt {n : Nat} (hnd : S.Nodup) (hlt : ∀ x ∈ S, x < n) : S.length ≤ n := by
  have hle := (subperm_of_subset hnd fun x hx => mem_range.mpr (hlt x hx)).length_le
  rwa [length_range] at hle

/-- The list names exactly the inflight messages, each once. -/
structure Inflight (st : Nat → Option MessageState) (S : List Nat) : Prop where
  nodup : S.Nodup
  mem : ∀ x, st x = some .inflight ↔ x ∈ S

namespace Inflight

variable {T R : List Nat} {dst : MessageState}

/-- Messages handed out join the list. -/
theorem hand (h : Inflight st S) (hT : T.Nodup)
    (havail : ∀ x ∈ T, st x = some .ready ∨ st x = some .sparseReady) (hperm : R.Perm (T ++ S)) :
    Inflight (setAll st T .inflight) R := by
  refine ⟨hperm.nodup_iff.mpr (nodup_append.mpr ⟨hT, h.nodup, ?_⟩), fun x => ?_⟩
  · rintro x hx y hy rfl
    have h1 := havail x hx
    rw [(h.mem x).mpr hy] at h1
    simp at h1
  · rw [hperm.mem_iff, mem_append]
    by_cases hx : x ∈ T
    · simp [hx, setAll_of_mem hx]
    · rw [setAll_of_not_mem hx, h.mem]
      simp [hx]

/-- Settled messages leave it. -/
theorem settle (h : Inflight st S) (hperm : S.Perm (T ++ R)) (hdst : dst ≠ .inflight) :
    Inflight (setAll st T dst) R := by
  obtain ⟨-, hnd, hdisj⟩ := nodup_append.mp (hperm.nodup_iff.mp h.nodup)
  refine ⟨hnd, fun x => ?_⟩
  by_cases hx : x ∈ T
  · rw [setAll_of_mem hx]
    constructor
    · intro hc
      exact absurd (some.inj hc) hdst
    · intro hc
      exact absurd rfl (hdisj x hx x hc)
  · rw [setAll_of_not_mem hx, h.mem, hperm.mem_iff, mem_append]
    simp [hx]

/-- Moving other messages does not matter. -/
theorem other (h : Inflight st S) (hT : ∀ x ∈ T, st x ≠ some .inflight) (hdst : dst ≠ .inflight) :
    Inflight (setAll st T dst) S := by
  refine ⟨h.nodup, fun x => ?_⟩
  rw [← h.mem]
  by_cases hx : x ∈ T
  · simp [setAll_of_mem hx, hT x hx, hdst]
  · rw [setAll_of_not_mem hx]

end Inflight

namespace HybridRangeBlockQueue

open List

/-- Message `s` is in state `p`: in the sequential interval, or in the
bitset of `p`. -/
def inState (q : HybridRangeBlockQueue) (p : MessageState) (s : Nat) : Bool :=
  match p with
  | .ready => decide (q.sequentialHead ≤ s ∧ s < q.sequentialTail)
  | p => q.bit p s

theorem inState_of_ne {q : HybridRangeBlockQueue} (hp : p ≠ .ready) (s : Nat) :
    q.inState p s = q.bit p s := by
  cases p <;> first | exact absurd rfl hp | rfl

/-- **The queue denotes the map `st`.** -/
structure Denotes (q : HybridRangeBlockQueue) (st : Nat → Option MessageState) : Prop where
  shape : q.Shape
  tail : q.sequentialTail = q.nextSeq
  head : q.sequentialHead ≤ q.nextSeq
  blocks : q.blocks.length = (q.nextSeq + 255) / 256
  state : ∀ p s, q.inState p s = true ↔ st s = some p
  dom : ∀ s, st s = none ↔ q.nextSeq ≤ s
  flags : ∀ s, q.flag s = true → s < q.nextSeq

variable {q q' : HybridRangeBlockQueue}

theorem denotes_empty : Denotes empty fun _ => none where
  shape := ⟨⟨[], rep_new, by simp [empty, blockAt, retryWork, new], fun i w => by
      simp [empty, blockAt, retryWork, new]⟩,
    ⟨[], rep_new, by simp [empty, blockAt, sparseWork, new], fun i w => by
      simp [empty, blockAt, sparseWork, new]⟩⟩
  tail := rfl
  head := Nat.le_refl _
  blocks := rfl
  state := fun p s => by
    cases p <;> simp [inState, empty, bit, blockAt, plane, new]
  dom := fun s => by simp [empty]
  flags := fun s => by simp [empty, flag, blockAt, new]

theorem Denotes.lt_next (h : Denotes q st) (hs : st s = some p) : s < q.nextSeq := by
  by_contra hge
  rw [(h.dom s).mpr (by omega)] at hs
  cases hs

theorem Denotes.lt_blocks (h : Denotes q st) (hs : st s = some p) : s < 256 * q.blocks.length := by
  have := h.lt_next hs
  have := h.blocks
  omega

/-- The interval and the bits determine the map. -/
theorem Denotes.unique {st' : Nat → Option MessageState} (h : Denotes q st)
    (h' : Denotes q st') : st = st' := by
  funext s
  cases hs : st s with
  | none => rw [(h'.dom s).mpr ((h.dom s).mp hs)]
  | some p => rw [(h'.state p s).mp ((h.state p s).mpr hs)]

/-! ## Operations -/

/-- Moving messages between two bit planes. -/
theorem Denotes.moves (h : Denotes q st) {a b : MessageState} (ha : a ≠ .ready) (hb : b ≠ .ready)
    (hab : a ≠ b) (hS : ∀ s ∈ S, st s = some a) (hm : Moves (some a) b S q q') :
    Denotes q' (setAll st S b) where
  shape := hm.shape h.shape
  tail := by rw [hm.tail, hm.next, h.tail]
  head := by rw [hm.head, hm.next]; exact h.head
  blocks := by rw [hm.len, hm.next, h.blocks]
  state := fun p s => by
    by_cases hs : s ∈ S
    · rw [setAll_of_mem hs]
      have hsa := hS s hs
      by_cases hp : p = .ready
      · subst hp
        have hno : q.inState .ready s = false := by
          rw [Bool.eq_false_iff]
          intro hc
          rw [(h.state _ _).mp hc] at hsa
          exact ha (some.inj hsa).symm
        have hsame : q'.inState .ready s = q.inState .ready s := by
          simp only [inState, hm.head, hm.tail]
        rw [hsame, hno]
        simp [hb]
      · rw [inState_of_ne hp, hm.bits]
        by_cases hpb : p = b
        · subst hpb
          rw [moveBit_dst]
          simp [hs]
        · have hbit : q.bit p s = true ↔ p = a := by
            rw [← inState_of_ne hp, h.state, hsa]
            simp [eq_comm]
          by_cases hpa : p = a
          · subst hpa
            rw [moveBit_src hpb]
            simp [hs, Ne.symm hpb]
          · rw [moveBit_other (by simpa using hpa) hpb, hbit]
            simp [hpa, Ne.symm hpb]
    · rw [setAll_of_not_mem hs, ← h.state]
      by_cases hp : p = .ready
      · subst hp
        simp only [inState, hm.head, hm.tail]
      · rw [inState_of_ne hp, inState_of_ne hp, hm.bits]
        simp [hs, moveBit]
  dom := fun s => by
    rw [hm.next, ← h.dom]
    by_cases hs : s ∈ S
    · rw [setAll_of_mem hs, hS s hs]
      simp
    · rw [setAll_of_not_mem hs]
  flags := fun s hs => by
    rw [hm.flags, Bool.or_eq_true, Bool.and_eq_true, decide_eq_true_eq, decide_eq_true_eq] at hs
    rw [hm.next]
    rcases hs with hs | ⟨-, hs⟩
    · exact h.flags s hs
    · exact h.lt_next (hS s hs)

theorem blockAt_growBlocks {β : Type} (f : MsgBlock → β) (hf : ∀ base, f (new base) = f (new 0)) :
    ∀ (missing : Nat) (blocks : List MsgBlock) (i : Nat),
      f (blockAt (growBlocks missing blocks) i) = f (blockAt blocks i) := by
  intro missing
  induction missing with
  | zero =>
    intro blocks i
    rfl
  | succ missing ih =>
    intro blocks i
    rw [growBlocks, ih]
    unfold blockAt
    rcases Nat.lt_trichotomy i blocks.length with hi | rfl | hi
    · rw [getElem?_append_left hi]
    · rw [getElem?_append_right (Nat.le_refl _)]
      simpa using hf _
    · rw [getElem?_eq_none (by simp; omega), getElem?_eq_none (by omega)]

theorem length_growBlocks : ∀ (missing : Nat) (blocks : List MsgBlock),
    (growBlocks missing blocks).length = blocks.length + missing := by
  intro missing
  induction missing with
  | zero =>
    intro blocks
    rfl
  | succ missing ih =>
    intro blocks
    rw [growBlocks, ih, length_append, length_singleton]
    omega

/-- The map after publishing `count` messages from `next` on. -/
def publishAll (st : Nat → Option MessageState) (next count s : Nat) : Option MessageState :=
  if next ≤ s ∧ s < next + count then some .ready else st s

/-- **`publish_contiguous`** makes the next `count` messages ready. -/
theorem Denotes.publishContiguous (h : Denotes q st) (count : Nat) :
    Denotes (q.publishContiguous count).1 (publishAll st q.nextSeq count) ∧
    (q.publishContiguous count).1.nextSeq = q.nextSeq + count ∧
    (q.publishContiguous count).2 = ⟨q.nextSeq, count⟩ := by
  unfold HybridRangeBlockQueue.publishContiguous
  by_cases h0 : count = 0
  · subst h0
    have hst : publishAll st q.nextSeq 0 = st := by
      funext s
      rw [publishAll, if_neg (by omega)]
    simp only [if_true, hst]
    exact ⟨h, by trivial, by trivial⟩
  · simp only [if_neg h0, MSGS_PER_BLOCK]
    refine ⟨?_, by trivial, by trivial⟩
    have hblocks := h.blocks
    have hhead := h.head
    generalize hn : (q.nextSeq + count + (256 - 1)) / 256 - q.blocks.length = missing
    have hread := fun {β : Type} (f : MsgBlock → β) hf i =>
      blockAt_growBlocks f hf missing q.blocks i
    obtain ⟨⟨xs, hr⟩, ⟨ys, hs⟩⟩ := h.shape
    have hlen : q.blocks.length ≤ (growBlocks missing q.blocks).length := by
      rw [length_growBlocks]
      omega
    refine ⟨⟨⟨xs, ?_⟩, ⟨ys, ?_⟩⟩, rfl, ?_, ?_, fun p s => ?_, fun s => ?_, fun s hs => ?_⟩
    · exact hr.congr hlen (hread _ fun _ => rfl) (hread _ fun _ => rfl) (hread _ fun _ => rfl)
    · exact hs.congr hlen (hread _ fun _ => rfl) (hread _ fun _ => rfl) (hread _ fun _ => rfl)
    · exact Nat.le_trans hhead (Nat.le_add_right _ _)
    · rw [length_growBlocks]
      dsimp only
      omega
    · have hold := h.state p s
      by_cases hp : p = .ready
      · subst hp
        simp only [inState, decide_eq_true_eq, h.tail] at hold ⊢
        rw [publishAll]
        split
        · simp; omega
        · rw [← hold]
          omega
      · rw [inState_of_ne hp] at hold ⊢
        have hbit : bitAt ((blockAt (growBlocks missing q.blocks) (s / 256)).plane p) (s % 256) =
            q.bit p s := by
          rw [hread (fun b => b.plane p) (fun _ => by cases p <;> rfl), bit]
        rw [bit, hbit, hold, publishAll]
        split
        · next hs' =>
            rw [(h.dom s).mpr hs'.1]
            simp [Ne.symm hp]
        · rfl
    · have hd := h.dom s
      rw [publishAll]
      split
      · simp; omega
      · rw [hd]
        dsimp only
        omega
    · have hold : q.flag s = true := by
        rw [flag] at hs ⊢
        rwa [hread (fun b => b.redelivered) (fun _ => rfl)] at hs
      have hlt := h.flags s hold
      dsimp only
      omega

/-- A batch of known messages with well-formed masks fits the blocks. -/
theorem Denotes.fits (h : Denotes q st) {ranges : List DeliveryRange} {masks : List DeliveryMask}
    (hS : ∀ s ∈ workSeqs ranges masks, st s ≠ none)
    (hmasks : ∀ m ∈ masks, m.word < 4 ∧ m.mask ≠ 0#64) :
    Fits q.blocks.length ranges masks where
  ranges := fun r hr h0 => by
    -- the last message of the range is known
    have hmem : r.startSeq + r.len - 1 ∈ workSeqs ranges masks :=
      mem_append.mpr (.inl (mem_flatMap.mpr ⟨r, hr, by simp; omega⟩))
    obtain ⟨p, hp⟩ := ne_none_iff_exists'.mp (hS _ hmem)
    have := h.lt_blocks hp
    omega
  masks := fun m hm => by
    obtain ⟨hw, hne⟩ := hmasks m hm
    obtain ⟨i, _, _, _, hi⟩ := exists_lowest hne
    have hlt : i < 64 := BitVec.lt_of_getLsbD hi
    have hmem : seqOfBit m.block m.word i ∈ workSeqs ranges masks :=
      mem_append.mpr (.inr (mem_flatMap.mpr
        ⟨m, hm, mem_map.mpr ⟨i, mem_positions.mpr hi, rfl⟩⟩))
    obtain ⟨p, hp⟩ := ne_none_iff_exists'.mp (hS _ hmem)
    have := h.lt_blocks hp
    simp only [seqOfBit, MSGS_PER_BLOCK] at this
    exact ⟨by omega, hw, hne⟩

/-- **`apply_ack_batch`** on inflight messages. -/
theorem Denotes.applyAckBatch (h : Denotes q st) {batch : AckBatch}
    (hS : ∀ s ∈ workSeqs batch.ranges batch.masks, st s = some .inflight)
    (hmasks : ∀ m ∈ batch.masks, m.word < 4 ∧ m.mask ≠ 0#64) :
    Denotes (q.applyAckBatch batch)
      (setAll st (workSeqs batch.ranges batch.masks) .acked) := by
  have hfits := h.fits (fun s hs => by rw [hS s hs]; simp) hmasks
  exact h.moves (by simp) (by simp) (by simp) hS (moves_applyAckBatch hfits)

/-- **`apply_nack_batch`** on inflight messages. -/
theorem Denotes.applyNackBatch (h : Denotes q st) {b : NackBatch}
    (hS : ∀ s ∈ workSeqs b.ranges b.masks, st s = some .inflight)
    (hmasks : ∀ m ∈ b.masks, m.word < 4 ∧ m.mask ≠ 0#64) :
    Denotes (q.applyNackBatch b) (setAll st (workSeqs b.ranges b.masks) .retry) := by
  have hfits := h.fits (fun s hs => by rw [hS s hs]; simp) hmasks
  exact h.moves (by simp) (by simp) (by simp) hS (moves_applyNackBatch hfits)

/-- **`retry_all_now`** makes every retry message sparse-ready. -/
theorem Denotes.retryAllNow (h : Denotes q st) :
    ∃ S, Denotes q.retryAllNow.1 (setAll st S .sparseReady) ∧ S.Nodup ∧
      (∀ s, s ∈ S ↔ st s = some .retry) ∧ q.retryAllNow.2 = S.length % 2 ^ 32 ∧
      q.retryAllNow.1.nextSeq = q.nextSeq := by
  obtain ⟨S, hm, hnd, hmem, hmoved⟩ := retryAllNow_moves h.shape
  have hS : ∀ s, s ∈ S ↔ st s = some .retry := by
    intro s
    rw [hmem, ← h.state]
    rfl
  exact ⟨S, h.moves (by simp) (by simp) (by simp) (fun s hs => (hS s).mp hs) hm, hnd, hS, hmoved,
    hm.next⟩

/-- **`retry_all_now`** does nothing when nothing waits for a retry. -/
theorem Denotes.retryAllNow_none (h : Denotes q st) (hno : ∀ s, st s ≠ some .retry) :
    q.retryAllNow = (q, 0) := by
  obtain ⟨xs, hr⟩ := h.shape.retry
  have hnil : xs = [] := by
    refine eq_nil_iff_forall_not_mem.mpr fun x hx => (hr.mem x).mp hx ?_
    refine (hr.sums x).eq_zero.mpr fun i => Bool.eq_false_iff.mpr fun hi => ?_
    -- a set retry bit is a message in Retry
    have hlt : i < 256 := by
      by_contra hge
      rw [bitAt_of_ge (by omega)] at hi
      cases hi
    refine hno (256 * x + i) ((h.state .retry _).mp ?_)
    have hdiv : (256 * x + i) / 256 = x := by omega
    have hmod : (256 * x + i) % 256 = i := by omega
    rw [inState_of_ne (by simp), bit, hdiv, hmod]
    exact hi
  subst hnil
  simp only [HybridRangeBlockQueue.retryAllNow, retryLoop_nil hr, Nat.add_zero]

/-- The sequential half of `deliver`. -/
theorem Denotes.deliverRange (h : Denotes q st) {len : Nat}
    (hlen : q.sequentialHead + len ≤ q.nextSeq) :
    Denotes { q.markInflightRange q.sequentialHead len with
        sequentialHead := q.sequentialHead + len }
      (setAll st (range' q.sequentialHead len) .inflight) := by
  have hblocks := h.blocks
  have hm := @moves_markInflightRange q q.sequentialHead len
    (fun _ => by omega)
  have hwas : ∀ s ∈ range' q.sequentialHead len, st s = some .ready := by
    intro s hs
    rw [mem_range'_1] at hs
    refine (h.state .ready s).mp ?_
    simp only [inState, decide_eq_true_eq, h.tail]
    omega
  refine ⟨⟨(hm.shape h.shape).retry, (hm.shape h.shape).sparse⟩, ?_, ?_, ?_, fun p s => ?_,
    fun s => ?_, fun s hs => ?_⟩
  · exact hm.tail.trans (h.tail.trans hm.next.symm)
  · rw [hm.next]
    exact hlen
  · rw [hm.len, hm.next]
    exact hblocks
  · by_cases hs : s ∈ range' q.sequentialHead len
    · rw [setAll_of_mem hs]
      have hready := hwas s hs
      rw [mem_range'_1] at hs
      by_cases hp : p = .ready
      · subst hp
        simp only [inState, decide_eq_true_eq]
        simp
        omega
      · rw [inState_of_ne hp]
        have hbit : q.bit p s = false := by
          rw [Bool.eq_false_iff, ← inState_of_ne hp]
          intro hc
          rw [(h.state p s).mp hc] at hready
          exact hp (some.inj hready)
        have hb := hm.bits p s
        rw [hbit, decide_eq_true (mem_range'_1.mpr hs)] at hb
        change (q.markInflightRange q.sequentialHead len).bit p s = true ↔ _
        rw [hb]
        by_cases hpi : p = .inflight
        · simp [hpi, moveBit]
        · simp [hpi, moveBit, Ne.symm hpi]
    · rw [setAll_of_not_mem hs, ← h.state]
      have hs' := hs
      rw [mem_range'_1] at hs'
      by_cases hp : p = .ready
      · subst hp
        simp only [inState, decide_eq_true_eq, hm.tail]
        omega
      · rw [inState_of_ne hp, inState_of_ne hp]
        have hb := hm.bits p s
        rw [decide_eq_false hs] at hb
        change (q.markInflightRange q.sequentialHead len).bit p s = true ↔ _
        rw [hb]
        simp [moveBit]
  · have hd := h.dom s
    have hnext : (q.markInflightRange q.sequentialHead len).nextSeq = q.nextSeq := hm.next
    by_cases hs : s ∈ range' q.sequentialHead len
    · rw [setAll_of_mem hs]
      rw [mem_range'_1] at hs
      simp [hnext]
      omega
    · rw [setAll_of_not_mem hs, hd]
      simp [hnext]
  · change (q.markInflightRange q.sequentialHead len).flag s = true at hs
    change s < (q.markInflightRange q.sequentialHead len).nextSeq
    rw [hm.flags] at hs
    rw [hm.next]
    exact h.flags s (by simpa using hs)

variable (q)

/-- The queue when `deliver` turns to the sparse side. -/
def rangeTaken (max : Nat) : HybridRangeBlockQueue :=
  if min q.sequentialReadyLen max ≠ 0 then
    { q.markInflightRange q.sequentialHead (min q.sequentialReadyLen max) with
      sequentialHead := q.sequentialHead + min q.sequentialReadyLen max }
  else q

/-- The range `deliver` hands out, if there is one. -/
def rangeOf (max : Nat) : List DeliveryRange :=
  if min q.sequentialReadyLen max ≠ 0 then [⟨q.sequentialHead, min q.sequentialReadyLen max⟩]
  else []

/-- What remains for the sparse side. -/
def sparseAsked (max : Nat) : Nat :=
  max - min q.sequentialReadyLen max

/-- `deliver` is the range and then the sparse loop. -/
theorem deliver_eq (max : Nat) :
    let res := (q.rangeTaken max).deliverSparseMasks (q.sparseAsked max) []
    let n := min q.sequentialReadyLen max + res.2.1
    q.deliver max =
      ({ res.1 with stats :=
          { res.1.stats with totalDelivered := res.1.stats.totalDelivered + n } },
        ⟨q.rangeOf max, res.2.2⟩, n) := by
  have hnone : ∀ q : HybridRangeBlockQueue, q.deliverSparseMasks 0 [] = (q, 0, []) := by
    intro q
    rw [deliverSparseMasks, sparseLoop, if_pos rfl]
  unfold deliver
  by_cases hmax : max = 0
  · subst hmax
    simp [rangeTaken, rangeOf, sparseAsked, hnone]
  · rw [if_neg hmax]
    simp only [rangeTaken, rangeOf, sparseAsked]
    by_cases hav : min q.sequentialReadyLen max = 0
    · simp only [hav, ne_eq, not_true, if_false, Nat.sub_zero, hmax, not_false_eq_true, if_true]
    · simp only [hav, ne_eq, not_false_eq_true, if_true]
      by_cases hrem : max - min q.sequentialReadyLen max = 0
      · simp only [hrem, not_true, if_false, hnone]
      · simp only [hrem, not_false_eq_true, if_true]

variable {q}

/-- The sequential half sets inflight bits only. -/
theorem Denotes.rangeTaken (h : Denotes q st) (max : Nat) : Denotes (q.rangeTaken max)
      (setAll st (range' q.sequentialHead (min q.sequentialReadyLen max)) .inflight) ∧
    (q.rangeTaken max).nextSeq = q.nextSeq ∧
    ∀ x, (q.rangeTaken max).flag x = q.flag x ∧
      (q.rangeTaken max).bit .sparseReady x = q.bit .sparseReady x := by
  have hhead := h.head
  have htail := h.tail
  have hle : q.sequentialHead + min q.sequentialReadyLen max ≤ q.nextSeq := by
    simp only [sequentialReadyLen]
    omega
  unfold HybridRangeBlockQueue.rangeTaken
  by_cases h0 : min q.sequentialReadyLen max = 0
  · rw [h0]
    exact ⟨h, rfl, fun _ => ⟨rfl, rfl⟩⟩
  · have hm := @moves_markInflightRange q q.sequentialHead (min q.sequentialReadyLen max)
      fun _ => by have := h.blocks; omega
    rw [if_pos h0]
    exact ⟨h.deliverRange hle, hm.next, fun x => ⟨(hm.flags x).trans (by simp),
      (hm.bits .sparseReady x).trans (by simp [moveBit])⟩⟩

theorem rangeOf_spec (q : HybridRangeBlockQueue) (max : Nat) :
    (q.rangeOf max).flatMap DeliveryRange.seqs =
      range' q.sequentialHead (min q.sequentialReadyLen max) ∧
    (∀ r ∈ q.rangeOf max, r.len ≠ 0) ∧ (q.rangeOf max).length ≤ 1 := by
  unfold rangeOf
  split
  · next h0 => exact ⟨by simp [DeliveryRange.seqs], by simpa using h0, by simp⟩
  · next h0 => simp [not_not.mp h0]

/-- What one `deliver(max)` call hands out from the map `st`: distinct
messages that were ready or sparse-ready, at most `max` of them, and all
there are when fewer than `max`. Ready messages come as one range, the
sparse-ready ones in masks. -/
structure Delivered (st : Nat → Option MessageState) (max : Nat) (work : DeliveryWork) (n : Nat) :
    Prop where
  nodup : (workSeqs work.ranges work.masks).Nodup
  available : ∀ s ∈ workSeqs work.ranges work.masks,
    st s = some .ready ∨ st s = some .sparseReady
  count : n = (workSeqs work.ranges work.masks).length
  le : (workSeqs work.ranges work.masks).length ≤ max
  exhausted : (workSeqs work.ranges work.masks).length < max →
    ∀ s, s ∉ workSeqs work.ranges work.masks → st s ≠ some .ready ∧ st s ≠ some .sparseReady
  ranges : ∀ r ∈ work.ranges, r.len ≠ 0
  masks : ∀ m ∈ work.masks, m.word < 4 ∧ m.mask ≠ 0#64
  single : work.ranges.length ≤ 1
  fresh : ∀ r ∈ work.ranges, ∀ s ∈ r.seqs, st s = some .ready
  sparse : ∀ m ∈ work.masks, ∀ s ∈ m.seqs, st s = some .sparseReady

/-- **`deliver`.** -/
theorem Denotes.deliver (h : Denotes q st) (max : Nat) : Denotes (q.deliver max).1
      (setAll st (workSeqs (q.deliver max).2.1.ranges (q.deliver max).2.1.masks) .inflight) ∧
    Delivered st max (q.deliver max).2.1 (q.deliver max).2.2 ∧
    (q.deliver max).1.nextSeq = q.nextSeq := by
  have hhead := h.head
  have htail := h.tail
  obtain ⟨hq1, hnext1, -⟩ := h.rangeTaken max
  obtain ⟨masks, hmasks, hcount, hands⟩ :=
    deliverSparseMasks_hands hq1.shape (q.sparseAsked max)
  rw [deliver_eq]
  dsimp only
  rw [hmasks, hcount]
  obtain ⟨hranges, hlen, hone⟩ := rangeOf_spec q max
  have hasked : q.sparseAsked max = max - min q.sequentialReadyLen max := rfl
  generalize hav : min q.sequentialReadyLen max = available at *
  simp only [sequentialReadyLen] at hav
  have hstate1 : ∀ s, (q.rangeTaken max).bit .sparseReady s = true ↔
      setAll st (range' q.sequentialHead available) .inflight s = some .sparseReady :=
    fun s => hq1.state .sparseReady s
  have hwas : ∀ s ∈ maskSeqs masks, s ∉ range' q.sequentialHead available ∧
      st s = some .sparseReady := by
    intro s hs
    have h1 := (hstate1 s).mp (hands.wereSparse s hs)
    by_cases hr : s ∈ range' q.sequentialHead available
    · rw [setAll_of_mem hr] at h1
      cases h1
    · rw [setAll_of_not_mem hr] at h1
      exact ⟨hr, h1⟩
  have hready : ∀ s, st s = some .ready ↔ q.sequentialHead ≤ s ∧ s < q.nextSeq := by
    intro s
    rw [← h.state .ready s]
    simp only [inState, decide_eq_true_eq, htail]
  have hseqs : workSeqs (q.rangeOf max) masks =
      range' q.sequentialHead available ++ maskSeqs masks := by
    rw [workSeqs, hranges]
    rfl
  have hq2 := hq1.moves (by simp) (by simp) (by simp)
    (fun s hs => (hstate1 s).mp (hands.wereSparse s hs)) hands.moves
  rw [setAll_append, ← hseqs] at hq2
  refine ⟨⟨⟨hq2.shape.retry, hq2.shape.sparse⟩, hq2.tail, hq2.head, hq2.blocks, hq2.state,
    hq2.dom, hq2.flags⟩, ⟨?_, ?_, ?_, ?_, ?_, hlen, fun m hm => (hands.fits m hm).2, hone, ?_, ?_⟩,
    hands.moves.next.trans hnext1⟩
  · rw [hseqs, nodup_append]
    refine ⟨nodup_range', hands.nodup, ?_⟩
    rintro s hs t ht rfl
    exact (hwas s ht).1 hs
  · intro s hs
    rw [hseqs, mem_append] at hs
    rcases hs with hs | hs
    · rw [mem_range'_1] at hs
      exact .inl ((hready s).mpr (by omega))
    · exact .inr (hwas s hs).2
  · rw [hseqs]
    simp
  · rw [hseqs, length_append, length_range']
    have := hands.le
    omega
  · intro hlt s hs
    rw [hseqs, length_append, length_range'] at hlt
    rw [hseqs, mem_append, not_or] at hs
    refine ⟨fun hc => ?_, fun hc => ?_⟩
    · have hin := (hready s).mp hc
      apply hs.1
      rw [mem_range'_1]
      omega
    · have hnone := hands.exhausted (by omega) s
      have hbits := hands.moves.bits .sparseReady s
      rw [moveBit_src (by simp), hnone, decide_eq_false hs.2] at hbits
      have h1 : (q.rangeTaken max).bit .sparseReady s = true := by
        rw [hstate1, setAll_of_not_mem hs.1]
        exact hc
      rw [h1] at hbits
      simp at hbits
  · intro r hr s hs
    have hmem : s ∈ range' q.sequentialHead available := by
      rw [← hranges]
      exact mem_flatMap.mpr ⟨r, hr, hs⟩
    rw [mem_range'_1] at hmem
    exact (hready s).mpr (by omega)
  · intro m hm s hs
    exact (hwas s (mem_flatMap.mpr ⟨m, hm, hs⟩)).2

end HybridRangeBlockQueue

end Aurum.Queue
