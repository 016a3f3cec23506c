import Aurum.Queue.Hybrid

/-!
# Queue — bit planes and block worklists

The two views every queue operation is described in.

`bit q p s` is the bit of message `s` in the bitset of state `p`; an
operation that moves the messages `S` from one state to another is a
`Moves` fact, and `Moves` facts compose. `Shape` is the structural
half: for each of the two worklists, the summary byte of a block says
which words of its bitset are nonzero, and the intrusive list holds
exactly the blocks with a nonzero summary.
-/

namespace Aurum.Queue

open Aurum.Bits Aurum.Intrusive Aurum.Kernels MsgBlock

/-! ## Reading blocks -/

/-- The block at an index; a fresh one past the end. -/
def blockAt (blocks : List MsgBlock) (i : Nat) : MsgBlock := blocks[i]?.getD (new 0)

theorem blockAt_of_getElem? {blocks : List MsgBlock} {i : Nat} {blk : MsgBlock}
    (h : blocks[i]? = some blk) : blockAt blocks i = blk := by
  rw [blockAt, h]
  rfl

theorem blockAt_modify (blocks : List MsgBlock) (i j : Nat) (f : MsgBlock → MsgBlock) :
    blockAt (blocks.modify i f) j =
      if i = j ∧ i < blocks.length then f (blockAt blocks i) else blockAt blocks j := by
  unfold blockAt
  rw [List.getElem?_modify]
  by_cases hij : i = j
  · subst hij
    by_cases hi : i < blocks.length <;> simp [hi]
  · simp [hij]

/-- The block without its links: what the list operations cannot change. -/
def MsgBlock.unlink (b : MsgBlock) : MsgBlock :=
  { b with retryLink := Link.new, sparseLink := Link.new }

/-- A reading the two arrays agree on, past the end too. -/
theorem blockAt_read {β : Type} (f : MsgBlock → β) {blocks blocks' : List MsgBlock} {i : Nat}
    (h : blocks'[i]?.map f = blocks[i]?.map f) :
    f (blockAt blocks' i) = f (blockAt blocks i) := by
  have key : ∀ bs : List MsgBlock,
      f (blockAt bs i) = (bs[i]?.map f).getD (f (new 0)) := by
    intro bs
    unfold blockAt
    cases bs[i]? <;> rfl
  rw [key, key, h]

/-! ## Bit planes -/

/-- The bitset of a state; fresh messages have none. -/
def MsgBlock.plane (b : MsgBlock) : MessageState → Vector Word 4
  | .ready => Vector.replicate 4 0#64
  | .inflight => b.inflight
  | .acked => b.acked
  | .retry => b.retry
  | .sparseReady => b.sparseReady

theorem MsgBlock.plane_unlink (b : MsgBlock) (p : MessageState) : b.unlink.plane p = b.plane p := by
  cases p <;> rfl

namespace HybridRangeBlockQueue

/-- The bit of message `s` in the bitset of state `p`. -/
def bit (q : HybridRangeBlockQueue) (p : MessageState) (s : Nat) : Bool :=
  bitAt ((blockAt q.blocks (s / 256)).plane p) (s % 256)

/-- The `redelivered` flag of message `s`. -/
def flag (q : HybridRangeBlockQueue) (s : Nat) : Bool :=
  bitAt (blockAt q.blocks (s / 256)).redelivered (s % 256)

end HybridRangeBlockQueue

/-! ## Worklists -/

/-- One of the two intrusive worklists: its link slot and tag, and the
summary byte and bitset that decide membership. The laws say that the
slot is one of the two links and that the summary is not stored in it. -/
structure Worklist where
  slot : LinkSlot MsgBlock
  tag : BitVec 32
  wordMask : MsgBlock → BitVec 8
  words : MsgBlock → Vector Word 4
  link_new : slot.link (new 0) = Link.new
  unlink_setLink : ∀ l b, (slot.setLink l b).unlink = b.unlink
  wordMask_unlink : ∀ b, wordMask b.unlink = wordMask b
  words_unlink : ∀ b, words b.unlink = words b

def retryWork : Worklist where
  slot := retrySlot
  tag := RETRY_TAG
  wordMask := retryWordMask
  words := retry
  link_new := rfl
  unlink_setLink := fun _ _ => rfl
  wordMask_unlink := fun _ => rfl
  words_unlink := fun _ => rfl

def sparseWork : Worklist where
  slot := sparseSlot
  tag := SPARSE_TAG
  wordMask := sparseWordMask
  words := sparseReady
  link_new := rfl
  unlink_setLink := fun _ _ => rfl
  wordMask_unlink := fun _ => rfl
  words_unlink := fun _ => rfl

/-- The summary byte has exactly the bits of the nonzero words. -/
def Summarises (mask : BitVec 8) (words : Vector Word 4) : Prop :=
  ∀ w, mask.getLsbD w = true ↔ word words w ≠ 0#64

/-- An empty summary is that of an empty bitset. -/
theorem Summarises.eq_zero {mask : BitVec 8} {words : Vector Word 4}
    (h : Summarises mask words) : mask = 0#8 ↔ ∀ i, bitAt words i = false := by
  constructor
  · rintro rfl i
    have hw := (h (i / 64)).not.mp (by simp)
    rw [bitAt, not_not.mp hw]
    simp
  · intro hz
    apply BitVec.eq_of_getLsbD_eq
    intro w _
    rw [BitVec.getLsbD_zero, Bool.eq_false_iff]
    intro hw
    obtain ⟨i, _, hi⟩ := word_ne_zero.mp ((h w).mp hw)
    rw [hz i] at hi
    cases hi

namespace Worklist

variable {wl : Worklist} {blocks blocks' : List MsgBlock} {list : IndexList} {xs : List Nat}
  {x : Nat}

theorem linkAt_eq (blocks : List MsgBlock) (i : Nat) :
    linkAt wl.slot blocks i = wl.slot.link (blockAt blocks i) := by
  unfold linkAt blockAt
  cases blocks[i]? with
  | none => exact wl.link_new.symm
  | some b => rfl

variable (wl) in
/-- List operations leave everything but the links. -/
theorem unlink_sameBut (h : SameBut wl.slot blocks blocks') (i : Nat) :
    (blockAt blocks' i).unlink = (blockAt blocks i).unlink :=
  blockAt_read unlink (h.read unlink wl.unlink_setLink i)

theorem wordMask_sameBut (h : SameBut wl.slot blocks blocks') (i : Nat) :
    wl.wordMask (blockAt blocks' i) = wl.wordMask (blockAt blocks i) := by
  rw [← wl.wordMask_unlink, wl.unlink_sameBut h, wl.wordMask_unlink]

theorem words_sameBut (h : SameBut wl.slot blocks blocks') (i : Nat) :
    wl.words (blockAt blocks' i) = wl.words (blockAt blocks i) := by
  rw [← wl.words_unlink, wl.unlink_sameBut h, wl.words_unlink]

section

variable (wl)

/-- The worklist away from block `x`: the list holds exactly the other
blocks with work, and their summaries are right. -/
structure ShapeBut (blocks : List MsgBlock) (list : IndexList) (xs : List Nat) (x : Nat) :
    Prop where
  rep : Rep wl.slot wl.tag blocks list xs
  absent : x ∉ xs
  mem : ∀ i, i ≠ x → (i ∈ xs ↔ wl.wordMask (blockAt blocks i) ≠ 0#8)
  sums : ∀ i, i ≠ x → Summarises (wl.wordMask (blockAt blocks i)) (wl.words (blockAt blocks i))

/-- The worklist holds exactly the blocks with work. -/
structure Shape (blocks : List MsgBlock) (list : IndexList) (xs : List Nat) : Prop where
  rep : Rep wl.slot wl.tag blocks list xs
  mem : ∀ i, i ∈ xs ↔ wl.wordMask (blockAt blocks i) ≠ 0#8
  sums : ∀ i, Summarises (wl.wordMask (blockAt blocks i)) (wl.words (blockAt blocks i))

/-- `ensure_*_listed` on the worklist. -/
def ensure (blocks : List MsgBlock) (list : IndexList) (x : Nat) : IndexList × List MsgBlock :=
  if (linkAt wl.slot blocks x).isLinked then (list, blocks)
  else list.pushBack wl.slot wl.tag blocks x

end

/-- The shape reads nothing but the link, the summary and the bitset. -/
theorem Shape.congr (h : wl.Shape blocks list xs) (hlen : blocks.length ≤ blocks'.length)
    (hlink : ∀ i, wl.slot.link (blockAt blocks' i) = wl.slot.link (blockAt blocks i))
    (hmask : ∀ i, wl.wordMask (blockAt blocks' i) = wl.wordMask (blockAt blocks i))
    (hwords : ∀ i, wl.words (blockAt blocks' i) = wl.words (blockAt blocks i)) :
    wl.Shape blocks' list xs where
  rep := h.rep.congr hlen fun i => by rw [linkAt_eq, linkAt_eq, hlink]
  mem := fun i => by rw [hmask]; exact h.mem i
  sums := fun i => by rw [hmask, hwords]; exact h.sums i

variable {f : MsgBlock → MsgBlock}

/-- An update that touches none of the three. -/
theorem Shape.modify (h : wl.Shape blocks list xs)
    (hlink : wl.slot.link (f (blockAt blocks x)) = wl.slot.link (blockAt blocks x))
    (hmask : wl.wordMask (f (blockAt blocks x)) = wl.wordMask (blockAt blocks x))
    (hwords : wl.words (f (blockAt blocks x)) = wl.words (blockAt blocks x)) :
    wl.Shape (blocks.modify x f) list xs := by
  have hat : ∀ {β : Type} (g : MsgBlock → β), g (f (blockAt blocks x)) = g (blockAt blocks x) →
      ∀ i, g (blockAt (blocks.modify x f) i) = g (blockAt blocks i) := by
    intro β g hg i
    rw [blockAt_modify]
    split
    · next hc => rw [hg, hc.1]
    · rfl
  exact h.congr (by simp) (hat _ hlink) (hat _ hmask) (hat _ hwords)

/-- Operations on the other list leave the shape alone. -/
theorem Shape.other (h : wl.Shape blocks list xs) (wl' : Worklist)
    (hind : ∀ l b, wl.slot.link (wl'.slot.setLink l b) = wl.slot.link b)
    (hs : SameBut wl'.slot blocks blocks') : wl.Shape blocks' list xs := by
  refine h.congr (Nat.le_of_eq hs.1.symm) (fun i => ?_) (fun i => ?_) (fun i => ?_)
  · exact blockAt_read wl.slot.link (hs.read wl.slot.link hind i)
  · rw [← wl.wordMask_unlink, wl'.unlink_sameBut hs, wl.wordMask_unlink]
  · rw [← wl.words_unlink, wl'.unlink_sameBut hs, wl.words_unlink]

theorem Shape.shapeBut (h : wl.Shape blocks list xs) (hx : x ∉ xs) : wl.ShapeBut blocks list xs x :=
  ⟨h.rep, hx, fun i _ => h.mem i, fun i _ => h.sums i⟩

theorem Shape.popFront (h : wl.Shape blocks list (x :: xs)) :
    wl.ShapeBut (list.popFront wl.slot blocks).2.2 (list.popFront wl.slot blocks).2.1 xs x := by
  have hs := @sameBut_popFront _ wl.slot blocks list
  refine ⟨h.rep.popFront, (List.nodup_cons.mp h.rep.nodup).1, fun i hi => ?_, fun i _ => ?_⟩
  · rw [wordMask_sameBut hs, ← h.mem i]
    simp [hi]
  · rw [wordMask_sameBut hs, words_sameBut hs]
    exact h.sums i

section

variable (h : wl.ShapeBut blocks list xs x)
include h

/-- Away from `x`, block `x` may change as it likes. -/
theorem ShapeBut.modify
    (hf : wl.slot.link (f (blockAt blocks x)) = wl.slot.link (blockAt blocks x)) :
    wl.ShapeBut (blocks.modify x f) list xs x := by
  have hother : ∀ i, i ≠ x → blockAt (blocks.modify x f) i = blockAt blocks i := by
    intro i hi
    rw [blockAt_modify, if_neg (fun hc => hi hc.1.symm)]
  refine ⟨h.rep.congr (by simp) fun i => ?_, h.absent, fun i hi => ?_, fun i hi => ?_⟩
  · rw [linkAt_eq, linkAt_eq, blockAt_modify]
    split
    · next hc => rw [hf, hc.1]
    · rfl
  · rw [hother i hi]
    exact h.mem i hi
  · rw [hother i hi]
    exact h.sums i hi

/-- Block `x` has no work left. -/
theorem ShapeBut.idle (hmask : wl.wordMask (blockAt blocks x) = 0#8)
    (hsum : Summarises (wl.wordMask (blockAt blocks x)) (wl.words (blockAt blocks x))) :
    wl.Shape blocks list xs := by
  refine ⟨h.rep, fun i => ?_, fun i => ?_⟩
  · by_cases hi : i = x
    · subst hi
      simp [h.absent, hmask]
    · exact h.mem i hi
  · by_cases hi : i = x
    · subst hi
      exact hsum
    · exact h.sums i hi

/-- Block `x` has work and is put into the list, at either end. -/
theorem ShapeBut.insert {list' : IndexList}
    {ys : List Nat} (hrep : Rep wl.slot wl.tag blocks' list' ys)
    (hys : ∀ i, i ∈ ys ↔ i = x ∨ i ∈ xs) (hs : SameBut wl.slot blocks blocks')
    (hmask : wl.wordMask (blockAt blocks x) ≠ 0#8)
    (hsum : Summarises (wl.wordMask (blockAt blocks x)) (wl.words (blockAt blocks x))) :
    wl.Shape blocks' list' ys := by
  refine ⟨hrep, fun i => ?_, fun i => ?_⟩
  · rw [hys, wordMask_sameBut hs]
    by_cases hi : i = x
    · subst hi
      simp [hmask]
    · simp [hi, h.mem i hi]
  · rw [wordMask_sameBut hs, words_sameBut hs]
    by_cases hi : i = x
    · subst hi
      exact hsum
    · exact h.sums i hi

theorem ShapeBut.pushBack (hx : x < blocks.length) (hmask : wl.wordMask (blockAt blocks x) ≠ 0#8)
    (hsum : Summarises (wl.wordMask (blockAt blocks x)) (wl.words (blockAt blocks x))) :
    wl.Shape (list.pushBack wl.slot wl.tag blocks x).2 (list.pushBack wl.slot wl.tag blocks x).1
      (xs ++ [x]) :=
  h.insert (h.rep.pushBack hx h.absent) (fun i => by simp [or_comm])
    (sameBut_pushBack blocks list x) hmask hsum

theorem ShapeBut.pushFront (hx : x < blocks.length) (hmask : wl.wordMask (blockAt blocks x) ≠ 0#8)
    (hsum : Summarises (wl.wordMask (blockAt blocks x)) (wl.words (blockAt blocks x))) :
    wl.Shape (list.pushFront wl.slot wl.tag blocks x).2
      (list.pushFront wl.slot wl.tag blocks x).1 (x :: xs) :=
  h.insert (h.rep.pushFront hx h.absent) (fun i => by simp)
    (sameBut_pushFront blocks list x) hmask hsum

end

variable (wl) in
theorem sameBut_ensure (blocks : List MsgBlock) (list : IndexList) (x : Nat) :
    SameBut wl.slot blocks (wl.ensure blocks list x).2 := by
  unfold ensure
  split
  · exact SameBut.refl _
  · exact sameBut_pushBack blocks list x

/-- **Giving block `x` work**: after an update that leaves it with work,
`ensure_*_listed` restores the shape. A block that was not listed comes
last. -/
theorem Shape.mark_back (h : wl.Shape blocks list xs) (hx : x < blocks.length)
    (hf : wl.slot.link (f (blockAt blocks x)) = wl.slot.link (blockAt blocks x))
    (hmask : wl.wordMask (f (blockAt blocks x)) ≠ 0#8)
    (hsum : Summarises (wl.wordMask (f (blockAt blocks x))) (wl.words (f (blockAt blocks x)))) :
    ∃ ys, wl.Shape (wl.ensure (blocks.modify x f) list x).2
      (wl.ensure (blocks.modify x f) list x).1 (xs ++ ys) := by
  have hat : blockAt (blocks.modify x f) x = f (blockAt blocks x) := by
    rw [blockAt_modify, if_pos ⟨rfl, hx⟩]
  have hlink : (linkAt wl.slot (blocks.modify x f) x).isLinked = true ↔ x ∈ xs := by
    rw [linkAt_eq, hat, hf, ← linkAt_eq]
    exact h.rep.isLinked x
  have hlen : x < (blocks.modify x f).length := by simpa using hx
  unfold ensure
  by_cases hmem : x ∈ xs
  · rw [if_pos (hlink.mpr hmem)]
    refine ⟨[], ?_⟩
    rw [List.append_nil]
    refine ⟨h.rep.congr (by simp) fun i => ?_, fun i => ?_, fun i => ?_⟩
    · rw [linkAt_eq, linkAt_eq, blockAt_modify]
      split
      · next hc => rw [hf, hc.1]
      · rfl
    · by_cases hi : x = i
      · subst hi
        simp [hat, hmem, hmask]
      · rw [blockAt_modify, if_neg (fun hc => hi hc.1)]
        exact h.mem i
    · by_cases hi : x = i
      · subst hi
        rw [hat]
        exact hsum
      · rw [blockAt_modify, if_neg (fun hc => hi hc.1)]
        exact h.sums i
  · rw [if_neg (fun hc => hmem (hlink.mp hc))]
    rw [← hat] at hmask hsum
    exact ⟨[x], ((h.shapeBut hmem).modify hf).pushBack hlen hmask hsum⟩

/-- The same, wherever the block ends up. -/
theorem Shape.mark (h : wl.Shape blocks list xs) (hx : x < blocks.length)
    (hf : wl.slot.link (f (blockAt blocks x)) = wl.slot.link (blockAt blocks x))
    (hmask : wl.wordMask (f (blockAt blocks x)) ≠ 0#8)
    (hsum : Summarises (wl.wordMask (f (blockAt blocks x))) (wl.words (f (blockAt blocks x)))) :
    ∃ ys, wl.Shape (wl.ensure (blocks.modify x f) list x).2
      (wl.ensure (blocks.modify x f) list x).1 ys := by
  obtain ⟨ys, hshape⟩ := h.mark_back hx hf hmask hsum
  exact ⟨_, hshape⟩

end Worklist

end Aurum.Queue
