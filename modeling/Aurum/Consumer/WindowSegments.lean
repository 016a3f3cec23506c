import Aurum.Consumer.WindowMap
import Aurum.Lib.Runs

/-!
# Consumer — segments without outstanding tags

A window removes a segment when its last tag is settled, and `ack_one`
also removes a mask whose last remaining rank it clears. A cumulative
request that ends inside a mask keeps the mask, whatever is left of it:
if the later ranks were settled one by one before, a segment without
outstanding tags stays in the window.
-/

namespace Aurum.Consumer

open Aurum.Bits Aurum.Kernels Aurum.Queue Aurum.Runs List DeliveredSegment WindowOp

/-- A mask with a rank to settle, and no rank beyond its messages. -/
structure MaskSegment.Live (m : MaskSegment) : Prop where
  remaining : ∃ k, m.remainingRankMask.getLsbD k = true
  ranks : ∀ k, m.remainingRankMask.getLsbD k = true → k < m.originalCount

def LiveMasks (segments : List DeliveredSegment) : Prop :=
  ∀ m, .mask m ∈ segments → m.Live

theorem MaskSegment.Live.containsTag {m : MaskSegment} (h : m.Live) :
    ∃ tag, (mask m).containsTag tag = true := by
  obtain ⟨k, hk⟩ := h.remaining
  have hlt : k < (positions m.originalMask).length := h.ranks k hk
  exact ⟨m.firstTag + k, containsTag_iff.mpr ⟨_, MaskSegment.mem_entries.mpr
    ⟨k, _, getElem?_eq_getElem hlt, hk, rfl, rfl⟩⟩⟩

theorem MaskSegment.live_new (next block word : Nat) {mask : Word} (h : mask ≠ 0#64)
    (redelivered : Bool) : (MaskSegment.new next block word mask redelivered).Live := by
  refine ⟨⟨0, ?_⟩, fun k hk => ?_⟩
  · rw [getLsbD_new]
    exact decide_eq_true (countOnes_pos.mpr h)
  · rw [getLsbD_new] at hk
    exact of_decide_eq_true hk

variable {segments : List DeliveredSegment} {acc : SegmentDeliveryWindow × Nat}

theorem LiveMasks.snoc {seg : DeliveredSegment} (h : LiveMasks segments) (hseg : LiveMasks [seg]) :
    LiveMasks (segments ++ [seg]) := by
  intro m hm
  rcases mem_append.mp hm with hm | hm
  · exact h m hm
  · exact hseg m hm

/-! ## Single requests -/

/-- A word with more than one bit has a bit besides a given one. -/
theorem exists_other_bit {x : Word} {k : Nat} (hk : x.getLsbD k = true) (hone : countOnes x ≠ 1) :
    ∃ j, x.getLsbD j = true ∧ j ≠ k := by
  by_contra hno
  have hall : ∀ j ∈ positions x, j = k := fun j hj => by
    by_contra hne
    exact hno ⟨j, mem_positions.mp hj, hne⟩
  have hrep := eq_replicate_of_mem hall
  have hnd := positions_nodup x
  rw [hrep, nodup_replicate] at hnd
  have hpos := length_pos_of_mem (mem_positions.mpr hk)
  exact hone (Nat.le_antisymm hnd hpos)

theorem liveMasks_takeOne {w : SegmentDeliveryWindow} (h : LiveMasks w.segments) (tag : Nat) :
    LiveMasks (settle w (w.takeOne tag)).segments := by
  rw [SegmentDeliveryWindow.takeOne]
  cases hidx : w.findSegmentIdx tag with
  | none => exact h
  | some idx =>
    obtain ⟨pre, seg, post, heq, rfl, hseg⟩ := findIdx?_split hidx
    rw [heq] at h ⊢
    have hget : (pre ++ seg :: post)[pre.length]? = some seg := by simp
    simp only [hget, settle]
    cases seg with
    | range r =>
      have hrest : ∀ m, .mask m ∈ pre ∨ .mask m ∈ post → m.Live := fun m hm =>
        h m (by simpa using hm)
      simp only [computeOneAction]
      split_ifs <;> intro m hm <;>
        simp only [applySegAction, eraseIdx_split, modify_split, insertIdx_split, mem_append,
          mem_cons, reduceCtorEq, false_or] at hm <;> exact hrest m hm
    | mask m =>
      have hm := h m (by simp)
      obtain ⟨s, hs⟩ := containsTag_iff.mp hseg
      obtain ⟨k, -, -, hk, rfl, -⟩ := MaskSegment.mem_entries.mp hs
      simp only [computeOneAction, Nat.add_sub_cancel_left]
      split_ifs with hone
      · rw [applySegAction, eraseIdx_split]
        intro m' hm'
        exact h m' (by simpa using (mem_append.mp hm').imp_right .inr)
      · -- another rank remains
        obtain ⟨j, hj, hjk⟩ := exists_other_bit hk hone
        rw [applySegAction, modify_split]
        intro m' hm'
        rcases mem_append.mp hm' with hm' | hm'
        · exact h m' (mem_append_left _ hm')
        rcases mem_cons.mp hm' with hm' | hm'
        · cases hm'
          refine ⟨⟨j, ?_⟩, fun i hi => hm.ranks i ?_⟩
          · rw [BitVec.getLsbD_and, BitVec.getLsbD_not, getLsbD_one_shiftLeft]
            simp [hj, hjk, BitVec.lt_of_getLsbD hj]
          · rw [BitVec.getLsbD_and, Bool.and_eq_true] at hi
            exact hi.1
        · exact h m' (by simp [hm'])

/-! ## Cumulative requests -/

/-- A tag that is settled together with those before it, inside a segment
and not as its last tag, is not the last outstanding one there. -/
def LeavesLater (tag : Nat) (segments : List DeliveredSegment) : Prop :=
  ∀ seg ∈ segments, seg.containsTag tag = true → tag < seg.lastTag →
    ∃ e ∈ seg.entries, tag < e.1

theorem liveMasks_takeFront {W tag next : Nat} : ∀ {segments : List DeliveredSegment},
    Ordered W segments next → (∃ s, (tag, s) ∈ entriesOf segments) → LeavesLater tag segments →
    LiveMasks segments → ∀ (batch : AckBatch) (settled : Nat),
    LiveMasks (takeFront tag segments batch settled).1 := by
  intro segments
  induction segments with
  | nil => exact fun _ _ _ h _ _ => h
  | cons seg segments ih =>
    rintro hord ⟨s, hs⟩ hlater hlive batch settled
    have hrest : LiveMasks segments := fun m hm => hlive m (mem_cons_of_mem _ hm)
    rw [takeFront]
    by_cases hlast : seg.lastTag ≤ tag
    · by_cases heq : seg.lastTag = tag
      · simp only [heq, Nat.le_refl, if_true]
        exact hrest
      · simp only [hlast, heq, if_true, if_false]
        refine ih hord.tail ⟨s, ?_⟩ (fun x hx => hlater x (mem_cons_of_mem _ hx)) hrest _ _
        refine (mem_append.mp hs).resolve_left fun hin => ?_
        have := (entries_bounds hin).2
        dsimp only at this
        omega
    · simp only [hlast, if_false]
      -- the segment the tag lies in
      have hin : (tag, s) ∈ seg.entries := (mem_append.mp hs).resolve_right fun hin =>
        hlast (Nat.le_of_lt (hord.lt_of_tail hin))
      obtain ⟨e, he, hlt⟩ := hlater seg mem_cons_self
        (containsTag_iff.mpr ⟨s, hin⟩) (Nat.lt_of_not_le hlast)
      intro m hm
      rcases mem_cons.mp hm with hm | hm
      · cases seg with
        | range r => cases hm
        | mask m₀ =>
          cases hm
          have hfirst : m₀.firstTag ≤ tag := (entries_bounds hin).1
          obtain ⟨-, hrem⟩ := extractBitsUpToRank_spec m₀.originalMask m₀.remainingRankMask
            (tag - m₀.firstTag)
          obtain ⟨k, -, -, hk, hek, -⟩ := MaskSegment.mem_entries.mp
            (show (e.1, e.2) ∈ m₀.entries from he)
          exact ⟨⟨k, (hrem k).mpr ⟨hk, fun hc => by omega⟩⟩, fun j hj =>
            (hlive m₀ mem_cons_self).ranks j ((hrem j).mp hj).1⟩
      · exact hrest m hm

/-! ## Runs -/

/-- The tag up to which a call settles. -/
def WindowOp.upTo : WindowOp → Option Nat
  | .ackMultiple tag | .nackMultiple tag _ => some tag
  | _ => none

/-- A push is not empty and the counter does not overflow; a cumulative
request leaves an outstanding tag in a segment it ends inside of. -/
def KeepsLive (acc : SegmentDeliveryWindow × Nat) (op : WindowOp) : Prop :=
  (op.NonEmpty ∧ (entriesOf (op.apply acc).1.segments).length < 2 ^ 32) ∧
    ∀ tag ∈ op.upTo, LeavesLater tag acc.1.segments

theorem liveMasks_takeMultiple (hok : WindowOk acc) (h : LiveMasks acc.1.segments) {tag : Nat}
    (hlater : LeavesLater tag acc.1.segments) :
    LiveMasks (settle acc.1 (acc.1.takeMultiple tag)).segments := by
  obtain ⟨W, hw⟩ := hok.ordered
  by_cases hx : ∃ s, (tag, s) ∈ entriesOf acc.1.segments
  · have hin : acc.1.containsTag tag = true := by
      obtain ⟨s, hs⟩ := hx
      obtain ⟨seg, hseg, hs⟩ := mem_flatMap.mp hs
      exact any_eq_true.mpr ⟨seg, hseg, containsTag_iff.mpr ⟨s, hs⟩⟩
    simp only [SegmentDeliveryWindow.takeMultiple, hin, Bool.not_true, Bool.false_eq_true, if_false]
    exact liveMasks_takeFront hw hx hlater h _ _
  · rw [SegmentDeliveryWindow.takeMultiple_error (not_exists.mp hx)]
    exact h

theorem liveMasks_apply (hok : WindowOk acc) (h : LiveMasks acc.1.segments) {op : WindowOp}
    (hop : KeepsLive acc op) : LiveMasks (op.apply acc).1.segments := by
  cases op with
  | pushRange range redelivered => exact h.snoc fun m hm => by simp at hm
  | pushMask mask redelivered =>
    refine h.snoc fun m hm => ?_
    cases mem_singleton.mp hm
    exact MaskSegment.live_new _ _ _ hop.1.1 _
  | ackOne tag => exact liveMasks_takeOne h tag
  | ackMultiple tag => exact liveMasks_takeMultiple hok h (hop.2 tag rfl)
  | nackOne tag reason =>
    rw [apply, SegmentDeliveryWindow.nackOne, WindowOk.settle_map]
    exact liveMasks_takeOne h tag
  | nackMultiple tag reason =>
    rw [apply, SegmentDeliveryWindow.nackMultiple, WindowOk.settle_map]
    exact liveMasks_takeMultiple hok h (hop.2 tag rfl)
  | drainAll reason => exact fun m hm => absurd hm not_mem_nil

/-- Every segment has an outstanding tag, so there are at most as many
segments as outstanding tags, and none without outstanding tags. -/
structure NoEmptySegments (w : SegmentDeliveryWindow) : Prop where
  containsTag : ∀ seg ∈ w.segments, ∃ tag, seg.containsTag tag = true
  length : w.segments.length ≤ w.unacked
  empty : (∀ tag, w.containsTag tag = false) → w.segments = []

theorem length_le_entries (h : ∀ seg ∈ segments, ∃ tag, seg.containsTag tag = true) :
    segments.length ≤ (entriesOf segments).length := by
  induction segments with
  | nil => exact Nat.le_refl _
  | cons seg segments ih =>
    obtain ⟨tag, htag⟩ := h seg mem_cons_self
    obtain ⟨s, hs⟩ := containsTag_iff.mp htag
    have hpos := length_pos_of_mem hs
    have := ih fun x hx => h x (mem_cons_of_mem _ hx)
    rw [entriesOf_cons, length_append, length_cons]
    omega

theorem noEmptySegments_of (hok : WindowOk acc) (h : LiveMasks acc.1.segments) :
    NoEmptySegments acc.1 := by
  obtain ⟨W, hw⟩ := hok.ordered
  have hall : ∀ seg ∈ acc.1.segments, ∃ tag, seg.containsTag tag = true := by
    intro seg hseg
    cases seg with
    | range r =>
      have hlen : 0 < r.len := hw.wellFormed _ hseg
      exact ⟨r.firstTag, by simp [containsTag, RangeSegment.containsTag, hlen]⟩
    | mask m => exact (h m hseg).containsTag
  refine ⟨hall, hok.unacked ▸ length_le_entries hall, fun hnone => ?_⟩
  refine eq_nil_iff_forall_not_mem.mpr fun seg hseg => ?_
  obtain ⟨tag, htag⟩ := hall seg hseg
  exact absurd htag (by simpa using any_eq_false.mp (hnone tag) seg hseg)

/-- **No empty segments**, in every run whose cumulative requests leave an
outstanding tag in the segment they end inside of. -/
theorem no_empty_segments (ops : List WindowOp)
    (h : Meets WindowOp.apply KeepsLive (.new, 1) ops) : NoEmptySegments (runWindow ops).1 := by
  have hrun := h.invariant (I := fun acc => WindowOk acc ∧ LiveMasks acc.1.segments ∧
      acc.1.outstanding < 2 ^ 32) (fun acc op hacc hop => by
    have hlt := lt_of_le_of_lt (SegmentDeliveryWindow.outstanding_le _) hop.1.2
    exact ⟨hacc.1.apply hop.1.1 hacc.2.2 hlt, liveMasks_apply hacc.1 hacc.2.1 hop, hlt⟩)
    ⟨⟨⟨0, Ordered.nil _⟩, Nat.le_refl _, rfl⟩, fun m hm => absurd hm not_mem_nil,
      lt_of_le_of_lt (SegmentDeliveryWindow.outstanding_le _) (by decide)⟩
  exact noEmptySegments_of hrun.1 hrun.2.1

/-- The first of three ranks settled alone, then the tags up to the second. -/
theorem no_empty_segments_three_ranks : Meets WindowOp.apply KeepsLive (.new, 1)
        [.pushMask ⟨0, 0, 7#64⟩ true, .ackOne 1, .ackMultiple 2] ∧
      NoEmptySegments (runWindow [.pushMask ⟨0, 0, 7#64⟩ true, .ackOne 1, .ackMultiple 2]).1 := by
  have h : Meets WindowOp.apply KeepsLive (.new, 1)
      [.pushMask ⟨0, 0, 7#64⟩ true, .ackOne 1, .ackMultiple 2] :=
    ⟨⟨⟨by simp [WindowOp.NonEmpty], by decide +kernel⟩, by simp [WindowOp.upTo]⟩,
      ⟨⟨trivial, by decide +kernel⟩, by simp [WindowOp.upTo]⟩,
      ⟨⟨trivial, by decide +kernel⟩, fun tag htag => by
        cases htag
        unfold LeavesLater
        decide +kernel⟩, trivial⟩
  exact ⟨h, no_empty_segments _ h⟩

/-- Two redelivered messages, the second settled alone and then the tags
up to the first: the window keeps a segment without outstanding tags. -/
theorem settled_mask_stays :
    ∃ m : MaskSegment, (runWindow [.pushMask ⟨0, 0, 3#64⟩ true, .ackOne 2, .ackMultiple 1]).1 =
      ⟨[.mask m], 0⟩ ∧ m.remainingCount = 0 :=
  ⟨⟨1, 0, 0, 3#64, 0#64, true⟩, by decide +kernel⟩

end Aurum.Consumer
