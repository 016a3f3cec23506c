import Aurum.Consumer.SessionSpec
import Mathlib.Data.Set.Card

/-!
# Consumer — the window as a map

What a delivery window is for: a finite map from the outstanding tags to
messages. `lookup` reads a window as such a map, segment by segment, and
every operation is an equation on it. The structural edits (trimming,
splitting, clearing a rank, removing a segment) do not appear.

The tags are those a session issues: each push starts where the last one
ended. Masks may lie in any word of a block.
-/

namespace Aurum.Consumer

open Aurum.Bits Aurum.Kernels Aurum.Queue List SegmentDeliveryWindow MaskSegment Prod

/-! ## The map -/

variable {tag s : Nat} {seg : DeliveredSegment} {take : Nat → Bool}
  {res : Except ConsumerError (AckBatch × SegmentDeliveryWindow)}

theorem mk_mem_tagged {t : Nat} {S : List Nat} :
    (tag, s) ∈ tagged t S ↔ t ≤ tag ∧ S[tag - t]? = some s := by
  rw [← mk_mem_zipIdx_iff_le_and_getElem?_sub]
  simp [tagged]

/-- The message a segment holds under a tag. -/
def DeliveredSegment.lookup : DeliveredSegment → Nat → Option Nat
  | .range r, tag =>
    if r.firstTag ≤ tag ∧ tag < r.firstTag + r.len then
      some (r.startSeq + (tag - r.firstTag))
    else none
  | .mask m, tag =>
    if m.firstTag ≤ tag ∧ m.remainingRankMask.getLsbD (tag - m.firstTag) = true then
      (positions m.originalMask)[tag - m.firstTag]?.map fun bit =>
        256 * m.block + 64 * m.word + bit
    else none

theorem DeliveredSegment.lookup_eq_some : seg.lookup tag = some s ↔ (tag, s) ∈ seg.entries := by
  cases seg with
  | range r =>
    rw [lookup, DeliveredSegment.entries, RangeSegment.mem_entries]
    split
    · next h => simp [h, eq_comm]
    · next h =>
      simp only [reduceCtorEq, false_iff]
      exact fun hc => h ⟨hc.1, hc.2.1⟩
  | mask m =>
    rw [lookup, DeliveredSegment.entries, mem_entries]
    constructor
    · intro h
      split at h
      · next hr =>
        obtain ⟨p, hp, rfl⟩ := Option.map_eq_some_iff.mp h
        exact ⟨tag - m.firstTag, p, hp, hr.2, by omega, rfl⟩
      · cases h
    · rintro ⟨k, p, hp, hr, rfl, rfl⟩
      rw [Nat.add_sub_cancel_left, if_pos ⟨by omega, hr⟩, hp]
      rfl

namespace SegmentDeliveryWindow

/-- **The map a window denotes**, from outstanding tags to messages. -/
def lookup (w : SegmentDeliveryWindow) (tag : Nat) : Option Nat :=
  w.segments.findSome? fun seg => seg.lookup tag

/-- The number of outstanding tags. -/
noncomputable def outstanding (w : SegmentDeliveryWindow) : Nat :=
  {tag | (w.lookup tag).isSome = true}.ncard

variable {w w' : SegmentDeliveryWindow} {W next : Nat}

/-- In tag order no two segments hold the same tag. -/
theorem lookup_eq_some (hw : Ordered W w.segments next) :
    w.lookup tag = some s ↔ (tag, s) ∈ entriesOf w.segments := by
  constructor
  · intro h
    obtain ⟨seg, hseg, hs⟩ := exists_of_findSome?_eq_some h
    exact mem_flatMap.mpr ⟨seg, hseg, DeliveredSegment.lookup_eq_some.mp hs⟩
  · intro h
    obtain ⟨seg, hseg, hs⟩ := mem_flatMap.mp h
    -- some segment answers, and tags are distinct
    cases hl : w.lookup tag with
    | none =>
      have hnone := findSome?_eq_none_iff.mp hl seg hseg
      rw [DeliveredSegment.lookup_eq_some.mpr hs] at hnone
      cases hnone
    | some s' =>
      obtain ⟨seg', hseg', hs'⟩ := exists_of_findSome?_eq_some hl
      have hmem : (tag, s') ∈ entriesOf w.segments :=
        mem_flatMap.mpr ⟨seg', hseg', DeliveredSegment.lookup_eq_some.mp hs'⟩
      rw [seq_unique hw.entries_sorted h hmem]

theorem lookup_eq_none (hw : Ordered W w.segments next) :
    w.lookup tag = none ↔ ∀ s, (tag, s) ∉ entriesOf w.segments := by
  rw [Option.eq_none_iff_forall_ne_some]
  exact forall_congr' fun s => not_congr (lookup_eq_some hw)

/-- Tags not issued yet are not outstanding. -/
theorem lookup_fresh (hw : Ordered W w.segments next) (h : next ≤ tag) : w.lookup tag = none := by
  refine (lookup_eq_none hw).mpr fun s hs => ?_
  have := (hw.entries_bounds hs).2
  dsimp only at this
  omega

theorem lookup_isSome (hw : Ordered W w.segments next) :
    (w.lookup tag).isSome = true ↔ tag ∈ (entriesOf w.segments).map fst := by
  rw [Option.isSome_iff_exists, mem_map]
  constructor
  · rintro ⟨s, hs⟩
    exact ⟨(tag, s), (lookup_eq_some hw).mp hs, rfl⟩
  · rintro ⟨⟨t, s⟩, hs, rfl⟩
    exact ⟨s, (lookup_eq_some hw).mpr hs⟩

/-- Every outstanding tag has an entry. -/
theorem outstanding_le (w : SegmentDeliveryWindow) :
    w.outstanding ≤ (entriesOf w.segments).length := by
  have hsub : {tag | (w.lookup tag).isSome = true} ⊆
      (((entriesOf w.segments).map fst).toFinset : Set Nat) := by
    intro tag htag
    obtain ⟨s, hs⟩ := Option.isSome_iff_exists.mp htag
    obtain ⟨seg, hseg, hseg'⟩ := exists_of_findSome?_eq_some hs
    rw [coe_toFinset]
    exact mem_map.mpr ⟨(tag, s), mem_flatMap.mpr
      ⟨seg, hseg, DeliveredSegment.lookup_eq_some.mp hseg'⟩, rfl⟩
  calc w.outstanding
      ≤ ((entriesOf w.segments).map fst).toFinset.card := by
        rw [← Set.ncard_coe_finset]
        exact Set.ncard_le_ncard hsub (Finset.finite_toSet _)
    _ ≤ ((entriesOf w.segments).map fst).length := toFinset_card_le _
    _ = (entriesOf w.segments).length := length_map _

section

variable (hw : Ordered W w.segments next)
include hw

theorem tags_nodup : ((entriesOf w.segments).map fst).Nodup :=
  pairwise_map.mpr (hw.entries_sorted.imp fun h => by omega)

/-- The outstanding tags are counted by the entries. -/
theorem outstanding_eq : w.outstanding = (entriesOf w.segments).length := by
  have hset : {tag | (w.lookup tag).isSome = true} =
      (((entriesOf w.segments).map fst).toFinset : Set Nat) := by
    ext tag
    simp only [Set.mem_ofPred_eq, coe_toFinset]
    exact lookup_isSome hw
  rw [outstanding, hset, Set.ncard_coe_finset, toFinset_card_of_nodup (tags_nodup hw),
    length_map]

/-! ## Pushing -/

theorem ordered_words {W' : Nat} (hle : W ≤ W') : Ordered W' w.segments next := by
  refine ⟨fun seg hseg => ?_, hw.order, hw.bounds⟩
  have hwf := hw.wellFormed seg hseg
  cases seg with
  | range r => exact hwf
  | mask m => exact ⟨hwf.1, lt_of_lt_of_le hwf.2 hle⟩

/-- A pushed segment answers for its own tags, which are fresh. -/
theorem lookup_snoc (hfirst : next ≤ seg.firstTag) (unacked tag : Nat) :
    (mk (w.segments ++ [seg]) unacked).lookup tag =
      (seg.lookup tag).or (w.lookup tag) := by
  have hold : w.lookup tag = w.segments.findSome? fun seg => seg.lookup tag := rfl
  rw [lookup, findSome?_append, ← hold]
  cases hseg : seg.lookup tag with
  | none => simp [hseg]
  | some s =>
    have hb := DeliveredSegment.entries_bounds (DeliveredSegment.lookup_eq_some.mp hseg)
    have hnone : w.lookup tag = none := lookup_fresh hw (by omega)
    simp [hnone, hseg]

theorem ordered_pushRange (h1 : 1 ≤ next) {range : DeliveryRange}
    (hlen : range.len ≠ 0) (redelivered : Bool) :
    Ordered W (w.pushRange next range redelivered).segments (next + range.len) := by
  refine hw.snoc (show 0 < range.len by omega) rfl h1 ?_
  simp only [DeliveredSegment.lastTag, RangeSegment.lastTag]
  omega

end

theorem entries_pushRange (w : SegmentDeliveryWindow) (next : Nat) (range : DeliveryRange)
    (redelivered : Bool) :
    entriesOf (w.pushRange next range redelivered).segments =
      entriesOf w.segments ++ tagged next range.seqs := by
  simp [pushRange, DeliveredSegment.entries, RangeSegment.entries_eq_tagged]

theorem ordered_pushMask (hw : Ordered W w.segments next) (h1 : 1 ≤ next) {mask : DeliveryMask}
    (hmask : mask.mask ≠ 0#64) (hword : mask.word < W) (count : Nat) (redelivered : Bool) :
    Ordered W (w.pushMask next mask count redelivered).segments
      (next + countOnes mask.mask) := by
  have hpos := countOnes_pos.mpr hmask
  have hwf : (DeliveredSegment.mask
      (MaskSegment.new next mask.block mask.word mask.mask redelivered)).WellFormed W :=
    ⟨hmask, hword⟩
  refine hw.snoc hwf rfl h1 ?_
  simp only [DeliveredSegment.lastTag, MaskSegment.lastTag, MaskSegment.originalCount,
    MaskSegment.new]
  omega

variable (w)

theorem entries_pushMask (next : Nat) (mask : DeliveryMask) (count : Nat) (redelivered : Bool) :
    entriesOf (w.pushMask next mask count redelivered).segments =
      entriesOf w.segments ++ tagged next mask.seqs := by
  simp [pushMask, DeliveredSegment.entries, entries_new]

/-- A fresh mask segment has all its ranks. -/
theorem lookup_newMask (next tag : Nat) (mask : DeliveryMask) (redelivered : Bool) :
    (DeliveredSegment.mask
        (MaskSegment.new next mask.block mask.word mask.mask redelivered)).lookup tag =
      if next ≤ tag then
        (positions mask.mask)[tag - next]?.map fun bit => 256 * mask.block + 64 * mask.word + bit
      else none := by
  refine Option.ext fun s => ?_
  rw [DeliveredSegment.lookup_eq_some, DeliveredSegment.entries, MaskSegment.entries_new,
    mk_mem_tagged, DeliveryMask.seqs, getElem?_map]
  by_cases h : next ≤ tag
  · simp only [h, true_and, if_true]
    rfl
  · simp [h]

/-! ## Taking -/

/-- `S` is the messages of the outstanding tags that satisfy `take`, each
tag counted once. -/
def Collects (take : Nat → Bool) (S : List Nat) : Prop :=
  ∃ tags : List Nat, tags.Nodup ∧
    (∀ t, t ∈ tags ↔ take t = true ∧ (w.lookup t).isSome = true) ∧
    S.Perm (tags.filterMap w.lookup)

/-- No message is outstanding under two tags. -/
def Injective : Prop :=
  ∀ t t' s, w.lookup t = some s → w.lookup t' = some s → t = t'

variable {w}

/-- Distinct messages are returned without duplicates. -/
theorem Collects.nodup {S : List Nat} (h : w.Collects take S) (hinj : w.Injective) : S.Nodup := by
  obtain ⟨tags, hnd, -, hperm⟩ := h
  rw [hperm.nodup_iff]
  exact hnd.filterMap fun t t' s hs hs' => hinj t t' s hs hs'

/-- **What `take` removes**: the batch denotes the messages of the tags
taken, and exactly those tags are gone. -/
structure Removes (take : Nat → Bool) (w : SegmentDeliveryWindow) (S : List Nat)
    (w' : SegmentDeliveryWindow) : Prop where
  collects : w.Collects take S
  nodup : w.Injective → S.Nodup
  rest : ∀ t, w'.lookup t = if take t then none else w.lookup t

theorem removes_of_takes (hw : Ordered W w.segments next) {batch : AckBatch}
    (h : Takes W take next w batch w') : Removes take w (workSeqs batch.ranges batch.masks) w' := by
  have hcollects : w.Collects take (workSeqs batch.ranges batch.masks) := by
    refine ⟨(taken take (entriesOf w.segments)).map fst,
      (tags_nodup hw).sublist (filter_sublist.map _), fun t => ?_, ?_⟩
    · rw [lookup_isSome hw]
      simp only [taken, mem_map, mem_filter]
      constructor
      · rintro ⟨e, ⟨he, htake⟩, rfl⟩
        exact ⟨htake, e, he, rfl⟩
      · rintro ⟨htake, e, he, rfl⟩
        exact ⟨e, ⟨he, htake⟩, rfl⟩
    · -- looking the taken tags up again gives their messages
      have hback : ((taken take (entriesOf w.segments)).map fst).filterMap w.lookup =
          (taken take (entriesOf w.segments)).map snd := by
        rw [filterMap_map, ← filterMap_eq_map]
        refine filterMap_congr fun e he => ?_
        exact (lookup_eq_some hw).mpr (mem_filter.mp he).1
      rw [hback]
      exact h.seqs
  refine ⟨hcollects, hcollects.nodup, fun t => ?_⟩
  · refine Option.ext fun s => ?_
    rw [lookup_eq_some h.ordered, h.rest, taken, mem_filter]
    split
    · next ht => simp [ht]
    · next ht => simp [ht, lookup_eq_some hw]

/-! ## What every operation does -/

/-- A request for tag `t` fails exactly if `t` is not outstanding; `ok`
is what is known of the batch and the window otherwise. -/
def Answers {β : Type} (w : SegmentDeliveryWindow) (t : Nat)
    (res : Except ConsumerError (β × SegmentDeliveryWindow))
    (ok : β → SegmentDeliveryWindow → Prop) : Prop :=
  (w.lookup t = none ∧ ∃ e, res = .error e) ∨
    ((w.lookup t).isSome = true ∧ ∃ batch w', res = .ok (batch, w') ∧ ok batch w')

/-- **The window as a finite map**, `next` being the next tag. -/
structure WindowSpec (w : SegmentDeliveryWindow) (next : Nat) : Prop where
  finite : {tag | (w.lookup tag).isSome = true}.Finite
  fresh : ∀ t, next ≤ t → w.lookup t = none
  unacked : w.unacked = w.outstanding
  pushRange : ∀ range redelivered, range.len ≠ 0 → ∀ t,
    (w.pushRange next range redelivered).lookup t =
      if next ≤ t ∧ t < next + range.len then some (range.startSeq + (t - next))
      else w.lookup t
  pushMask : ∀ mask redelivered, mask.mask ≠ 0#64 → ∀ t,
    (w.pushMask next mask (countOnes mask.mask) redelivered).lookup t =
      if next ≤ t ∧ t < next + countOnes mask.mask then
        (positions mask.mask)[t - next]?.map fun bit => 256 * mask.block + 64 * mask.word + bit
      else w.lookup t
  ackOne : ∀ t, w.Answers t (w.ackOne t) fun batch w' =>
    some (workSeqs batch.ranges batch.masks) = (w.lookup t).map ([·]) ∧
      ∀ u, w'.lookup u = if u = t then none else w.lookup u
  nackOne : ∀ t reason, w.Answers t (w.nackOne t reason) fun batch w' =>
    batch.reason = reason ∧ some (workSeqs batch.ranges batch.masks) = (w.lookup t).map ([·]) ∧
      ∀ u, w'.lookup u = if u = t then none else w.lookup u
  ackMultiple : ∀ t, w.Answers t (w.ackMultiple t) fun batch w' =>
    Removes (fun u => decide (u ≤ t)) w (workSeqs batch.ranges batch.masks) w'
  nackMultiple : ∀ t reason, w.Answers t (w.nackMultiple t reason) fun batch w' =>
    batch.reason = reason ∧
      Removes (fun u => decide (u ≤ t)) w (workSeqs batch.ranges batch.masks) w'
  drainAll : ∀ reason, (w.drainAll reason).1.reason = reason ∧
    Removes (fun _ => true) w
      (workSeqs (w.drainAll reason).1.ranges (w.drainAll reason).1.masks) (w.drainAll reason).2

theorem lookup_pushRange (hw : Ordered W w.segments next) (range : DeliveryRange)
    (redelivered : Bool) (t : Nat) :
    (w.pushRange next range redelivered).lookup t =
      if next ≤ t ∧ t < next + range.len then some (range.startSeq + (t - next))
      else w.lookup t := by
  rw [pushRange, lookup_snoc hw (Nat.le_refl _)]
  simp only [DeliveredSegment.lookup]
  split <;> rfl

theorem lookup_pushMask (hw : Ordered W w.segments next) (mask : DeliveryMask) (count : Nat)
    (redelivered : Bool) (t : Nat) :
    (w.pushMask next mask count redelivered).lookup t =
      if next ≤ t ∧ t < next + countOnes mask.mask then
        (positions mask.mask)[t - next]?.map fun bit => 256 * mask.block + 64 * mask.word + bit
      else w.lookup t := by
  rw [pushMask, lookup_snoc hw (Nat.le_refl _), lookup_newMask]
  by_cases h : next ≤ t
  · by_cases hlt : t < next + countOnes mask.mask
    · have hidx : t - next < (positions mask.mask).length := by
        change t - next < countOnes mask.mask
        omega
      simp [h, hlt, getElem?_eq_getElem hidx]
    · have hidx : (positions mask.mask)[t - next]? = none := by
        refine getElem?_eq_none ?_
        change countOnes mask.mask ≤ t - next
        omega
      simp [h, hlt, hidx]
  · simp [h]

theorem answers_takeOne (hw : Ordered W w.segments next) (t : Nat) :
    w.Answers t (w.takeOne t) fun batch w' =>
      some (workSeqs batch.ranges batch.masks) = (w.lookup t).map ([·]) ∧
        ∀ u, w'.lookup u = if u = t then none else w.lookup u := by
  cases hl : w.lookup t with
  | none => exact .inl ⟨hl, _, takeOne_error ((lookup_eq_none hw).mp hl)⟩
  | some s =>
    obtain ⟨batch, w', hok, htakes, hseqs, -⟩ := takeOne_ok hw ((lookup_eq_some hw).mp hl)
    refine .inr ⟨by rw [hl]; rfl, batch, w', hok, by rw [hseqs]; rfl, fun u => ?_⟩
    rw [(removes_of_takes hw htakes).rest u]
    simp

theorem answers_takeMultiple (hw : Ordered W w.segments next) (t : Nat) :
    w.Answers t (w.takeMultiple t) fun batch w' =>
      Removes (fun u => decide (u ≤ t)) w (workSeqs batch.ranges batch.masks) w' := by
  cases hl : w.lookup t with
  | none => exact .inl ⟨hl, _, takeMultiple_error ((lookup_eq_none hw).mp hl)⟩
  | some s =>
    obtain ⟨batch, w', hok, htakes⟩ := takeMultiple_ok hw ((lookup_eq_some hw).mp hl)
    exact .inr ⟨by rw [hl]; rfl, batch, w', hok, removes_of_takes hw htakes⟩

/-- The nack form of a request is the ack form with a reason. -/
theorem Answers.nack {t : Nat}
    {ok : List DeliveryRange → List DeliveryMask → SegmentDeliveryWindow → Prop}
    (h : w.Answers t res fun batch w' => ok batch.ranges batch.masks w') (reason : NackReason) :
    w.Answers t (res.map fun r => (nackBatch reason r.1, r.2)) fun batch w' =>
      batch.reason = reason ∧ ok batch.ranges batch.masks w' := by
  rcases h with ⟨hn, e, rfl⟩ | ⟨hs, batch, w', rfl, hok⟩
  · exact .inl ⟨hn, e, rfl⟩
  · exact .inr ⟨hs, nackBatch reason batch, w', rfl, rfl, hok⟩

theorem windowSpec_of (hw : Ordered W w.segments next)
    (hun : w.unacked = (entriesOf w.segments).length) : WindowSpec w next where
  finite := by
    refine ((entriesOf w.segments).map fst).toFinset.finite_toSet.subset fun t ht => ?_
    rw [coe_toFinset]
    exact (lookup_isSome hw).mp ht
  fresh := fun t ht => lookup_fresh hw ht
  unacked := by rw [hun, outstanding_eq hw]
  pushRange := fun range redelivered _ => lookup_pushRange hw range redelivered
  pushMask := fun mask redelivered _ => lookup_pushMask hw mask _ redelivered
  ackOne := answers_takeOne hw
  nackOne := fun t reason => @Answers.nack (w.takeOne t) w t
    (fun ranges masks w' => some (workSeqs ranges masks) = (w.lookup t).map ([·]) ∧
      ∀ u, w'.lookup u = if u = t then none else w.lookup u) (answers_takeOne hw t) reason
  ackMultiple := answers_takeMultiple hw
  nackMultiple := fun t reason => @Answers.nack (w.takeMultiple t) w t
    (fun ranges masks w' => Removes (fun u => decide (u ≤ t)) w (workSeqs ranges masks) w')
    (answers_takeMultiple hw t) reason
  drainAll := by
    intro reason
    obtain ⟨batch, heq, htakes⟩ := drainAll_takes hw reason
    rw [heq]
    exact ⟨rfl, removes_of_takes hw htakes⟩

end SegmentDeliveryWindow

/-! ## Runs -/

/-- The calls on a window; a push takes the next free tags, and
`push_mask` is told the number of messages of its mask. -/
inductive WindowOp where
  | pushRange (range : DeliveryRange) (redelivered : Bool)
  | pushMask (mask : DeliveryMask) (redelivered : Bool)
  | ackOne (tag : Nat)
  | ackMultiple (tag : Nat)
  | nackOne (tag : Nat) (reason : NackReason)
  | nackMultiple (tag : Nat) (reason : NackReason)
  | drainAll (reason : NackReason)
deriving DecidableEq, Repr

namespace WindowOp

/-- Pushes have contents. -/
def NonEmpty : WindowOp → Prop
  | .pushRange range _ => range.len ≠ 0
  | .pushMask mask _ => mask.mask ≠ 0#64
  | _ => True

/-- The window after a request; a failed one leaves it as it was. -/
def settle {β : Type} (w : SegmentDeliveryWindow) :
    Except ConsumerError (β × SegmentDeliveryWindow) → SegmentDeliveryWindow
  | .error _ => w
  | .ok (_, w') => w'

/-- One call, on the window and the next tag. -/
def apply (acc : SegmentDeliveryWindow × Nat) : WindowOp → SegmentDeliveryWindow × Nat
  | .pushRange range redelivered =>
    (acc.1.pushRange acc.2 range redelivered, acc.2 + range.len)
  | .pushMask mask redelivered =>
    (acc.1.pushMask acc.2 mask (countOnes mask.mask) redelivered,
      acc.2 + countOnes mask.mask)
  | .ackOne tag => (settle acc.1 (acc.1.ackOne tag), acc.2)
  | .ackMultiple tag => (settle acc.1 (acc.1.ackMultiple tag), acc.2)
  | .nackOne tag reason => (settle acc.1 (acc.1.nackOne tag reason), acc.2)
  | .nackMultiple tag reason => (settle acc.1 (acc.1.nackMultiple tag reason), acc.2)
  | .drainAll reason => ((acc.1.drainAll reason).2, acc.2)

end WindowOp

/-- A run from the empty window; the first tag is 1. -/
def runWindow (ops : List WindowOp) : SegmentDeliveryWindow × Nat :=
  ops.foldl WindowOp.apply (.new, 1)

/-- The representation between two calls. -/
structure WindowOk (acc : SegmentDeliveryWindow × Nat) : Prop where
  ordered : ∃ W, Ordered W acc.1.segments acc.2
  next : 1 ≤ acc.2
  unacked : acc.1.unacked = (entriesOf acc.1.segments).length

namespace WindowOk

variable {acc : SegmentDeliveryWindow × Nat}

/-- A request for a tag, known where the tag is outstanding and where not. -/
theorem request (h : WindowOk acc) (hlt : (entriesOf acc.1.segments).length < 2 ^ 32)
    (hok : ∀ W s, Ordered W acc.1.segments acc.2 → (tag, s) ∈ entriesOf acc.1.segments →
      ∃ batch w', res = .ok (batch, w') ∧ Takes W take acc.2 acc.1 batch w')
    (herr : (∀ s, (tag, s) ∉ entriesOf acc.1.segments) → res = .error .invalidDeliveryTag) :
    WindowOk (WindowOp.settle acc.1 res, acc.2) := by
  obtain ⟨W, hw⟩ := h.ordered
  by_cases hx : ∃ s, (tag, s) ∈ entriesOf acc.1.segments
  · obtain ⟨s, hs⟩ := hx
    obtain ⟨batch, w', rfl, htakes⟩ := hok W s hw hs
    exact ⟨⟨W, htakes.ordered⟩, h.next, htakes.unacked h.unacked hlt⟩
  · rw [herr (not_exists.mp hx)]
    exact h

theorem takeOne (h : WindowOk acc) (hlt : (entriesOf acc.1.segments).length < 2 ^ 32)
    (tag : Nat) : WindowOk (WindowOp.settle acc.1 (acc.1.takeOne tag), acc.2) :=
  h.request hlt (fun _ _ hw hs =>
    have ⟨batch, w', hok, htakes, _⟩ := takeOne_ok hw hs
    ⟨batch, w', hok, htakes⟩) takeOne_error

theorem takeMultiple (h : WindowOk acc) (hlt : (entriesOf acc.1.segments).length < 2 ^ 32)
    (tag : Nat) : WindowOk (WindowOp.settle acc.1 (acc.1.takeMultiple tag), acc.2) :=
  h.request hlt (fun _ _ => takeMultiple_ok)
    takeMultiple_error

theorem settle_map {β γ : Type} (w : SegmentDeliveryWindow) (f : β → γ)
    (res : Except ConsumerError (β × SegmentDeliveryWindow)) :
    WindowOp.settle w (res.map fun r => (f r.1, r.2)) = WindowOp.settle w res := by
  cases res <;> rfl

/-- **Every call keeps the representation**, as long as the counter does
not overflow. -/
theorem apply (h : WindowOk acc) {op : WindowOp} (hop : op.NonEmpty)
    (hlt : acc.1.outstanding < 2 ^ 32) (hlt' : (op.apply acc).1.outstanding < 2 ^ 32) :
    WindowOk (op.apply acc) := by
  obtain ⟨W, hw⟩ := h.ordered
  rw [outstanding_eq hw] at hlt
  have hun := h.unacked
  cases op with
  | pushRange range redelivered =>
    have hord := ordered_pushRange hw h.next hop redelivered
    refine ⟨⟨W, hord⟩, Nat.le_add_right_of_le h.next, ?_⟩
    simp only [WindowOp.apply, outstanding_eq hord] at hlt'
    simp only [WindowOp.apply]
    rw [entries_pushRange, length_append, length_tagged,
      DeliveryRange.length_seqs] at hlt' ⊢
    rw [pushRange, hun]
    exact Nat.mod_eq_of_lt hlt'
  | pushMask mask redelivered =>
    -- the word bound grows with the masks pushed
    have hwide := ordered_words hw (Nat.le_max_left W (mask.word + 1))
    have hord := ordered_pushMask hwide h.next hop
      (Nat.le_max_right W (mask.word + 1)) (countOnes mask.mask) redelivered
    refine ⟨⟨_, hord⟩, Nat.le_add_right_of_le h.next, ?_⟩
    simp only [WindowOp.apply, outstanding_eq hord] at hlt'
    simp only [WindowOp.apply]
    rw [entries_pushMask, length_append, length_tagged,
      DeliveryMask.length_seqs] at hlt' ⊢
    rw [pushMask, hun]
    exact Nat.mod_eq_of_lt hlt'
  | ackOne tag => exact h.takeOne hlt tag
  | ackMultiple tag => exact h.takeMultiple hlt tag
  | nackOne tag reason =>
    rw [WindowOp.apply, nackOne, settle_map]
    exact h.takeOne hlt tag
  | nackMultiple tag reason =>
    rw [WindowOp.apply, nackMultiple, settle_map]
    exact h.takeMultiple hlt tag
  | drainAll reason => exact ⟨⟨W, Ordered.nil _⟩, h.next, rfl⟩

end WindowOk

/-- **The window refines a finite map**, in every run of non-empty pushes
and arbitrary requests with fewer than `2^32` outstanding tags. -/
theorem window_refines_map (ops : List WindowOp) (hops : ∀ op ∈ ops, op.NonEmpty)
    (hsmall : ∀ done rest, ops = done ++ rest → (runWindow done).1.outstanding < 2 ^ 32) :
    ∀ done rest, ops = done ++ rest →
      (runWindow done).1.WindowSpec (runWindow done).2 := by
  have key : ∀ done rest, ops = done ++ rest → WindowOk (runWindow done) := by
    intro done
    induction done using reverseRecOn with
    | nil => exact fun _ _ => ⟨⟨0, Ordered.nil _⟩, Nat.le_refl _, rfl⟩
    | append_singleton done op ih =>
      intro rest heq
      have hstep : runWindow (done ++ [op]) = op.apply (runWindow done) := by
        simp [runWindow]
      have hbefore : ops = done ++ (op :: rest) := by simpa using heq
      have hafter := hsmall _ _ heq
      rw [hstep] at hafter ⊢
      exact (ih _ hbefore).apply (hops op (by simp [hbefore])) (hsmall _ _ hbefore) hafter
  intro done rest heq
  obtain ⟨⟨W, hw⟩, -, hun⟩ := key done rest heq
  exact SegmentDeliveryWindow.windowSpec_of hw hun

/-- A range, a mask with two bits in the second word, and a tag settled
in each. -/
def rangeAndMask : List WindowOp :=
  [.pushRange ⟨0, 3⟩ false, .pushMask ⟨0, 1, 5#64⟩ true, .ackOne 2, .nackOne 4 .requeue]

theorem window_refines_map_half_settled : (∀ op ∈ rangeAndMask, op.NonEmpty) ∧
      (∀ done rest, rangeAndMask = done ++ rest → (runWindow done).1.outstanding < 2 ^ 32) ∧
      (runWindow rangeAndMask).1.WindowSpec (runWindow rangeAndMask).2 := by
  have hops : ∀ op ∈ rangeAndMask, op.NonEmpty := by
    simp [rangeAndMask, WindowOp.NonEmpty]
  have hsmall : ∀ done rest, rangeAndMask = done ++ rest →
      (runWindow done).1.outstanding < 2 ^ 32 := by
    intro done rest heq
    have hall : ∀ done ∈ rangeAndMask.inits,
        (entriesOf (runWindow done).1.segments).length < 2 ^ 32 := by decide +kernel
    exact lt_of_le_of_lt (SegmentDeliveryWindow.outstanding_le _)
      (hall done ((mem_inits _ _).mpr ⟨rest, heq.symm⟩))
  exact ⟨hops, hsmall, window_refines_map rangeAndMask hops hsmall rangeAndMask [] (by simp)⟩

end Aurum.Consumer
