import Aurum.Consumer.Segment

/-!
# Consumer — the delivery window

`SegmentDeliveryWindow`: the outstanding deliveries of one session, as
segments in tag order. `ack_*` and `nack_*` of the source run the same
code and differ in the batch type they fill, so each pair is one
definition here (`takeOne`, `takeMultiple`).

What they do is one predicate, `Takes P w batch w'`: the batch denotes
the messages of the entries whose tag satisfies `P`, and exactly those
entries are gone. `ack_one` takes one tag, `ack_multiple` all tags up to
one, `drain_all` everything.

`unacked` and `settled` are `u32`: sums wrap. Offsets and ranks are
below the length of their segment, so the casts to `u32` lose nothing.
-/

namespace Aurum.Consumer

open Aurum.Bits Aurum.Kernels Aurum.Queue List DeliveredSegment Prod

inductive ConsumerError where
  | invalidDeliveryTag
  | deliveryTagAlreadySettled
  | consumerCancelled
  | insufficientCredit
  | emptyDelivery
  | internalInvariantViolation
deriving DecidableEq, Repr

structure SegmentDeliveryWindow where
  segments : List DeliveredSegment
  unacked : Nat
deriving DecidableEq, Repr

inductive SegAction where
  | removeSegment
  | rangeTrimFront
  | rangeTrimBack
  | rangeSplitAt (leftLen : Nat) (right : DeliveredSegment)
  | maskClearRank (rank : Nat)
  | maskRemove
deriving DecidableEq, Repr

inductive OneEntry where
  | range (seq : Nat)
  | mask (block word : Nat) (bit : Word)
deriving DecidableEq, Repr

/-- The batch holding one entry. -/
def OneEntry.batch : OneEntry → AckBatch
  | .range seq => ⟨[⟨seq, 1⟩], []⟩
  | .mask block word bit => ⟨[], [⟨block, word, bit⟩]⟩

def computeOneAction (seg : DeliveredSegment) (tag : Nat) : OneEntry × SegAction :=
  match seg with
  | .range r =>
    let offset := tag - r.firstTag
    let seq := r.seqOf tag
    let action :=
      if r.len = 1 then .removeSegment
      else if offset = 0 then .rangeTrimFront
      else if offset = r.len - 1 then .rangeTrimBack
      else .rangeSplitAt offset
        (.range ⟨tag + 1, seq + 1, r.len - offset - 1, r.redelivered⟩)
    (.range seq, action)
  | .mask m =>
    let rank := tag - m.firstTag
    let bit := bitForRank m.originalMask rank
    let action :=
      if countOnes m.remainingRankMask = 1 then .maskRemove else .maskClearRank rank
    (.mask m.block m.word bit, action)

/-- `apply_seg_action`, on the segments. -/
def applySegAction (segments : List DeliveredSegment) (idx : Nat) :
    SegAction → List DeliveredSegment
  | .removeSegment | .maskRemove => segments.eraseIdx idx
  | .rangeTrimFront => segments.modify idx fun
      | .range r => .range { r with
          firstTag := r.firstTag + 1, startSeq := r.startSeq + 1, len := r.len - 1 }
      | seg => seg
  | .rangeTrimBack => segments.modify idx fun
      | .range r => .range { r with len := r.len - 1 }
      | seg => seg
  | .rangeSplitAt leftLen right =>
    (segments.modify idx fun
      | .range r => .range { r with len := leftLen }
      | seg => seg).insertIdx (idx + 1) right
  | .maskClearRank rank => segments.modify idx fun
      | .mask m => .mask { m with
          remainingRankMask := m.remainingRankMask &&& ~~~(1#64 <<< rank) }
      | seg => seg

/-- `full_segment_to_ack` and `full_segment_to_nack`. -/
def fullSegment (seg : DeliveredSegment) (batch : AckBatch) : AckBatch × Nat :=
  match seg with
  | .range r => ({ batch with ranges := batch.ranges ++ [⟨r.startSeq, r.len⟩] }, r.len)
  | .mask m =>
    let bits := extractAllRemainingBits m.originalMask m.remainingRankMask
    (if bits ≠ 0#64 then
        { batch with masks := batch.masks ++ [⟨m.block, m.word, bits⟩] } else batch,
      countOnes bits)

/-- `partial_segment_to_ack` and `partial_segment_to_nack`. -/
def partialSegment (seg : DeliveredSegment) (tag : Nat) (batch : AckBatch) :
    DeliveredSegment × AckBatch × Nat :=
  match seg with
  | .range r =>
    let consumed := tag - r.firstTag + 1
    (.range { r with
        firstTag := r.firstTag + consumed
        startSeq := r.startSeq + consumed
        len := r.len - consumed },
      { batch with ranges := batch.ranges ++ [⟨r.startSeq, consumed⟩] }, consumed)
  | .mask m =>
    let upToRank := tag - m.firstTag
    let res := extractBitsUpToRank m.originalMask m.remainingRankMask upToRank
    (.mask { m with remainingRankMask := res.2 },
      if res.1 ≠ 0#64 then
        { batch with masks := batch.masks ++ [⟨m.block, m.word, res.1⟩] } else batch,
      countOnes res.1)

/-- The loop of `ack_multiple` and `nack_multiple`: whole segments from
the front, then a part of the one `tag` lies in. -/
def takeFront (tag : Nat) : List DeliveredSegment → AckBatch → Nat →
    List DeliveredSegment × AckBatch × Nat
  | [], batch, settled => ([], batch, settled)
  | seg :: segments, batch, settled =>
    let last := seg.lastTag
    if last ≤ tag then
      let res := fullSegment seg batch
      let settled := (settled + res.2) % 2 ^ 32
      if last = tag then (segments, res.1, settled)
      else takeFront tag segments res.1 settled
    else
      let res := partialSegment seg tag batch
      (res.1 :: segments, res.2.1, (settled + res.2.2) % 2 ^ 32)

namespace SegmentDeliveryWindow

def new : SegmentDeliveryWindow := ⟨[], 0⟩

def findSegmentIdx (w : SegmentDeliveryWindow) (tag : Nat) : Option Nat :=
  w.segments.findIdx? fun seg => seg.containsTag tag

def containsTag (w : SegmentDeliveryWindow) (tag : Nat) : Bool :=
  w.segments.any fun seg => seg.containsTag tag

def pushRange (w : SegmentDeliveryWindow) (firstTag : Nat) (range : DeliveryRange)
    (redelivered : Bool) : SegmentDeliveryWindow where
  segments := w.segments ++ [.range ⟨firstTag, range.startSeq, range.len, redelivered⟩]
  unacked := (w.unacked + range.len) % 2 ^ 32

def pushMask (w : SegmentDeliveryWindow) (firstTag : Nat) (mask : DeliveryMask) (count : Nat)
    (redelivered : Bool) : SegmentDeliveryWindow where
  segments := w.segments ++
    [.mask (MaskSegment.new firstTag mask.block mask.word mask.mask redelivered)]
  unacked := (w.unacked + count) % 2 ^ 32

/-- `ack_one` and `nack_one`. -/
def takeOne (w : SegmentDeliveryWindow) (tag : Nat) :
    Except ConsumerError (AckBatch × SegmentDeliveryWindow) :=
  match w.findSegmentIdx tag with
  | none => .error .invalidDeliveryTag
  | some idx =>
    match w.segments[idx]? with
    | none => .error .invalidDeliveryTag
    | some seg =>
      let (entry, action) := computeOneAction seg tag
      .ok (entry.batch, ⟨applySegAction w.segments idx action, w.unacked - 1⟩)

/-- `ack_multiple` and `nack_multiple`. -/
def takeMultiple (w : SegmentDeliveryWindow) (tag : Nat) :
    Except ConsumerError (AckBatch × SegmentDeliveryWindow) :=
  if !w.containsTag tag then .error .invalidDeliveryTag
  else
    let (segments, batch, settled) := takeFront tag w.segments ⟨[], []⟩ 0
    .ok (batch, ⟨segments, w.unacked - settled⟩)

def ackOne (w : SegmentDeliveryWindow) (tag : Nat) := w.takeOne tag

def ackMultiple (w : SegmentDeliveryWindow) (tag : Nat) := w.takeMultiple tag

/-- A batch under a nack reason. -/
def nackBatch (reason : NackReason) (batch : AckBatch) : NackBatch :=
  ⟨batch.ranges, batch.masks, reason⟩

def nackOne (w : SegmentDeliveryWindow) (tag : Nat) (reason : NackReason) :
    Except ConsumerError (NackBatch × SegmentDeliveryWindow) :=
  (w.takeOne tag).map fun res => (nackBatch reason res.1, res.2)

def nackMultiple (w : SegmentDeliveryWindow) (tag : Nat) (reason : NackReason) :
    Except ConsumerError (NackBatch × SegmentDeliveryWindow) :=
  (w.takeMultiple tag).map fun res => (nackBatch reason res.1, res.2)

def drainAll (w : SegmentDeliveryWindow) (reason : NackReason) :
    NackBatch × SegmentDeliveryWindow :=
  (nackBatch reason (w.segments.foldl (fun batch seg => (fullSegment seg batch).1) ⟨[], []⟩),
    ⟨[], 0⟩)

end SegmentDeliveryWindow

/-! ## Windows as entry lists -/

variable {W : Nat}

/-- The outstanding `(tag, seq)` pairs of a list of segments. -/
def entriesOf (segments : List DeliveredSegment) : List (Nat × Nat) :=
  segments.flatMap entries

@[simp] theorem entriesOf_nil : entriesOf [] = [] := rfl

@[simp] theorem entriesOf_cons (seg : DeliveredSegment) (segments : List DeliveredSegment) :
    entriesOf (seg :: segments) = seg.entries ++ entriesOf segments := rfl

@[simp] theorem entriesOf_append (a b : List DeliveredSegment) :
    entriesOf (a ++ b) = entriesOf a ++ entriesOf b := by
  simp [entriesOf]

/-- Segments in tag order, each well formed, with tags in `[1, next)`. -/
structure Ordered (W : Nat) (segments : List DeliveredSegment) (next : Nat) : Prop where
  wellFormed : ∀ seg ∈ segments, seg.WellFormed W
  order : segments.Pairwise fun a b => a.lastTag < b.firstTag
  bounds : ∀ seg ∈ segments, 1 ≤ seg.firstTag ∧ seg.lastTag < next

section

variable {segments : List DeliveredSegment} {seg : DeliveredSegment} {next : Nat}

theorem Ordered.nil (next : Nat) : Ordered W [] next := ⟨by simp, by simp, by simp⟩

theorem Ordered.tail (h : Ordered W (seg :: segments) next) : Ordered W segments next where
  wellFormed := fun s hs => h.wellFormed s (by simp [hs])
  order := (pairwise_cons.mp h.order).2
  bounds := fun s hs => h.bounds s (by simp [hs])

/-- Tags behind the first segment are beyond its last tag. -/
theorem Ordered.lt_of_tail (h : Ordered W (seg :: segments) next) {e : Nat × Nat}
    (he : e ∈ entriesOf segments) : seg.lastTag < e.1 := by
  obtain ⟨s, hs, hes⟩ := mem_flatMap.mp he
  have h1 := (pairwise_cons.mp h.order).1 s hs
  have h2 := entries_bounds hes
  omega

theorem Ordered.entries_sorted (h : Ordered W segments next) :
    (entriesOf segments).Pairwise (·.1 < ·.1) := by
  induction segments with
  | nil => simp
  | cons seg segments ih =>
    rw [entriesOf_cons, pairwise_append]
    refine ⟨seg.entries_sorted, ih h.tail, fun a ha b hb => ?_⟩
    have h1 := entries_bounds ha
    have h2 := h.lt_of_tail hb
    omega

theorem Ordered.entries_bounds (h : Ordered W segments next) {e : Nat × Nat}
    (he : e ∈ entriesOf segments) : 1 ≤ e.1 ∧ e.1 < next := by
  obtain ⟨s, hs, hes⟩ := mem_flatMap.mp he
  have h1 := h.bounds s hs
  have h2 := DeliveredSegment.entries_bounds hes
  omega

/-- Replacing a segment by ordered parts of it. -/
theorem Ordered.replace {pre post new : List DeliveredSegment}
    (h : Ordered W (pre ++ seg :: post) next)
    (hwf : ∀ s ∈ new, s.WellFormed W) (hord : new.Pairwise fun a b => a.lastTag < b.firstTag)
    (hin : ∀ s ∈ new, seg.firstTag ≤ s.firstTag ∧ s.lastTag ≤ seg.lastTag) :
    Ordered W (pre ++ (new ++ post)) next := by
  obtain ⟨h1, h2, h3⟩ := pairwise_append.mp h.order
  obtain ⟨h4, h5⟩ := pairwise_cons.mp h2
  have hb := h.bounds seg (by simp)
  refine ⟨fun s hs => ?_, ?_, fun s hs => ?_⟩
  · simp only [mem_append] at hs
    rcases hs with hs | hs | hs
    · exact h.wellFormed s (by simp [hs])
    · exact hwf s hs
    · exact h.wellFormed s (by simp [hs])
  · refine pairwise_append.mpr ⟨h1, pairwise_append.mpr ⟨hord, h5, ?_⟩, ?_⟩
    · intro a ha b hb'
      have := hin a ha
      have := h4 b hb'
      omega
    · intro a ha b hb'
      rcases mem_append.mp hb' with hb' | hb'
      · have := hin b hb'
        have := h3 a ha seg (by simp)
        omega
      · exact h3 a ha b (by simp [hb'])
  · simp only [mem_append] at hs
    rcases hs with hs | hs | hs
    · exact h.bounds s (by simp [hs])
    · have := hin s hs
      omega
    · exact h.bounds s (by simp [hs])

end

/-! ## Taking entries -/

/-- No empty range and no empty or misplaced mask in a batch. -/
structure BatchOk (W : Nat) (batch : AckBatch) : Prop where
  ranges : ∀ r ∈ batch.ranges, r.len ≠ 0
  masks : ∀ m ∈ batch.masks, m.word < W ∧ m.mask ≠ 0#64

/-- The entries whose tag satisfies `take`. -/
def taken (take : Nat → Bool) (es : List (Nat × Nat)) : List (Nat × Nat) :=
  es.filter fun e => take e.1

/-- `batch` holds the messages of the entries of `w` whose tag satisfies
`take`, and `w'` keeps the others. -/
structure Takes (W : Nat) (take : Nat → Bool) (next : Nat) (w : SegmentDeliveryWindow)
    (batch : AckBatch)
    (w' : SegmentDeliveryWindow) : Prop where
  seqs : (workSeqs batch.ranges batch.masks).Perm
    ((taken take (entriesOf w.segments)).map snd)
  rest : entriesOf w'.segments = taken (fun t => !take t) (entriesOf w.segments)
  ordered : Ordered W w'.segments next
  ok : BatchOk W batch
  unacked : w.unacked = (entriesOf w.segments).length → (entriesOf w.segments).length < 2 ^ 32 →
    w'.unacked = (entriesOf w'.segments).length

@[simp] theorem taken_nil (take : Nat → Bool) : taken take [] = [] := rfl

theorem taken_append (take : Nat → Bool) (a b : List (Nat × Nat)) :
    taken take (a ++ b) = taken take a ++ taken take b := filter_append ..

variable {p : Nat → Bool} {l es : List (Nat × Nat)} {s tag : Nat} {r : RangeSegment}
  {seg : DeliveredSegment} {batch : AckBatch}

theorem taken_all (h : ∀ e ∈ l, p e.1 = true) : taken p l = l := filter_eq_self.mpr h

theorem taken_none (h : ∀ e ∈ l, p e.1 = false) :
    taken p l = [] := filter_eq_nil_iff.mpr fun e he => by simp [h e he]

theorem taken_split {a b : List (Nat × Nat)} (ha : ∀ e ∈ a, p e.1 = true)
    (hb : ∀ e ∈ b, p e.1 = false) :
    taken p (a ++ b) = a ∧ taken (fun t => !p t) (a ++ b) = b := by
  rw [taken_append, taken_append, taken_all ha, taken_none hb,
    taken_none fun e he => by simp [ha e he], taken_all fun e he => by simp [hb e he],
    List.append_nil]
  exact ⟨rfl, rfl⟩

theorem taken_length_add (take : Nat → Bool) (es : List (Nat × Nat)) :
    (taken take es).length + (taken (fun t => !take t) es).length = es.length :=
  (length_eq_length_filter_add _).symm

/-- The messages of the entries taken and of the others. -/
theorem map_taken_perm (take : Nat → Bool) (es : List (Nat × Nat)) : (es.map snd).Perm
    ((taken take es).map snd ++ (taken (fun t => !take t) es).map snd) := by
  rw [← map_append]
  exact (filter_append_perm _ _).symm.map _

/-- In tag order a tag names one message. -/
theorem seq_unique (hp : es.Pairwise (·.1 < ·.1)) {t s' : Nat} (h : (t, s) ∈ es)
    (h' : (t, s') ∈ es) : s = s' := by
  have hnd : (es.map fst).Nodup := pairwise_map.mpr (hp.imp Nat.ne_of_lt)
  exact (mk.inj (inj_on_of_nodup_map hnd h h' rfl)).2

theorem taken_single (hp : es.Pairwise (·.1 < ·.1)) {t : Nat} (h : (t, s) ∈ es) :
    taken (fun u => u == t) es = [(t, s)] := by
  induction es with
  | nil => simp at h
  | cons e es ih =>
    obtain ⟨h1, h2⟩ := pairwise_cons.mp hp
    rcases mem_cons.mp h with rfl | h
    · have hrest : taken (fun u => u == t) es = [] := taken_none fun e he => by
        have := h1 e he
        simp only [beq_eq_false_iff_ne]
        dsimp only at this
        omega
      simp only [taken, filter_cons, beq_self_eq_true, if_true]
      exact congrArg _ hrest
    · have hne : (e.1 == t) = false := by
        have := h1 _ h
        simp only [beq_eq_false_iff_ne]
        dsimp only at this
        omega
      simp only [taken, filter_cons, hne]
      exact ih h2 h

/-! ### One tag -/

theorem findIdx?_split {α : Type} {p : α → Bool} : ∀ {l : List α} {i : Nat},
    l.findIdx? p = some i → ∃ pre a post, l = pre ++ a :: post ∧ pre.length = i ∧ p a = true := by
  intro l
  induction l with
  | nil =>
    intro i h
    simp at h
  | cons a l ih =>
    intro i h
    rw [findIdx?_cons] at h
    by_cases ha : p a = true
    · rw [if_pos ha] at h
      cases h
      exact ⟨[], a, l, rfl, rfl, ha⟩
    · rw [if_neg ha] at h
      obtain ⟨j, hj, rfl⟩ := Option.map_eq_some_iff.mp h
      obtain ⟨pre, b, post, rfl, rfl, hb⟩ := ih hj
      exact ⟨a :: pre, b, post, rfl, rfl, hb⟩

section

variable {α : Type} (pre post : List α) (a b : α)

theorem eraseIdx_split : (pre ++ a :: post).eraseIdx pre.length = pre ++ post := by
  rw [eraseIdx_append_of_length_le (Nat.le_refl _)]
  simp

theorem modify_split (f : α → α) : (pre ++ a :: post).modify pre.length f = pre ++ f a :: post := by
  rw [modify_eq_take_cons_drop (by simp)]
  simp

theorem insertIdx_split :
    (pre ++ a :: post).insertIdx (pre.length + 1) b = pre ++ a :: b :: post := by
  induction pre with
  | nil => rfl
  | cons x pre ih => simpa using ih

end

/-- What acting on one tag of `seg` puts in its place. -/
structure OneSpec (W : Nat) (seg : DeliveredSegment) (tag s : Nat) (entry : OneEntry)
    (action : SegAction)
    (new : List DeliveredSegment) : Prop where
  apply : ∀ pre post, applySegAction (pre ++ seg :: post) pre.length action =
    pre ++ (new ++ post)
  wellFormed : ∀ x ∈ new, x.WellFormed W
  order : new.Pairwise fun a b => a.lastTag < b.firstTag
  inside : ∀ x ∈ new, seg.firstTag ≤ x.firstTag ∧ x.lastTag ≤ seg.lastTag
  entries : entriesOf new = taken (fun t => !(t == tag)) seg.entries
  seqs : workSeqs entry.batch.ranges entry.batch.masks = [s]
  ok : BatchOk W entry.batch

/-- Cutting one tag out of a range leaves the part before and the part
behind it. -/
theorem RangeSegment.entries_cut (h1 : r.firstTag ≤ tag) (h2 : tag < r.firstTag + r.len) :
    taken (fun t => !(t == tag)) r.entries =
      (RangeSegment.mk r.firstTag r.startSeq (tag - r.firstTag) r.redelivered).entries ++
      (RangeSegment.mk (tag + 1) (r.seqOf tag + 1) (r.len - (tag - r.firstTag) - 1)
        r.redelivered).entries := by
  obtain ⟨t0, s0, len, fl⟩ := r
  dsimp only [seqOf] at h1 h2 ⊢
  obtain ⟨o, rfl⟩ := Nat.exists_eq_add_of_le h1
  obtain ⟨k, rfl⟩ : ∃ k, len = o + (1 + k) := ⟨len - o - 1, by omega⟩
  rw [entries_append t0 s0 o (1 + k), entries_append (t0 + o) (s0 + o) 1 k, entries_one,
    Nat.add_sub_cancel_left, show o + (1 + k) - o - 1 = k by omega, taken_append, taken_append]
  congr 1
  · refine taken_all fun e he => ?_
    have := mem_entries.mp (show (e.1, e.2) ∈ _ from he)
    dsimp only at this
    simp only [Bool.not_eq_true', beq_eq_false_iff_ne]
    omega
  · rw [show taken (fun t => !(t == t0 + o)) [(t0 + o, s0 + o)] = [] by simp [taken],
      nil_append]
    refine taken_all fun e he => ?_
    have := mem_entries.mp (show (e.1, e.2) ∈ _ from he)
    dsimp only at this
    simp only [Bool.not_eq_true', beq_eq_false_iff_ne]
    omega

/-- What is left of a range, without empty parts. -/
def rangeParts (r : RangeSegment) (tag : Nat) : List DeliveredSegment :=
  (if tag - r.firstTag = 0 then []
    else [.range ⟨r.firstTag, r.startSeq, tag - r.firstTag, r.redelivered⟩]) ++
  if r.len - (tag - r.firstTag) - 1 = 0 then []
    else [.range ⟨tag + 1, r.seqOf tag + 1, r.len - (tag - r.firstTag) - 1, r.redelivered⟩]

theorem oneSpec_range (hs : (tag, s) ∈ r.entries) :
    ∃ new, OneSpec W (.range r) tag s (computeOneAction (.range r) tag).1
      (computeOneAction (.range r) tag).2 new := by
  obtain ⟨h1, h2, rfl⟩ := RangeSegment.mem_entries.mp hs
  refine ⟨rangeParts r tag, fun pre post => ?_, ?_, ?_, ?_, ?_, ?_, ?_⟩
  · -- the four shapes: alone, front, back, middle
    unfold computeOneAction rangeParts
    dsimp only
    by_cases hone : r.len = 1
    · rw [if_pos hone, if_pos (by omega), if_pos (by omega)]
      exact eraseIdx_split pre post _
    by_cases hfront : tag - r.firstTag = 0
    · rw [if_neg hone, if_pos hfront, if_pos hfront, if_neg (by omega)]
      obtain rfl : tag = r.firstTag := by omega
      rw [RangeSegment.seqOf, Nat.sub_self]
      exact modify_split pre post _ _
    by_cases hback : tag - r.firstTag = r.len - 1
    · rw [if_neg hone, if_neg hfront, if_pos hback, if_neg hfront, if_pos (by omega), hback]
      exact modify_split pre post _ _
    · rw [if_neg hone, if_neg hfront, if_neg hback, if_neg hfront, if_neg (by omega)]
      rw [applySegAction, modify_split, insertIdx_split]
      rfl
  · unfold rangeParts
    split <;> split <;> simp [WellFormed] <;> omega
  · unfold rangeParts
    split <;> split <;>
      simp [firstTag, lastTag, RangeSegment.lastTag]
    omega
  · unfold rangeParts
    split <;> split <;>
      simp [firstTag, lastTag, RangeSegment.lastTag] <;> omega
  · rw [entries, RangeSegment.entries_cut h1 h2]
    unfold rangeParts
    split <;> split <;> simp_all [entriesOf, entries, RangeSegment.entries]
  · simp [computeOneAction, OneEntry.batch, workSeqs, DeliveryRange.seqs, RangeSegment.seqOf]
  · exact ⟨by simp [computeOneAction, OneEntry.batch], by simp [computeOneAction, OneEntry.batch]⟩

theorem oneSpec_mask {m : MaskSegment} (hwf : (mask m).WellFormed W) (hs : (tag, s) ∈ m.entries) :
    ∃ new, OneSpec W (.mask m) tag s (computeOneAction (.mask m) tag).1
      (computeOneAction (.mask m) tag).2 new := by
  obtain ⟨k, p, hk, hr, rfl, rfl⟩ := MaskSegment.mem_entries.mp hs
  have hp : p < 64 := positions_lt (mem_of_getElem? hk)
  have hbit : bitForRank m.originalMask k = 1#64 <<< p := bitForRank_eq k _ hk
  have hseqs : workSeqs (computeOneAction (.mask m) (m.firstTag + k)).1.batch.ranges
      (computeOneAction (.mask m) (m.firstTag + k)).1.batch.masks =
        [seqOfBit m.block m.word p] := by
    simp only [computeOneAction, OneEntry.batch, workSeqs, DeliveryMask.seqs,
      Nat.add_sub_cancel_left, hbit, flatMap_nil, nil_append, flatMap_singleton,
      positions_one_shiftLeft hp, map_cons, map_nil]
  have hok : BatchOk W (computeOneAction (.mask m) (m.firstTag + k)).1.batch := by
    refine ⟨by simp [computeOneAction, OneEntry.batch], fun x hx => ?_⟩
    simp only [computeOneAction, OneEntry.batch, Nat.add_sub_cancel_left, hbit,
      mem_singleton] at hx
    subst hx
    refine ⟨hwf.2, fun hz => ?_⟩
    have := positions_one_shiftLeft (w := 64) hp
    dsimp only at hz
    rw [hz] at this
    simp at this
  by_cases hone : countOnes m.remainingRankMask = 1
  · -- the last outstanding rank: the segment goes
    refine ⟨[], fun pre post => ?_, by simp, by simp, by simp, ?_, hseqs, hok⟩
    · simp only [computeOneAction, hone, if_true, applySegAction, nil_append]
      exact eraseIdx_split pre post _
    · refine (taken_none fun e he => ?_).symm
      obtain ⟨k', p', _, hr', he', _⟩ := MaskSegment.mem_entries.mp
        (show (e.1, e.2) ∈ m.entries from he)
      obtain ⟨r0, hr0⟩ := length_eq_one_iff.mp
        (show (positions m.remainingRankMask).length = 1 from hone)
      have h1 : k ∈ positions m.remainingRankMask := mem_positions.mpr hr
      have h2 : k' ∈ positions m.remainingRankMask := mem_positions.mpr hr'
      rw [hr0, mem_singleton] at h1 h2
      simp [he', h1, h2]
  · refine ⟨[.mask { m with
        remainingRankMask := m.remainingRankMask &&& ~~~(1#64 <<< k) }],
      fun pre post => ?_, fun x hx => by rw [mem_singleton.mp hx]; exact hwf, by simp,
      by simp [firstTag, lastTag, MaskSegment.lastTag,
        MaskSegment.originalCount], ?_, hseqs, hok⟩
    · simp only [computeOneAction, hone, if_false, applySegAction, Nat.add_sub_cancel_left]
      exact modify_split pre post _ _
    · have hfilter := MaskSegment.entries_filter (m := m)
        (m.remainingRankMask &&& ~~~(1#64 <<< k)) (fun t => !(t == m.firstTag + k)) (fun j _ => by
          rw [getLsbD_clearBit]
          by_cases hjk : j = k <;> simp [hjk])
      simp only [entriesOf, flatMap_cons, flatMap_nil, List.append_nil,
        entries, taken]
      exact hfilter

theorem oneSpec (hwf : seg.WellFormed W) (hs : (tag, s) ∈ seg.entries) :
    ∃ new, OneSpec W seg tag s (computeOneAction seg tag).1 (computeOneAction seg tag).2 new := by
  cases seg with
  | range r => exact oneSpec_range hs
  | mask m => exact oneSpec_mask hwf hs

/-! ### Whole and partial segments -/

/-- `batch'` is `batch` with the messages `seqs`. -/
structure Adds (W : Nat) (batch : AckBatch) (seqs : List Nat) (batch' : AckBatch) : Prop where
  ok : BatchOk W batch'
  perm : (workSeqs batch'.ranges batch'.masks).Perm (workSeqs batch.ranges batch.masks ++ seqs)

theorem Adds.trans {b₁ b₂ : AckBatch} {xs ys : List Nat} (h : Adds W batch xs b₁)
    (h' : Adds W b₁ ys b₂) : Adds W batch (xs ++ ys) b₂ := by
  refine ⟨h'.ok, ?_⟩
  rw [← List.append_assoc]
  exact h'.perm.trans (h.perm.append_right _)

/-- A mask goes into the batch unless it is empty. -/
theorem adds_mask (hok : BatchOk W batch) (block : Nat) {word : Nat} (hw : word < W)
    (bits : Word) : Adds W batch (DeliveryMask.mk block word bits).seqs (if bits ≠ 0#64 then
      { batch with masks := batch.masks ++ [⟨block, word, bits⟩] } else batch) := by
  by_cases hz : bits = 0#64
  · simp only [hz, ne_eq, not_true, if_false]
    exact ⟨hok, by simp [DeliveryMask.seqs]⟩
  · rw [if_pos hz]
    refine ⟨⟨hok.ranges, fun m hm => ?_⟩, by rw [workSeqs_snoc_mask]⟩
    rcases mem_append.mp hm with hm | hm
    · exact hok.masks m hm
    · rw [mem_singleton.mp hm]
      exact ⟨hw, hz⟩

/-- A nonempty range goes into the batch. -/
theorem adds_range (hok : BatchOk W batch) (start : Nat) {len : Nat} (hlen : len ≠ 0) :
    Adds W batch (DeliveryRange.mk start len).seqs
      { batch with ranges := batch.ranges ++ [⟨start, len⟩] } := by
  refine ⟨⟨fun r hr => ?_, hok.masks⟩, workSeqs_snoc_range _ _ _⟩
  rcases mem_append.mp hr with hr | hr
  · exact hok.ranges r hr
  · rw [mem_singleton.mp hr]
    exact hlen

theorem fullSegment_spec (hwf : seg.WellFormed W) (hok : BatchOk W batch) :
    Adds W batch (seg.entries.map snd) (fullSegment seg batch).1 ∧
    (fullSegment seg batch).2 = seg.entries.length := by
  cases seg with
  | range r =>
    rw [entries, RangeSegment.map_snd_entries, RangeSegment.length_entries]
    exact ⟨adds_range hok r.startSeq (Nat.pos_iff_ne_zero.mp hwf), rfl⟩
  | mask m =>
    have hadds := adds_mask hok m.block hwf.2
      (extractAllRemainingBits m.originalMask m.remainingRankMask)
    rw [MaskSegment.seqs_all] at hadds
    refine ⟨hadds, ?_⟩
    have hlen := congrArg List.length (MaskSegment.seqs_all (m := m))
    rw [DeliveryMask.length_seqs, length_map] at hlen
    exact hlen

/-- Taking the tags up to `tag`, which lies inside the segment but is not
its last. -/
theorem partialSegment_spec (hwf : seg.WellFormed W) (hok : BatchOk W batch)
    (h1 : seg.firstTag ≤ tag) (h2 : tag < seg.lastTag) :
    (partialSegment seg tag batch).1.WellFormed W ∧
    seg.firstTag ≤ (partialSegment seg tag batch).1.firstTag ∧
    (partialSegment seg tag batch).1.lastTag ≤ seg.lastTag ∧
    (partialSegment seg tag batch).1.entries =
      taken (fun t => !decide (t ≤ tag)) seg.entries ∧
    Adds W batch ((taken (fun t => decide (t ≤ tag)) seg.entries).map snd)
      (partialSegment seg tag batch).2.1 ∧
    (partialSegment seg tag batch).2.2 =
      (taken (fun t => decide (t ≤ tag)) seg.entries).length := by
  cases seg with
  | range r =>
    obtain ⟨t0, s0, len, fl⟩ := r
    simp only [firstTag, lastTag, RangeSegment.lastTag]
      at h1 h2
    obtain ⟨o, rfl⟩ := Nat.exists_eq_add_of_le h1
    obtain ⟨k, rfl⟩ : ∃ k, len = (o + 1) + (k + 1) := ⟨len - o - 2, by omega⟩
    obtain ⟨htake, hkeep⟩ := taken_split (p := fun t => decide (t ≤ t0 + o))
      (a := (RangeSegment.mk t0 s0 (o + 1) fl).entries)
      (b := (RangeSegment.mk (t0 + (o + 1)) (s0 + (o + 1)) (k + 1) fl).entries)
      (fun e he => by
        have := RangeSegment.mem_entries.mp (show (e.1, e.2) ∈ _ from he)
        dsimp only at this
        simp only [decide_eq_true_eq]
        omega)
      (fun e he => by
        have := RangeSegment.mem_entries.mp (show (e.1, e.2) ∈ _ from he)
        dsimp only at this
        simp only [decide_eq_false_iff_not]
        omega)
    rw [← RangeSegment.entries_append] at htake hkeep
    simp only [partialSegment, entries, htake, hkeep, Nat.add_sub_cancel_left,
      show o + 1 + (k + 1) - (o + 1) = k + 1 by omega, WellFormed,
      firstTag, lastTag, RangeSegment.lastTag,
      RangeSegment.length_entries, RangeSegment.map_snd_entries]
    exact ⟨by omega, by omega, by omega, by trivial, adds_range hok s0 (by omega), by trivial⟩
  | mask m =>
    simp only [firstTag, lastTag, MaskSegment.lastTag]
      at h1 h2
    obtain ⟨hbits, hrem⟩ := extractBitsUpToRank_spec m.originalMask m.remainingRankMask
      (tag - m.firstTag)
    have hseqs := MaskSegment.seqs_eq_entries (m := m)
      (extractBitsUpToRank m.originalMask m.remainingRankMask (tag - m.firstTag)).1
      (fun t => decide (t ≤ tag)) (fun i => by
      rw [hbits]
      constructor
      · rintro ⟨k, hk, hle, hr⟩
        exact ⟨k, hk, hr, by simp; omega⟩
      · rintro ⟨k, hk, hr, hle⟩
        simp only [decide_eq_true_eq] at hle
        exact ⟨k, hk, by omega, hr⟩)
    have hkeep := MaskSegment.entries_filter (m := m)
      (extractBitsUpToRank m.originalMask m.remainingRankMask (tag - m.firstTag)).2
      (fun t => !decide (t ≤ tag)) (fun k hk => by
      rw [Bool.eq_iff_iff, hrem, Bool.and_eq_true, Bool.not_eq_true', decide_eq_false_iff_not]
      have hk' : k < countOnes m.originalMask := hk
      exact and_congr_right fun _ => by omega)
    have hadds := adds_mask hok m.block hwf.2
      (extractBitsUpToRank m.originalMask m.remainingRankMask (tag - m.firstTag)).1
    rw [hseqs] at hadds
    refine ⟨hwf, Nat.le_refl _, Nat.le_refl _, hkeep, hadds, ?_⟩
    have hlen := congrArg List.length hseqs
    rw [DeliveryMask.length_seqs, length_map] at hlen
    exact hlen

/-- **The front loop** takes the entries with a tag up to `tag`. -/
theorem takeFront_spec {next : Nat} : ∀ (segments : List DeliveredSegment) (batch : AckBatch)
    (settled : Nat), Ordered W segments next → BatchOk W batch →
    (∃ s, (tag, s) ∈ entriesOf segments) →
    Ordered W (takeFront tag segments batch settled).1 next ∧
    entriesOf (takeFront tag segments batch settled).1 =
      taken (fun t => !decide (t ≤ tag)) (entriesOf segments) ∧
    Adds W batch ((taken (fun t => decide (t ≤ tag)) (entriesOf segments)).map snd)
      (takeFront tag segments batch settled).2.1 ∧
    (settled + (taken (fun t => decide (t ≤ tag)) (entriesOf segments)).length < 2 ^ 32 →
      (takeFront tag segments batch settled).2.2 =
        settled + (taken (fun t => decide (t ≤ tag)) (entriesOf segments)).length) := by
  intro segments
  induction segments with
  | nil =>
    rintro batch settled _ _ ⟨s, hs⟩
    simp at hs
  | cons seg segments ih =>
    intro batch settled hord hok htag
    have hwf := hord.wellFormed seg (by simp)
    rw [takeFront]
    dsimp only
    -- the tags behind are all larger
    have hlater : tag ≤ seg.lastTag → ∀ e ∈ entriesOf segments, decide (e.1 ≤ tag) = false := by
      intro hle e he
      have := hord.lt_of_tail he
      simp only [decide_eq_false_iff_not]
      omega
    by_cases hlast : seg.lastTag ≤ tag
    · -- the whole segment goes
      have hall : ∀ e ∈ seg.entries, decide (e.1 ≤ tag) = true := by
        intro e he
        have := entries_bounds he
        simp only [decide_eq_true_eq]
        omega
      obtain ⟨hadds, hcount⟩ := fullSegment_spec hwf hok
      rw [if_pos hlast, entriesOf_cons, hcount]
      by_cases heq : seg.lastTag = tag
      · obtain ⟨htake, hkeep⟩ := taken_split (p := fun t => decide (t ≤ tag)) hall
          (hlater (Nat.le_of_eq heq.symm))
        rw [if_pos heq, htake, hkeep]
        exact ⟨hord.tail, rfl, hadds, Nat.mod_eq_of_lt⟩
      · have htag' : ∃ s, (tag, s) ∈ entriesOf segments := by
          obtain ⟨s, hs⟩ := htag
          rw [entriesOf_cons, mem_append] at hs
          rcases hs with hs | hs
          · have := entries_bounds hs
            dsimp only at this
            omega
          · exact ⟨s, hs⟩
        obtain ⟨k1, k2, k3, k4⟩ := ih (fullSegment seg batch).1
          ((settled + seg.entries.length) % 2 ^ 32) hord.tail hadds.ok htag'
        rw [if_neg heq, taken_append, taken_append, taken_all (p := fun t => decide (t ≤ tag)) hall,
          taken_none (l := seg.entries) fun e he => by simpa using hall e he, map_append,
          length_append]
        refine ⟨k1, k2, hadds.trans k3, fun hlt => ?_⟩
        rw [Nat.mod_eq_of_lt (a := settled + seg.entries.length) (by omega)] at k4 ⊢
        rw [k4 (by omega), Nat.add_assoc]
    · -- `tag` lies in this segment
      have hfirst : seg.firstTag ≤ tag := by
        obtain ⟨s, hs⟩ := htag
        rw [entriesOf_cons, mem_append] at hs
        rcases hs with hs | hs
        · exact (entries_bounds hs).1
        · have := hord.lt_of_tail hs
          dsimp only at this
          omega
      have hrest := hlater (by omega)
      obtain ⟨g1, g2, g3, g4, g5, g6⟩ := partialSegment_spec hwf hok hfirst
        (show tag < seg.lastTag by omega)
      rw [if_neg hlast, entriesOf_cons, entriesOf_cons, taken_append, taken_append, g4,
        taken_none (p := fun t => decide (t ≤ tag)) hrest,
        taken_all (l := entriesOf segments) (fun e he => by simp [hrest e he]), List.append_nil, g6]
      refine ⟨?_, rfl, g5, Nat.mod_eq_of_lt⟩
      exact @Ordered.replace W _ _ [] _ [_] hord (by simpa using g1) (by simp)
        (by simpa using ⟨g2, g3⟩)

namespace SegmentDeliveryWindow

variable {w : SegmentDeliveryWindow} {next : Nat}

theorem containsTag_iff : w.containsTag tag = true ↔ ∃ s, (tag, s) ∈ entriesOf w.segments := by
  simp only [containsTag, any_eq_true, DeliveredSegment.containsTag_iff, entriesOf,
    mem_flatMap]
  constructor
  · rintro ⟨seg, hseg, s, hs⟩
    exact ⟨s, seg, hseg, hs⟩
  · rintro ⟨s, seg, hseg, hs⟩
    exact ⟨seg, hseg, s, hs⟩

/-- A tag that is not outstanding is refused. -/
theorem takeOne_error (h : ∀ s, (tag, s) ∉ entriesOf w.segments) :
    w.takeOne tag = .error .invalidDeliveryTag := by
  have hnone : w.findSegmentIdx tag = none := by
    rw [findSegmentIdx, findIdx?_eq_none_iff]
    intro seg hseg
    rw [Bool.eq_false_iff]
    intro hc
    obtain ⟨s, hs⟩ := DeliveredSegment.containsTag_iff.mp hc
    exact h s (mem_flatMap.mpr ⟨seg, hseg, hs⟩)
  rw [takeOne, hnone]

/-- **`ack_one` / `nack_one`** of an outstanding tag. -/
theorem takeOne_ok (hw : Ordered W w.segments next) (hs : (tag, s) ∈ entriesOf w.segments) :
    ∃ batch w', w.takeOne tag = .ok (batch, w') ∧
      Takes W (fun t => t == tag) next w batch w' ∧
      workSeqs batch.ranges batch.masks = [s] ∧
      taken (fun t => t == tag) (entriesOf w.segments) = [(tag, s)] := by
  have hfind : ∃ i, w.findSegmentIdx tag = some i := by
    rw [← Option.isSome_iff_exists, findSegmentIdx, findIdx?_isSome, any_eq_true]
    obtain ⟨seg, hseg, hes⟩ := mem_flatMap.mp hs
    exact ⟨seg, hseg, DeliveredSegment.containsTag_iff.mpr ⟨s, hes⟩⟩
  obtain ⟨i, hi⟩ := hfind
  obtain ⟨pre, seg, post, hsplit, hlen, hcont⟩ := findIdx?_split hi
  have hget : w.segments[i]? = some seg := by
    rw [hsplit, ← hlen, getElem?_append_right (Nat.le_refl _)]
    simp
  rw [hsplit] at hw hs
  obtain ⟨s', hs'⟩ := DeliveredSegment.containsTag_iff.mp hcont
  -- tags are distinct, so the segment found holds the entry asked for
  have hsorted := hw.entries_sorted
  obtain rfl : s' = s := seq_unique hsorted (by simp [hs']) hs
  have htaken := taken_single hsorted hs
  rw [← hsplit] at htaken
  obtain ⟨new, hspec⟩ := oneSpec (hw.wellFormed seg (by simp)) hs'
  rw [entriesOf_append, entriesOf_cons] at hsorted
  obtain ⟨-, hright, hpre⟩ := pairwise_append.mp hsorted
  obtain ⟨-, -, hpost⟩ := pairwise_append.mp hright
  have hne_pre : ∀ e ∈ entriesOf pre, (e.1 == tag) = false := by
    intro e he
    have := hpre e he (tag, s') (by simp [hs'])
    simp only [beq_eq_false_iff_ne]
    dsimp only at this
    omega
  have hne_post : ∀ e ∈ entriesOf post, (e.1 == tag) = false := by
    intro e he
    have := hpost (tag, s') hs' e he
    simp only [beq_eq_false_iff_ne]
    dsimp only at this
    omega
  have hrest : entriesOf (applySegAction w.segments i (computeOneAction seg tag).2) =
      taken (fun t => !(t == tag)) (entriesOf w.segments) := by
    rw [hsplit, ← hlen, hspec.apply, entriesOf_append, entriesOf_append, hspec.entries,
      entriesOf_append, entriesOf_cons, taken_append, taken_append,
      taken_all (l := entriesOf pre) (fun e he => by simp [hne_pre e he]),
      taken_all (l := entriesOf post) (fun e he => by simp [hne_post e he])]
  refine ⟨_, _, by rw [takeOne, hi]; dsimp only; rw [hget], ⟨?_, hrest, ?_, hspec.ok, ?_⟩,
    hspec.seqs, htaken⟩
  · rw [hspec.seqs, htaken]
    simp
  · dsimp only
    rw [hsplit, ← hlen, hspec.apply]
    exact hw.replace hspec.wellFormed hspec.order hspec.inside
  · intro hun _
    have hsum := taken_length_add (fun t => t == tag) (entriesOf w.segments)
    rw [htaken, length_singleton] at hsum
    dsimp only
    rw [hrest, hun]
    omega

theorem takeMultiple_error (h : ∀ s, (tag, s) ∉ entriesOf w.segments) :
    w.takeMultiple tag = .error .invalidDeliveryTag := by
  have hno : w.containsTag tag = false := by
    rw [Bool.eq_false_iff]
    intro hc
    obtain ⟨s, hs⟩ := containsTag_iff.mp hc
    exact h s hs
  rw [takeMultiple, hno]
  rfl

/-- **`ack_multiple` / `nack_multiple`** of an outstanding tag. -/
theorem takeMultiple_ok (hw : Ordered W w.segments next) (hs : (tag, s) ∈ entriesOf w.segments) :
    ∃ batch w', w.takeMultiple tag = .ok (batch, w') ∧
      Takes W (fun t => decide (t ≤ tag)) next w batch w' := by
  have hcont : w.containsTag tag = true := containsTag_iff.mpr ⟨s, hs⟩
  obtain ⟨k1, k2, k3, k4⟩ := @takeFront_spec W tag _ w.segments ⟨[], []⟩ 0 hw
    ⟨by simp, by simp⟩ ⟨s, hs⟩
  refine ⟨_, _, by rw [takeMultiple, hcont]; rfl, ⟨by simpa [workSeqs] using k3.perm, k2, k1,
    k3.ok, fun hun hlt => ?_⟩⟩
  have hsum := taken_length_add (fun t => decide (t ≤ tag)) (entriesOf w.segments)
  rw [Nat.zero_add] at k4
  dsimp only
  rw [k4 (by omega), k2, hun]
  omega

/-- **`drain_all`** takes everything. -/
theorem drainAll_takes (hw : Ordered W w.segments next) (reason : NackReason) :
    ∃ batch, w.drainAll reason = (nackBatch reason batch, ⟨[], 0⟩) ∧
      Takes W (fun _ => true) next w batch ⟨[], 0⟩ := by
  have key : ∀ (segments : List DeliveredSegment) (batch : AckBatch),
      (∀ seg ∈ segments, seg.WellFormed W) → BatchOk W batch →
      Adds W batch ((entriesOf segments).map snd)
        (segments.foldl (fun batch seg => (fullSegment seg batch).1) batch) := by
    intro segments
    induction segments with
    | nil =>
      intro batch _ hok
      exact ⟨hok, by simp⟩
    | cons seg segments ih =>
      intro batch hwf hok
      have hadds := (fullSegment_spec (hwf seg (by simp)) hok).1
      rw [entriesOf_cons, map_append]
      exact hadds.trans (ih _ (fun x hx => hwf x (by simp [hx])) hadds.ok)
  have hadds := key w.segments ⟨[], []⟩ hw.wellFormed ⟨by simp, by simp⟩
  refine ⟨_, rfl, ⟨?_, (taken_none fun _ _ => rfl).symm, Ordered.nil _, hadds.ok,
    fun _ _ => rfl⟩⟩
  rw [taken_all fun _ _ => rfl]
  simpa [workSeqs] using hadds.perm

end SegmentDeliveryWindow

end Aurum.Consumer
