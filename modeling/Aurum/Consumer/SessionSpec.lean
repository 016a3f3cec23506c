import Aurum.Consumer.Session

/-!
# Consumer — what the session operations do

A session is described by its outstanding entries. Delivery appends the
delivered messages under consecutive tags; every settlement (`ack`,
`nack`, `reject`, `cancel`) removes the entries whose tag is taken and
gives their messages one new state in the queue. `SessionOk` is what
every operation keeps: entries in tag order below `next_tag`, and under
a limited prefetch the credit equal to the number of entries. `Exact`
says the two `u32` counters are right; it is kept while fewer than
`2^32` messages are outstanding.
-/

namespace Aurum.Consumer

open Aurum.Bits Aurum.Kernels Aurum.Queue List ConsumerSession SegmentDeliveryWindow DeliveryRange
open Nat

/-- Messages under consecutive tags from `t` on. -/
def tagged (t : Nat) (S : List Nat) : List (Nat × Nat) := (S.zipIdx t).map fun p => (p.2, p.1)

@[simp] theorem tagged_nil (t : Nat) : tagged t [] = [] := rfl

theorem tagged_append (t : Nat) (S T : List Nat) :
    tagged t (S ++ T) = tagged t S ++ tagged (t + S.length) T := by
  simp [tagged, zipIdx_append]

@[simp] theorem length_tagged (t : Nat) (S : List Nat) : (tagged t S).length = S.length := by
  simp [tagged]

@[simp] theorem map_snd_tagged (t : Nat) (S : List Nat) : (tagged t S).map Prod.snd = S := by
  rw [tagged, map_map]
  exact zipIdx_map_fst t S

theorem map_fst_tagged (t : Nat) (S : List Nat) :
    (tagged t S).map Prod.fst = List.range' t S.length := by
  rw [tagged, map_map]
  exact zipIdx_map_snd t S

variable {S : List Nat} {st : Nat → Option MessageState} {s : ConsumerSession}
  {q q' : HybridRangeBlockQueue} {x : Nat}

theorem mem_tagged {t : Nat} {e : Nat × Nat} (h : e ∈ tagged t S) :
    t ≤ e.1 ∧ e.1 < t + S.length ∧ e.2 ∈ S := by
  have h1 : e.1 ∈ (tagged t S).map Prod.fst := mem_map_of_mem h
  have h2 : e.2 ∈ (tagged t S).map Prod.snd := mem_map_of_mem h
  rw [map_fst_tagged, mem_range'_1] at h1
  rw [map_snd_tagged] at h2
  exact ⟨h1.1, h1.2, h2⟩

/-- A fresh range segment holds its messages under consecutive tags. -/
theorem RangeSegment.entries_eq_tagged (r : RangeSegment) :
    r.entries = tagged r.firstTag (DeliveryRange.mk r.startSeq r.len).seqs := by
  refine ext_getElem? fun i => ?_
  simp only [RangeSegment.entries, tagged, DeliveryRange.seqs, getElem?_map,
    getElem?_zipIdx]
  by_cases hi : i < r.len
  · simp [hi, add_comm]
  · simp [hi]

/-- A fresh mask segment has one rank for each of its messages. -/
theorem MaskSegment.getLsbD_new (t block word : Nat) (mask : Word) (fl : Bool) (k : Nat) :
    (MaskSegment.new t block word mask fl).remainingRankMask.getLsbD k =
      decide (k < countOnes mask) := by
  have hle := countOnes_le mask
  have hlow : (MaskSegment.new t block word mask fl).remainingRankMask =
      lowMask (countOnes mask) := by
    simp only [MaskSegment.new, lowMask]
    by_cases h64 : countOnes mask = 64
    · simp [h64]
    by_cases h0 : countOnes mask = 0
    · simp [h0]
    · rw [if_neg h64, if_neg h0, if_neg (by omega)]
  rw [hlow]
  by_cases hk : k < 64
  · exact getLsbD_lowMask hk
  · rw [BitVec.getLsbD_of_ge _ _ (by omega), decide_eq_false (by omega)]

/-- A fresh mask segment too. -/
theorem MaskSegment.entries_new (t block word : Nat) (mask : Word) (fl : Bool) :
    (MaskSegment.new t block word mask fl).entries =
      tagged t (DeliveryMask.mk block word mask).seqs := by
  have hfilter : ((positions mask).zipIdx.filter fun p =>
      (MaskSegment.new t block word mask fl).remainingRankMask.getLsbD p.2) =
      (positions mask).zipIdx := by
    refine filter_eq_self.mpr fun p hp => ?_
    rw [MaskSegment.getLsbD_new, decide_eq_true_eq]
    exact (List.getElem?_eq_some_iff.mp (mem_zipIdx_iff_getElem?.mp hp)).1
  change (((positions mask).zipIdx.filter fun p =>
    (MaskSegment.new t block word mask fl).remainingRankMask.getLsbD p.2).map _) = _
  rw [hfilter]
  refine ext_getElem? fun i => ?_
  simp only [tagged, DeliveryMask.seqs, getElem?_map, getElem?_zipIdx]
  cases (positions mask)[i]? with
  | none => rfl
  | some p => simp [MaskSegment.new]

namespace TaggedDeliverySegment

open Nat

/-- The `(tag, seq)` pairs a delivered segment announces. -/
def entries : TaggedDeliverySegment → List (Nat × Nat)
  | .range firstTag r _ => tagged firstTag r.seqs
  | .mask firstTag m _ _ => tagged firstTag m.seqs

variable (st)

/-- A range of messages that were ready. -/
def Fresh : TaggedDeliverySegment → Prop
  | .range _ r _ => ∀ x ∈ r.seqs, st x = some .ready
  | .mask .. => False

/-- A mask of messages that were sparse-ready. -/
def Sparse : TaggedDeliverySegment → Prop
  | .range .. => False
  | .mask _ m _ _ => ∀ x ∈ m.seqs, st x = some .sparseReady

variable {st}

end TaggedDeliverySegment

/-- A delivery is at most one fresh range followed by sparse masks. -/
def Handout (st : Nat → Option MessageState) (out : List TaggedDeliverySegment) : Prop :=
  ∃ ranges masks, out = ranges ++ masks ∧ ranges.length ≤ 1 ∧ (∀ seg ∈ ranges, seg.Fresh st) ∧
    ∀ seg ∈ masks, seg.Sparse st

/-! ## Tagging -/

/-- The messages `S` were tagged and pushed to the window. -/
structure Tags (S : List Nat) (acc acc' : ConsumerSession × List TaggedDeliverySegment) :
    Prop where
  entries : acc'.1.entries = acc.1.entries ++ tagged acc.1.nextTag S
  nextTag : acc'.1.nextTag = acc.1.nextTag + S.length
  ordered : 1 ≤ acc.1.nextTag → Ordered 4 acc.1.window.segments acc.1.nextTag →
    Ordered 4 acc'.1.window.segments acc'.1.nextTag
  frame : acc'.1.credit = acc.1.credit ∧ acc'.1.cancelled = acc.1.cancelled ∧
    acc'.1.id = acc.1.id ∧ acc'.1.channelId = acc.1.channelId
  unacked : acc.1.window.unacked + S.length < 2 ^ 32 →
    acc'.1.window.unacked = acc.1.window.unacked + S.length
  out : acc'.2.flatMap TaggedDeliverySegment.entries =
    acc.2.flatMap TaggedDeliverySegment.entries ++ tagged acc.1.nextTag S

variable {T : List Nat} {acc acc' acc'' : ConsumerSession × List TaggedDeliverySegment}

theorem Tags.refl (acc : ConsumerSession × List TaggedDeliverySegment) : Tags [] acc acc :=
  ⟨by simp, by simp, fun _ h => h, ⟨rfl, rfl, rfl, rfl⟩, fun _ => rfl, by simp⟩

theorem Tags.trans (h : Tags S acc acc') (h' : Tags T acc' acc'') : Tags (S ++ T) acc acc'' where
  entries := by
    rw [h'.entries, h.entries, h.nextTag, tagged_append, List.append_assoc]
  nextTag := by
    rw [h'.nextTag, h.nextTag, length_append, add_assoc]
  ordered := fun h1 hord => h'.ordered (by rw [h.nextTag]; omega) (h.ordered h1 hord)
  frame := by
    obtain ⟨a, b, c, d⟩ := h.frame
    obtain ⟨a', b', c', d'⟩ := h'.frame
    exact ⟨a'.trans a, b'.trans b, c'.trans c, d'.trans d⟩
  unacked := fun hlt => by
    rw [length_append] at hlt ⊢
    have h1 := h.unacked (by omega)
    rw [h'.unacked (by omega), h1, add_assoc]
  out := by
    rw [h'.out, h.out, h.nextTag, tagged_append, List.append_assoc]

/-- Appending one well-formed segment that starts at `next`. -/
theorem Ordered.snoc {W : Nat} {segments : List DeliveredSegment} {next next' : Nat}
    (h : Ordered W segments next) {seg : DeliveredSegment} (hwf : seg.WellFormed W)
    (hfirst : seg.firstTag = next) (h1 : 1 ≤ next) (hlast : seg.lastTag < next') :
    Ordered W (segments ++ [seg]) next' := by
  have hle := DeliveredSegment.firstTag_le_lastTag hwf
  refine ⟨fun s hs => ?_, ?_, fun s hs => ?_⟩
  · rcases mem_append.mp hs with hs | hs
    · exact h.wellFormed s hs
    · rw [mem_singleton.mp hs]
      exact hwf
  · refine pairwise_append.mpr ⟨h.order, by simp, fun a ha b hb => ?_⟩
    rw [mem_singleton.mp hb, hfirst]
    exact (h.bounds a ha).2
  · rcases mem_append.mp hs with hs | hs
    · have := h.bounds s hs
      omega
    · rw [mem_singleton.mp hs]
      omega

theorem tags_tagRange {range : DeliveryRange} (hlen : range.len ≠ 0)
    (acc : ConsumerSession × List TaggedDeliverySegment) :
    Tags range.seqs acc (tagRange acc range) where
  entries := by
    simp [tagRange, entries, pushRange,
      DeliveredSegment.entries, RangeSegment.entries_eq_tagged]
  nextTag := by simp [tagRange]
  ordered := fun h1 hord => by
    refine hord.snoc (show 0 < range.len by omega) rfl h1 ?_
    simp only [DeliveredSegment.lastTag, RangeSegment.lastTag, tagRange]
    omega
  frame := ⟨rfl, rfl, rfl, rfl⟩
  unacked := fun hlt => by
    rw [DeliveryRange.length_seqs] at hlt ⊢
    exact mod_eq_of_lt hlt
  out := by simp [tagRange, TaggedDeliverySegment.entries]

theorem tags_tagMask {mask : DeliveryMask} (hmask : mask.word < 4 ∧ mask.mask ≠ 0#64)
    (queue : HybridRangeBlockQueue) (acc : ConsumerSession × List TaggedDeliverySegment) :
    Tags mask.seqs acc (tagMask queue acc mask) where
  entries := by
    simp [tagMask, entries, pushMask,
      DeliveredSegment.entries, MaskSegment.entries_new]
  nextTag := by simp [tagMask]
  ordered := fun h1 hord => by
    have hpos := countOnes_pos.mpr hmask.2
    have hwf : ∀ t fl, (DeliveredSegment.mask
        (MaskSegment.new t mask.block mask.word mask.mask fl)).WellFormed 4 :=
      fun _ _ => ⟨hmask.2, hmask.1⟩
    refine hord.snoc (hwf _ _) rfl h1 ?_
    simp only [DeliveredSegment.lastTag, MaskSegment.lastTag, tagMask,
      MaskSegment.originalCount, MaskSegment.new]
    omega
  frame := ⟨rfl, rfl, rfl, rfl⟩
  unacked := fun hlt => by
    rw [DeliveryMask.length_seqs] at hlt ⊢
    exact mod_eq_of_lt hlt
  out := by simp [tagMask, TaggedDeliverySegment.entries]

theorem tags_foldl {α : Type} {f : ConsumerSession × List TaggedDeliverySegment → α →
      ConsumerSession × List TaggedDeliverySegment} {seqs : α → List Nat} :
    ∀ (l : List α) (acc : ConsumerSession × List TaggedDeliverySegment),
      (∀ a ∈ l, ∀ acc, Tags (seqs a) acc (f acc a)) →
      Tags (l.flatMap seqs) acc (l.foldl f acc) := by
  intro l
  induction l with
  | nil =>
    intro acc _
    exact Tags.refl acc
  | cons a l ih =>
    intro acc h
    exact (h a (by simp) acc).trans (ih (f acc a) fun b hb => h b (by simp [hb]))

/-- A fold that pushes one segment for each item. -/
theorem foldl_pushes {α : Type} {f : ConsumerSession × List TaggedDeliverySegment → α →
      ConsumerSession × List TaggedDeliverySegment} {P : TaggedDeliverySegment → Prop} :
    ∀ (l : List α) (acc : ConsumerSession × List TaggedDeliverySegment),
      (∀ a ∈ l, ∀ acc, ∃ seg, (f acc a).2 = acc.2 ++ [seg] ∧ P seg) →
      ∃ segs, (l.foldl f acc).2 = acc.2 ++ segs ∧ segs.length = l.length ∧ ∀ seg ∈ segs, P seg := by
  intro l
  induction l with
  | nil =>
    intro acc _
    exact ⟨[], by simp, rfl, by simp⟩
  | cons a l ih =>
    intro acc h
    obtain ⟨seg, hseg, hP⟩ := h a (by simp) acc
    obtain ⟨segs, heq, hlen, hall⟩ := ih (f acc a) fun b hb => h b (by simp [hb])
    refine ⟨seg :: segs, ?_, by simp [hlen], ?_⟩
    · rw [foldl_cons, heq, hseg]
      simp
    · simpa using ⟨hP, hall⟩

/-- What tagging a delivery announces. -/
theorem handout_foldl {ranges : List DeliveryRange} {masks : List DeliveryMask}
    (hone : ranges.length ≤ 1) (hfresh : ∀ r ∈ ranges, ∀ x ∈ r.seqs, st x = some .ready)
    (hsparse : ∀ m ∈ masks, ∀ x ∈ m.seqs, st x = some .sparseReady)
    (queue : HybridRangeBlockQueue) (s : ConsumerSession) :
    Handout st (masks.foldl (tagMask queue)
      (ranges.foldl tagRange (s, []))).2 := by
  obtain ⟨segs, h1, hlen, hall⟩ := foldl_pushes (f := tagRange)
    (P := fun seg => seg.Fresh st) ranges (s, [])
    fun r hr acc => ⟨.range acc.1.nextTag r false, rfl, hfresh r hr⟩
  obtain ⟨segs', h2, -, hall'⟩ := foldl_pushes (f := tagMask queue)
    (P := fun seg => seg.Sparse st) masks (ranges.foldl tagRange (s, []))
    fun m hm acc => ⟨.mask acc.1.nextTag m _ _, rfl, hsparse m hm⟩
  refine ⟨segs, segs', ?_, hlen ▸ hone, hall, hall'⟩
  rw [h2, h1, nil_append]

/-! ## Session invariants -/

/-- What every session operation keeps. -/
structure SessionOk (s : ConsumerSession) : Prop where
  ordered : Ordered 4 s.window.segments s.nextTag
  next : 1 ≤ s.nextTag
  limit : ∀ n, s.credit.mode = .limited n →
    s.credit.inFlight = s.entries.length ∧ s.entries.length ≤ n.toNat
  drained : s.cancelled = true → s.entries = []

/-- The two `u32` counters count the entries. -/
def Exact (s : ConsumerSession) : Prop :=
  s.window.unacked = s.entries.length ∧ s.credit.inFlight = s.entries.length

theorem sessionOk_new (id channelId : Nat) (prefetch : PrefetchMode) :
    SessionOk (new id channelId prefetch) :=
  ⟨Ordered.nil _, le_refl _, fun _ _ => ⟨rfl, zero_le _⟩, fun _ => rfl⟩

theorem exact_new (id channelId : Nat) (prefetch : PrefetchMode) :
    Exact (new id channelId prefetch) := ⟨rfl, rfl⟩

/-! ## Delivery -/

/-- What `deliver_from_queue` did to the session `s` and the map `st`: it
asked for `asked` messages and got those of `work`. -/
structure SessionDelivers (s : ConsumerSession) (q : HybridRangeBlockQueue)
    (st : Nat → Option MessageState) (asked : Nat) (S : List Nat) (s' : ConsumerSession)
    (q' : HybridRangeBlockQueue) (out : List TaggedDeliverySegment) (n : Nat) : Prop where
  denotes : q'.Denotes (setAll st S .inflight)
  nextSeq : q'.nextSeq = q.nextSeq
  nodup : S.Nodup
  available : ∀ x ∈ S, st x = some .ready ∨ st x = some .sparseReady
  count : n = S.length
  le : S.length ≤ asked
  exhausted : S.length < asked → ∀ x, x ∉ S → st x ≠ some .ready ∧ st x ≠ some .sparseReady
  entries : s'.entries = s.entries ++ tagged s.nextTag S
  nextTag : s'.nextTag = s.nextTag + S.length
  frame : s'.cancelled = s.cancelled ∧ s'.credit.mode = s.credit.mode ∧ s'.id = s.id ∧
    s'.channelId = s.channelId
  handout : Handout st out
  out : out.flatMap TaggedDeliverySegment.entries = tagged s.nextTag S
  ok : SessionOk s'
  exact : Exact s → s'.entries.length < 2 ^ 32 → Exact s'
  idle : n = 0 → s' = s

theorem SessionDelivers.nothing {asked : Nat} (hs : SessionOk s) (hq : q'.Denotes st)
    (hnext : q'.nextSeq = q.nextSeq)
    (hnone : 0 < asked → ∀ x, st x ≠ some .ready ∧ st x ≠ some .sparseReady) :
    SessionDelivers s q st asked [] s q' [] 0 where
  denotes := by simpa using hq
  nextSeq := hnext
  nodup := by simp
  available := by simp
  count := rfl
  le := zero_le _
  exhausted := fun h x _ => hnone h x
  entries := by simp
  nextTag := rfl
  frame := ⟨rfl, rfl, rfl, rfl⟩
  handout := ⟨[], [], rfl, by simp, by simp, by simp⟩
  out := by simp
  ok := hs
  exact := fun h _ => h
  idle := fun _ => rfl

/-- Reserving at most what is available never fails. -/
theorem reserve_available {c : ConsumerCredit} {n : Nat} (h0 : n ≠ 0) (hn : n ≤ c.available) :
    ∃ c', c.reserve n = .ok c' ∧ c'.mode = c.mode ∧
      (∀ l, c.mode = .limited l → c'.inFlight = c.inFlight + n ∧ c.inFlight + n ≤ l.toNat) ∧
      (c.inFlight + n < 2 ^ 32 → c'.inFlight = c.inFlight + n) := by
  obtain ⟨mode, inFlight⟩ := c
  cases mode with
  | unlimited =>
    refine ⟨_, rfl, rfl, by simp, fun hlt => ?_⟩
    simp only [u32Max] at hlt ⊢
    omega
  | limited l =>
    have hl : l.toNat < 2 ^ 32 := l.toNat_lt
    simp only [ConsumerCredit.available] at hn
    have hmin : ¬ l.toNat < min (inFlight + n) u32Max := by omega
    refine ⟨⟨.limited l, inFlight + n⟩, by simp [ConsumerCredit.reserve, hmin], rfl, ?_,
      fun _ => rfl⟩
    rintro l' hl'
    cases hl'
    exact ⟨rfl, by dsimp only; omega⟩

/-- **`deliver_from_queue`**: a cancelled session refuses; any other
takes messages from the queue and tags them. -/
theorem deliverFromQueue_spec (hs : SessionOk s) (hq : q.Denotes st) (hc : s.cancelled = false)
    (max : Nat) :
    ∃ S s' q' out n, s.deliverFromQueue q max = .ok (s', q', out, n) ∧
      SessionDelivers s q st (min s.credit.available max) S s' q' out n := by
  unfold deliverFromQueue
  rw [hc]
  simp only [Bool.false_eq_true, if_false]
  generalize hav : min s.credit.available max = asked
  by_cases h0 : asked = 0
  · rw [if_pos h0]
    exact ⟨[], _, _, _, _, rfl, .nothing hs hq rfl fun h => absurd h (by omega)⟩
  rw [if_neg h0]
  obtain ⟨hq', hdel, hnext⟩ := hq.deliver asked
  generalize q.deliver asked = res at hq' hdel hnext ⊢
  obtain ⟨q', work, n⟩ := res
  dsimp only at hq' hdel hnext ⊢
  by_cases hn0 : n = 0
  · rw [if_pos hn0]
    have hS : workSeqs work.ranges work.masks = [] :=
      eq_nil_of_length_eq_zero (by rw [← hdel.count, hn0])
    rw [hS, setAll_nil] at hq'
    refine ⟨[], _, _, _, _, rfl, .nothing hs hq' hnext fun h x => ?_⟩
    exact hdel.exhausted (by rw [hS]; exact h) x (by rw [hS]; simp)
  rw [if_neg hn0]
  have htags := (tags_foldl (f := tagRange) work.ranges (s, [])
      fun r hr acc => tags_tagRange (hdel.ranges r hr) acc).trans
    (tags_foldl (f := tagMask q') work.masks _
      fun m hm acc => tags_tagMask (hdel.masks m hm) q' acc)
  change Tags (workSeqs work.ranges work.masks) _ _ at htags
  have hhand := handout_foldl hdel.single hdel.fresh hdel.sparse q' s
  generalize work.masks.foldl (tagMask q')
    (work.ranges.foldl tagRange (s, [])) = acc at htags hhand ⊢
  obtain ⟨s', out⟩ := acc
  obtain ⟨hnodup, havail, hcount, hle, hexh, -, -, -, -, -⟩ := hdel
  generalize workSeqs work.ranges work.masks = S at *
  obtain ⟨f1, f2, f3, f4⟩ := htags.frame
  dsimp only at f1 f2 f3 f4 ⊢
  obtain ⟨c', hres, hmode, hlim, hex⟩ := reserve_available (c := s.credit) hn0 (by omega)
  have hentries : s'.entries = s.entries ++ tagged s.nextTag S := htags.entries
  have hlen : s'.entries.length = s.entries.length + n := by
    rw [hentries, length_append, length_tagged, hcount]
  rw [f1, hres]
  refine ⟨S, _, _, _, _, rfl, hq', hnext, hnodup, havail, hcount, hle,
    hexh, hentries, htags.nextTag, ⟨f2, hmode, f3, f4⟩, hhand, by simpa using htags.out,
    ⟨htags.ordered hs.next hs.ordered, ?_, fun l hl => ?_, fun hcan => ?_⟩, fun hexact hlt => ?_,
    fun h0 => absurd h0 hn0⟩
  · have h1 : s'.nextTag = s.nextTag + S.length := htags.nextTag
    have h2 := hs.next
    dsimp only
    omega
  · have hl' : s.credit.mode = .limited l := hmode.symm.trans hl
    obtain ⟨g1, g2⟩ := hs.limit l hl'
    obtain ⟨g3, g4⟩ := hlim l hl'
    change c'.inFlight = s'.entries.length ∧ s'.entries.length ≤ l.toNat
    omega
  · have hc' : s'.cancelled = true := hcan
    rw [f2, hc] at hc'
    cases hc'
  · obtain ⟨g1, g2⟩ := hexact
    have hlt' : s'.entries.length < 2 ^ 32 := hlt
    have hun := htags.unacked (show s.window.unacked + S.length < 2 ^ 32 by omega)
    refine ⟨?_, ?_⟩
    · change s'.window.unacked = s'.entries.length
      dsimp only at hun
      omega
    · change c'.inFlight = s'.entries.length
      rw [hex (by omega)]
      omega

theorem deliverFromQueue_cancelled (hc : s.cancelled = true) (q : HybridRangeBlockQueue)
    (max : Nat) : s.deliverFromQueue q max = .error .consumerCancelled := by
  simp [deliverFromQueue, hc]

/-! ## Settlement -/

/-- The tags a request with this mode and tag takes. -/
def AckMode.takes (mode : AckMode) (tag t : Nat) : Bool :=
  match mode with
  | .one => t == tag
  | .multiple => decide (t ≤ tag)

/-- The state a nacked message ends in. -/
def target : NackReason → MessageState
  | .requeue => .retry
  | .reject | .deadLetter => .acked

/-- The entries of `s` whose tag satisfies `take` left the session, and
their messages are in state `dst` in the queue. -/
structure Settles (take : Nat → Bool) (dst : MessageState) (s : ConsumerSession)
    (q : HybridRangeBlockQueue) (st : Nat → Option MessageState) (s' : ConsumerSession)
    (q' : HybridRangeBlockQueue) : Prop where
  denotes : q'.Denotes (setAll st ((taken take s.entries).map Prod.snd) dst)
  nextSeq : q'.nextSeq = q.nextSeq
  entries : s'.entries = taken (fun t => !take t) s.entries
  nextTag : s'.nextTag = s.nextTag
  frame : s'.credit.mode = s.credit.mode ∧ s'.id = s.id ∧ s'.channelId = s.channelId
  ok : SessionOk s'
  exact : Exact s → s.entries.length < 2 ^ 32 → Exact s'

theorem setAll_perm {T : List Nat} (h : S.Perm T) (st : Nat → Option MessageState)
    (p : MessageState) : setAll st S p = setAll st T p := by
  funext s
  simp only [setAll, h.mem_iff]

theorem length_workSeqs (ranges : List DeliveryRange) (masks : List DeliveryMask) :
    (workSeqs ranges masks).length =
      (ranges.map len).sum + (masks.map fun m => countOnes m.mask).sum := by
  have h1 : (fun r => (seqs r).length) = len :=
    funext length_seqs
  have h2 : (fun m => (DeliveryMask.seqs m).length) = fun m => countOnes m.mask :=
    funext DeliveryMask.length_seqs
  rw [workSeqs, length_append, length_flatMap, length_flatMap, h1, h2]

/-- What a queue denotes fixes its `next_seq`. -/
theorem nextSeq_eq {st' : Nat → Option MessageState} (h : q.Denotes st) (h' : q'.Denotes st')
    (hdom : ∀ x, st' x = none ↔ st x = none) : q'.nextSeq = q.nextSeq := by
  have h1 : q.nextSeq ≤ q'.nextSeq :=
    (h.dom _).mp ((hdom _).mp ((h'.dom _).mpr (le_refl _)))
  have h2 : q'.nextSeq ≤ q.nextSeq :=
    (h'.dom _).mp ((hdom _).mpr ((h.dom _).mpr (le_refl _)))
  omega

theorem Takes.count {take : Nat → Bool} {next : Nat} {w w' : SegmentDeliveryWindow}
    {batch : AckBatch} (h : Takes 4 take next w batch w') :
    batch.ackedMessages = (taken take (entriesOf w.segments)).length := by
  rw [AckBatch.ackedMessages, ← length_workSeqs, h.seqs.length_eq, length_map]

/-- The counts of a nack of `n` messages. -/
def nackResult (reason : NackReason) (n : Nat) : NackApplyResult :=
  match reason with
  | .requeue => ⟨n, n, 0, 0, n⟩
  | .reject => ⟨n, 0, n, 0, n⟩
  | .deadLetter => ⟨n, 0, 0, n, n⟩

/-- Why a request for a tag that is not outstanding is refused. -/
def refusal (s : ConsumerSession) (tag : Nat) : ConsumerError :=
  if s.cancelled then .consumerCancelled
  else if tag < 1 ∨ s.nextTag ≤ tag then .invalidDeliveryTag
  else .deliveryTagAlreadySettled

section

variable {take : Nat → Bool} {batch : AckBatch} {w : SegmentDeliveryWindow} {dst : MessageState}
  {tag : Nat}

/-- Settling what the window gave up: the window is replaced, the credit
of its messages released and the queue moves them to `dst`. -/
theorem settles_of_takes (hs : SessionOk s) (hq : q.Denotes st)
    (hin : ∀ e ∈ s.entries, st e.2 = some .inflight)
    (htakes : Takes 4 take s.nextTag s.window batch w)
    (hq' : q'.Denotes (setAll st (workSeqs batch.ranges batch.masks) dst)) (cancelled : Bool)
    (hall : cancelled = true → ∀ e ∈ s.entries, take e.1 = true) :
    Settles take dst s q st
      { s with
        window := w
        credit := s.credit.release (batch.ackedMessages % 2 ^ 32)
        cancelled := cancelled } q' := by
  have hlen := htakes.count
  change batch.ackedMessages = (taken take s.entries).length at hlen
  have hrest : (entriesOf w.segments).length =
      s.entries.length - (taken take s.entries).length := by
    have hsum := taken_length_add take s.entries
    have hlen' := congrArg List.length htakes.rest
    change _ = (taken (fun t => !take t) s.entries).length at hlen'
    omega
  rw [setAll_perm htakes.seqs] at hq'
  change q'.Denotes (setAll st ((taken take s.entries).map Prod.snd) dst) at hq'
  refine ⟨hq', nextSeq_eq hq hq' fun x => ?_, htakes.rest, rfl, ⟨rfl, rfl, rfl⟩,
    ⟨htakes.ordered, hs.next, fun n hn => ?_, fun hc => ?_⟩, fun hex hlt => ⟨?_, ?_⟩⟩
  · by_cases hx : x ∈ (taken take s.entries).map Prod.snd
    · rw [setAll_of_mem hx]
      obtain ⟨e, he, rfl⟩ := mem_map.mp hx
      rw [hin e (mem_filter.mp he).1]
      simp
    · rw [setAll_of_not_mem hx]
  · obtain ⟨h1, h2⟩ := hs.limit n hn
    have hn32 : n.toNat < 2 ^ 32 := n.toNat_lt
    have htaken : (taken take s.entries).length ≤ s.entries.length := length_filter_le ..
    change s.credit.inFlight - batch.ackedMessages % 2 ^ 32 = (entriesOf w.segments).length ∧
      (entriesOf w.segments).length ≤ n.toNat
    rw [hlen, hrest, mod_eq_of_lt (by omega), h1]
    omega
  · refine htakes.rest.trans (taken_none fun e he => ?_)
    simp [hall hc e he]
  · exact htakes.unacked hex.1 hlt
  · have htaken : (taken take s.entries).length ≤ s.entries.length := length_filter_le ..
    change s.credit.inFlight - batch.ackedMessages % 2 ^ 32 = (entriesOf w.segments).length
    rw [hlen, hrest, hex.2, mod_eq_of_lt (by omega)]

/-- The messages of a batch taken from the session are inflight. -/
theorem inflight_of_takes (hin : ∀ e ∈ s.entries, st e.2 = some .inflight)
    (htakes : Takes 4 take s.nextTag s.window batch w) :
    ∀ x ∈ workSeqs batch.ranges batch.masks, st x = some .inflight := by
  intro x hx
  obtain ⟨e, he, rfl⟩ := mem_map.mp (htakes.seqs.mem_iff.mp hx)
  exact hin e (mem_filter.mp he).1

/-- An outstanding tag passes the opening checks. -/
theorem checkTag_ok (hs : SessionOk s) (hx : (tag, x) ∈ s.entries) : s.checkTag tag = .ok () := by
  have hc : s.cancelled = false := by
    rw [Bool.eq_false_iff]
    intro hc
    rw [hs.drained hc] at hx
    cases hx
  have hb := hs.ordered.entries_bounds hx
  dsimp only at hb
  rw [checkTag, hc, if_neg (by simp), if_neg (by omega)]

/-- The window call a request makes. -/
def takeBy (w : SegmentDeliveryWindow) (mode : AckMode) (tag : Nat) :
    Except ConsumerError (AckBatch × SegmentDeliveryWindow) :=
  match mode with
  | .one => w.takeOne tag
  | .multiple => w.takeMultiple tag

/-- `ack` as its checks, the window call and the settlement. -/
theorem ack_eq (s : ConsumerSession) (mode : AckMode) (q : HybridRangeBlockQueue) :
    s.ack ⟨tag, mode⟩ q = (s.checkTag tag).bind fun _ =>
      match takeBy s.window mode tag with
      | .error _ => .error .deliveryTagAlreadySettled
      | .ok (batch, w) =>
        .ok ({ s with window := w, credit := s.credit.release (batch.ackedMessages % 2 ^ 32) },
          q.applyAckBatch batch,
          ⟨batch.ackedMessages % 2 ^ 32, batch.ackedMessages % 2 ^ 32, batch.ranges⟩) := by
  cases mode <;> rfl

/-- `nack` likewise. -/
theorem nack_eq (s : ConsumerSession) (mode : AckMode) (reason : NackReason)
    (q : HybridRangeBlockQueue) :
    s.nack ⟨tag, mode, reason⟩ q = (s.checkTag tag).bind fun _ =>
      match takeBy s.window mode tag with
      | .error _ => .error .deliveryTagAlreadySettled
      | .ok (batch, w) =>
        let res := applyNackBatch q (nackBatch reason batch)
        .ok ({ s with window := w, credit := s.credit.release (batch.ackedMessages % 2 ^ 32) },
          res.1, ⟨batch.ackedMessages % 2 ^ 32, res.2.1, res.2.2.1, res.2.2.2,
            batch.ackedMessages % 2 ^ 32⟩) := by
  cases mode with
  | one =>
    simp only [nack, nackOne, takeBy]
    cases s.window.takeOne tag <;> rfl
  | multiple =>
    simp only [nack, nackMultiple, takeBy]
    cases s.window.takeMultiple tag <;> rfl

/-- **An ack is a nack that drops**: it leaves the same session and the
same queue and counts the same messages. -/
theorem ack_drops (s : ConsumerSession) (req : AckRequest) (q : HybridRangeBlockQueue) :
    (∃ e, s.ack req q = .error e ∧ s.nack ⟨req.tag, req.mode, .reject⟩ q = .error e) ∨
      ∃ s' q' r ranges, s.ack req q = .ok (s', q', ⟨r.nacked, r.nacked, ranges⟩) ∧
        s.nack ⟨req.tag, req.mode, .reject⟩ q = .ok (s', q', r) := by
  obtain ⟨tag, mode⟩ := req
  rw [ack_eq, nack_eq]
  cases s.checkTag tag with
  | error e => exact .inl ⟨e, rfl, rfl⟩
  | ok u =>
    cases takeBy s.window mode tag with
    | error e => exact .inl ⟨_, rfl, rfl⟩
    | ok res => exact .inr ⟨_, _, _, _, rfl, rfl⟩

theorem nacked_lt {req : NackRequest} {s' : ConsumerSession} {r : NackApplyResult}
    (h : s.nack req q = .ok (s', q', r)) : r.nacked < 2 ^ 32 := by
  obtain ⟨tag, mode, reason⟩ := req
  rw [nack_eq] at h
  cases hcheck : s.checkTag tag with
  | error e => simp [hcheck, Except.bind] at h
  | ok u =>
    cases htake : takeBy s.window mode tag with
    | error e => simp [hcheck, htake, Except.bind] at h
    | ok res =>
      simp only [hcheck, htake, Except.bind, Except.ok.injEq, Prod.mk.injEq] at h
      obtain ⟨-, -, rfl⟩ := h
      exact mod_lt _ (by decide)

theorem takeBy_ok (hs : SessionOk s) (hx : (tag, x) ∈ s.entries) (mode : AckMode) :
    ∃ batch w, takeBy s.window mode tag = .ok (batch, w) ∧
      Takes 4 (mode.takes tag) s.nextTag s.window batch w := by
  cases mode with
  | one =>
    obtain ⟨batch, w, h1, h2, -, -⟩ := takeOne_ok hs.ordered hx
    exact ⟨batch, w, h1, h2⟩
  | multiple => exact takeMultiple_ok hs.ordered hx

/-- An outstanding tag names one message. -/
theorem taken_one (hs : SessionOk s) (hx : (tag, x) ∈ s.entries) :
    taken (AckMode.one.takes tag) s.entries = [(tag, x)] := by
  obtain ⟨-, -, -, -, -, htaken⟩ := takeOne_ok hs.ordered hx
  exact htaken

theorem takeBy_error (hx : ∀ x, (tag, x) ∉ s.entries) (mode : AckMode) :
    takeBy s.window mode tag = .error .invalidDeliveryTag := by
  cases mode with
  | one => exact takeOne_error hx
  | multiple => exact takeMultiple_error hx

theorem checkTag_refused {β : Type} (s : ConsumerSession) (tag : Nat) :
    ((s.checkTag tag).bind fun _ => .error .deliveryTagAlreadySettled :
      Except ConsumerError β) = .error (refusal s tag) := by
  rw [checkTag, refusal]
  split
  · rfl
  · split <;> rfl

/-- **`nack`** of any other tag. -/
theorem nack_refused (hx : ∀ x, (tag, x) ∉ s.entries) (mode : AckMode) (reason : NackReason) :
    s.nack ⟨tag, mode, reason⟩ q = .error (refusal s tag) := by
  rw [nack_eq, takeBy_error hx]
  exact checkTag_refused s tag

/-- What applying a nack batch does, whatever its reason. -/
theorem applyNackBatch_spec (hq : q.Denotes st)
    (hin : ∀ x ∈ workSeqs batch.ranges batch.masks, st x = some .inflight)
    (hok : BatchOk 4 batch) (reason : NackReason) :
    ∃ q' a b c, applyNackBatch q (nackBatch reason batch) = (q', a, b, c) ∧
      q'.Denotes (setAll st (workSeqs batch.ranges batch.masks) (target reason)) ∧
      NackApplyResult.mk (batch.ackedMessages % 2 ^ 32) a b c (batch.ackedMessages % 2 ^ 32) =
        nackResult reason (batch.ackedMessages % 2 ^ 32) := by
  cases reason with
  | requeue =>
    have h := hq.applyNackBatch
      (b := nackBatch .requeue batch) hin hok.masks
    exact ⟨_, _, _, _, rfl, h, rfl⟩
  | reject | deadLetter => exact ⟨_, _, _, _, rfl, hq.applyAckBatch hin hok.masks, rfl⟩

/-- **`nack`** of an outstanding tag. -/
theorem nack_ok (hs : SessionOk s) (hq : q.Denotes st)
    (hin : ∀ e ∈ s.entries, st e.2 = some .inflight) (hx : (tag, x) ∈ s.entries) (mode : AckMode)
    (reason : NackReason) :
    ∃ s' q', s.nack ⟨tag, mode, reason⟩ q = .ok (s', q',
        nackResult reason ((taken (mode.takes tag) s.entries).length % 2 ^ 32)) ∧
      Settles (mode.takes tag) (target reason) s q st s' q' ∧ s'.cancelled = s.cancelled := by
  obtain ⟨batch, w, htake, htakes⟩ := takeBy_ok hs hx mode
  obtain ⟨q', a, b, c, hnack, hq', hres⟩ :=
    applyNackBatch_spec hq (inflight_of_takes hin htakes) htakes.ok reason
  refine ⟨_, _, ?_, settles_of_takes hs hq hin htakes hq' s.cancelled fun hc => ?_, rfl⟩
  · have hcount := htakes.count
    change _ = (taken (mode.takes tag) s.entries).length at hcount
    rw [nack_eq, checkTag_ok hs hx, htake, ← hcount, ← hres]
    simp only [hnack]
    rfl
  · rw [hs.drained hc]
    simp

/-- **`ack`** of an outstanding tag. -/
theorem ack_ok (hs : SessionOk s) (hq : q.Denotes st)
    (hin : ∀ e ∈ s.entries, st e.2 = some .inflight) (hx : (tag, x) ∈ s.entries) (mode : AckMode) :
    ∃ s' q' ranges, s.ack ⟨tag, mode⟩ q = .ok (s', q',
        ⟨(taken (mode.takes tag) s.entries).length % 2 ^ 32,
          (taken (mode.takes tag) s.entries).length % 2 ^ 32, ranges⟩) ∧
      Settles (mode.takes tag) .acked s q st s' q' ∧ s'.cancelled = s.cancelled := by
  obtain ⟨s', q', hnack, hset, hcan⟩ := nack_ok hs hq hin hx mode .reject
  rcases ack_drops s ⟨tag, mode⟩ q with ⟨e, -, herr⟩ | ⟨s₁, q₁, r, ranges, hack, hok⟩
  · cases hnack.symm.trans herr
  · cases hnack.symm.trans hok
    exact ⟨s', q', ranges, hack, hset, hcan⟩

/-- **`ack`** of any other tag. -/
theorem ack_refused (hx : ∀ x, (tag, x) ∉ s.entries) (mode : AckMode) :
    s.ack ⟨tag, mode⟩ q = .error (refusal s tag) := by
  have hnack : s.nack ⟨tag, mode, .reject⟩ q = _ := nack_refused hx mode .reject
  rcases ack_drops s ⟨tag, mode⟩ q with ⟨e, hack, herr⟩ | ⟨s', q', r, ranges, -, hok⟩
  · cases hnack.symm.trans herr
    exact hack
  · cases hnack.symm.trans hok

/-- The state `cancel` gives the unacked messages. -/
def CancelDisposition.target : CancelDisposition → MessageState
  | .requeueUnacked => .retry
  | .dropUnacked => .acked

/-- The result of a cancel with `n` unacked messages. -/
def CancelDisposition.result (disp : CancelDisposition) (n : Nat) : CancelResult :=
  match disp with
  | .requeueUnacked => ⟨n, 0⟩
  | .dropUnacked => ⟨0, n⟩

/-- **`cancel`** settles everything. -/
theorem cancel_spec (hs : SessionOk s) (hq : q.Denotes st)
    (hin : ∀ e ∈ s.entries, st e.2 = some .inflight) (disp : CancelDisposition) :
    Settles (fun _ => true) disp.target s q st (s.cancel disp q).1 (s.cancel disp q).2.1 ∧
      (s.cancel disp q).1.cancelled = true ∧
      (s.cancel disp q).2.2 = disp.result (s.entries.length % 2 ^ 32) := by
  obtain ⟨batch, hdrain, htakes⟩ := drainAll_takes hs.ordered .requeue
  have hin' := inflight_of_takes hin htakes
  have hcount : batch.ackedMessages = s.entries.length := by
    rw [htakes.count, taken_all fun _ _ => rfl]
    rfl
  unfold cancel
  rw [hdrain]
  cases disp with
  | requeueUnacked =>
    have hq' := hq.applyNackBatch (b := nackBatch .requeue batch) hin'
      htakes.ok.masks
    refine ⟨settles_of_takes hs hq hin htakes hq' true fun _ _ _ => rfl, rfl, ?_⟩
    rw [← hcount]
    rfl
  | dropUnacked =>
    have hq' := hq.applyAckBatch hin' htakes.ok.masks
    refine ⟨settles_of_takes hs hq hin htakes hq' true fun _ _ _ => rfl, rfl, ?_⟩
    rw [← hcount]
    rfl

end

/-! ## Settlements in a row -/

section

variable {q'' : HybridRangeBlockQueue} {s' s'' : ConsumerSession} {take take' : Nat → Bool}
  {dst : MessageState}

theorem taken_taken (es : List (Nat × Nat)) :
    taken take' (taken (fun t => !take t) es) = taken (fun t => !take t && take' t) es := by
  simp only [taken, filter_filter]
  exact filter_congr fun e _ => Bool.and_comm _ _

theorem mem_taken_or {es : List (Nat × Nat)} :
    x ∈ (taken (fun t => take t || take' t) es).map Prod.snd ↔
      x ∈ (taken take es).map Prod.snd ++
        (taken take' (taken (fun t => !take t) es)).map Prod.snd := by
  rw [taken_taken, mem_append]
  simp only [taken, mem_map, mem_filter, Bool.or_eq_true, Bool.and_eq_true,
    Bool.not_eq_true']
  constructor
  · rintro ⟨e, ⟨he, ht⟩, rfl⟩
    cases hte : take e.1 with
    | true => exact .inl ⟨e, ⟨he, hte⟩, rfl⟩
    | false => exact .inr ⟨e, ⟨he, hte, ht.resolve_left (by simp [hte])⟩, rfl⟩
  · rintro (⟨e, ⟨he, ht⟩, rfl⟩ | ⟨e, ⟨he, -, ht⟩, rfl⟩)
    · exact ⟨e, ⟨he, .inl ht⟩, rfl⟩
    · exact ⟨e, ⟨he, .inr ht⟩, rfl⟩

theorem length_taken_or (es : List (Nat × Nat)) : (taken (fun t => take t || take' t) es).length =
      (taken take es).length + (taken take' (taken (fun t => !take t) es)).length := by
  rw [taken_taken]
  simp only [taken, ← countP_eq_length_filter]
  induction es with
  | nil => rfl
  | cons e es ih =>
    simp only [countP_cons, ih]
    cases take e.1 <;> cases take' e.1 <;> simp <;> omega

theorem setAll_congr {T : List Nat} (h : ∀ x, x ∈ S ↔ x ∈ T) (st : Nat → Option MessageState)
    (p : MessageState) : setAll st S p = setAll st T p := by
  funext x
  simp only [setAll, h]

/-- A settlement that takes nothing. -/
theorem settles_none (hs : SessionOk s) (hq : q.Denotes st)
    (hno : ∀ e ∈ s.entries, take e.1 = false) :
    Settles take dst s q st s q := by
  have hnil : taken take s.entries = [] := by
    rw [taken, filter_eq_nil_iff]
    intro e he
    simp [hno e he]
  have hall : taken (fun t => !take t) s.entries = s.entries := by
    rw [taken, filter_eq_self]
    intro e he
    simp [hno e he]
  refine ⟨?_, rfl, hall.symm, rfl, ⟨rfl, rfl, rfl⟩, hs, fun h _ => h⟩
  rw [hnil, map_nil, setAll_nil]
  exact hq

/-- Two settlements in a row. -/
theorem Settles.trans (h : Settles take dst s q st s' q')
    (h' : Settles take' dst s' q' (setAll st ((taken take s.entries).map Prod.snd) dst) s'' q'') :
    Settles (fun t => take t || take' t) dst s q st s'' q'' where
  denotes := by
    have hd := h'.denotes
    rw [h.entries, setAll_append, ← setAll_congr (fun x => mem_taken_or)] at hd
    exact hd
  nextSeq := h'.nextSeq.trans h.nextSeq
  entries := by
    rw [h'.entries, h.entries, taken_taken]
    exact filter_congr fun e _ => by simp
  nextTag := h'.nextTag.trans h.nextTag
  frame := ⟨h'.frame.1.trans h.frame.1, h'.frame.2.1.trans h.frame.2.1,
    h'.frame.2.2.trans h.frame.2.2⟩
  ok := h'.ok
  exact := by
    intro hexact hlt
    refine h'.exact (h.exact hexact hlt) (lt_of_le_of_lt ?_ hlt)
    rw [h.entries]
    exact length_filter_le _ _

theorem Settles.congr (h : Settles take dst s q st s' q') (ht : ∀ t, take' t = take t) :
    Settles take' dst s q st s' q' := by
  rw [funext ht]
  exact h

end

end Aurum.Consumer
