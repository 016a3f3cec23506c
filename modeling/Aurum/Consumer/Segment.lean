import Aurum.Queue.Basic

/-!
# Consumer — delivered segments

`aurum-core::consumer::segment`: what a session remembers of one
delivery. A range segment is an interval of tags over an interval of
messages. A mask segment covers one word of one block: rank `r` (tag
`first_tag + r`) is the `r`-th set bit of `original_mask`, and
`remaining_rank_mask` has the ranks that are not settled.

`entries` is the meaning of a segment: the list of its outstanding
`(tag, seq)` pairs. The rank loops of the source are described by the
list `positions original_mask`: rank is index, so selecting by rank is
list indexing.

`HAS_HOLES` is never set, so the segment flags are one `redelivered` bit.
-/

namespace Aurum.Consumer

open Aurum.Bits Aurum.Kernels List List.Pairwise

structure RangeSegment where
  firstTag : Nat
  startSeq : Nat
  len : Nat
  redelivered : Bool
deriving DecidableEq, Repr

namespace RangeSegment

variable (r : RangeSegment)

def lastTag : Nat := r.firstTag + r.len - 1

def containsTag (tag : Nat) : Bool :=
  decide (r.firstTag ≤ tag) && decide (tag < r.firstTag + r.len)

def seqOf (tag : Nat) : Nat := r.startSeq + (tag - r.firstTag)

/-- The outstanding `(tag, seq)` pairs. -/
def entries : List (Nat × Nat) :=
  (List.range r.len).map fun i => (r.firstTag + i, r.startSeq + i)

end RangeSegment

structure MaskSegment where
  firstTag : Nat
  block : Nat
  word : Nat
  originalMask : Word
  remainingRankMask : Word
  redelivered : Bool
deriving DecidableEq, Repr

namespace MaskSegment

def new (firstTag block word : Nat) (originalMask : Word) (redelivered : Bool) : MaskSegment :=
  let count := countOnes originalMask
  let remainingRankMask := if count = 64 then BitVec.allOnes 64 else (1#64 <<< count) - 1#64
  { firstTag, block, word, originalMask, remainingRankMask, redelivered }

def originalCount (m : MaskSegment) : Nat := countOnes m.originalMask

def remainingCount (m : MaskSegment) : Nat := countOnes m.remainingRankMask

def lastTag (m : MaskSegment) : Nat := m.firstTag + m.originalCount - 1

/-- `contains_tag`: the tag's rank is not settled yet. -/
def containsTag (m : MaskSegment) (tag : Nat) : Bool :=
  if tag < m.firstTag then false
  else
    let rank := tag - m.firstTag
    decide (rank < m.originalCount) && (m.remainingRankMask &&& (1#64 <<< rank) != 0#64)

/-- The outstanding `(tag, seq)` pairs, by rank. -/
def entries (m : MaskSegment) : List (Nat × Nat) :=
  ((positions m.originalMask).zipIdx.filter fun p => m.remainingRankMask.getLsbD p.2).map
    fun p => (m.firstTag + p.2, seqOfBit m.block m.word p.1)

end MaskSegment

inductive DeliveredSegment where
  | range (r : RangeSegment)
  | mask (m : MaskSegment)
deriving DecidableEq, Repr

namespace DeliveredSegment

def containsTag : DeliveredSegment → Nat → Bool
  | .range r, tag => r.containsTag tag
  | .mask m, tag => m.containsTag tag

def lastTag : DeliveredSegment → Nat
  | .range r => r.lastTag
  | .mask m => m.lastTag

def remainingCount : DeliveredSegment → Nat
  | .range r => r.len
  | .mask m => m.remainingCount

def firstTag : DeliveredSegment → Nat
  | .range r => r.firstTag
  | .mask m => m.firstTag

/-- The outstanding `(tag, seq)` pairs. -/
def entries : DeliveredSegment → List (Nat × Nat)
  | .range r => r.entries
  | .mask m => m.entries

/-- A segment a window may hold: a nonempty range, or a nonempty mask of
one of the first `W` words of a block. A block has four words; the window
itself works for any number. -/
def WellFormed (W : Nat) : DeliveredSegment → Prop
  | .range r => 0 < r.len
  | .mask m => m.originalMask ≠ 0#64 ∧ m.word < W

end DeliveredSegment

/-! ## The rank loops -/

/-- `bit_for_rank`: drop the lowest bit `rank` times, keep the next. -/
def bitForRank : Word → Nat → Word
  | om, 0 => 1#64 <<< trailingZeros om
  | om, rank + 1 => bitForRank (om &&& (om - 1#64)) rank

/-- The loop of `extract_bits_up_to_rank`. A word has at most 64 bits and
every iteration drops one, so 64 is enough fuel. -/
def extractUpToLoop (upToRank : Nat) : Nat → Word → Nat → Word → Word → Word × Word
  | 0, _, _, remaining, result => (result, remaining)
  | fuel + 1, om, rank, remaining, result =>
    if om ≠ 0#64 ∧ rank ≤ upToRank then
      let rankBit := 1#64 <<< rank
      if remaining &&& rankBit ≠ 0#64 then
        extractUpToLoop upToRank fuel (om &&& (om - 1#64)) (rank + 1) (remaining &&& ~~~rankBit)
          (result ||| (1#64 <<< trailingZeros om))
      else
        extractUpToLoop upToRank fuel (om &&& (om - 1#64)) (rank + 1) remaining result
    else (result, remaining)

/-- `extract_bits_up_to_rank`: the bits, and the new remaining ranks. -/
def extractBitsUpToRank (originalMask remaining : Word) (upToRank : Nat) : Word × Word :=
  extractUpToLoop upToRank 64 originalMask 0 remaining 0#64

/-- The loop of `extract_all_remaining_bits`. -/
def extractAllLoop (remaining : Word) : Nat → Word → Nat → Word → Word
  | 0, _, _, result => result
  | fuel + 1, om, rank, result =>
    if om ≠ 0#64 then
      extractAllLoop remaining fuel (om &&& (om - 1#64)) (rank + 1)
        (if remaining &&& (1#64 <<< rank) ≠ 0#64 then
          result ||| (1#64 <<< trailingZeros om) else result)
    else result

def extractAllRemainingBits (originalMask remaining : Word) : Word :=
  extractAllLoop remaining 64 originalMask 0 0#64

/-- **Select by rank.** -/
theorem bitForRank_eq : ∀ (rank : Nat) (om : Word) {p : Nat},
    (positions om)[rank]? = some p → bitForRank om rank = 1#64 <<< p := by
  intro rank
  induction rank with
  | zero =>
    intro om p hp
    rw [bitForRank, trailingZeros, head?_eq_getElem?, hp]
    rfl
  | succ rank ih =>
    intro om p hp
    rw [bitForRank]
    apply ih
    rw [positions_clearLowest, getElem?_tail]
    exact hp

/-- The set bits by rank: the lowest one, and those of the cleared word. -/
theorem exists_rank_iff (ok : Nat → Prop) {om : Word} (hz : om ≠ 0#64) {i rank : Nat} :
    (∃ k, (positions om)[k]? = some i ∧ ok (rank + k)) ↔
      (trailingZeros om = i ∧ ok rank) ∨
      ∃ k, (positions (om &&& (om - 1#64)))[k]? = some i ∧ ok (rank + 1 + k) := by
  rw [positions_eq_cons hz]
  constructor
  · rintro ⟨k, hk, hr⟩
    cases k with
    | zero => exact .inl ⟨by simpa using hk, hr⟩
    | succ k => exact .inr ⟨k, by simpa using hk, by
        rw [Nat.add_assoc, Nat.add_comm 1 k]; exact hr⟩
  · rintro (⟨rfl, hr⟩ | ⟨k, hk, hr⟩)
    · exact ⟨0, by simp, hr⟩
    · exact ⟨k + 1, by simpa using hk, by rw [← Nat.add_assoc, Nat.add_right_comm]; exact hr⟩

/-- What a round adds to the result. -/
theorem getLsbD_select {om : Word} (hz : om ≠ 0#64) (remaining result : Word) (rank i : Nat) :
    (if remaining &&& (1#64 <<< rank) ≠ 0#64 then result ||| (1#64 <<< trailingZeros om)
      else result).getLsbD i = true ↔
      result.getLsbD i = true ∨ trailingZeros om = i ∧ remaining.getLsbD rank = true := by
  have htz := trailingZeros_lt hz
  by_cases hbit : remaining.getLsbD rank = true
  · simp only [ne_eq, and_bit_eq_zero, hbit, Bool.true_eq_false, not_false_eq_true, if_true,
      BitVec.getLsbD_or, getLsbD_one_shiftLeft, Bool.or_eq_true, Bool.and_eq_true,
      decide_eq_true_eq, and_true]
    exact or_congr_right ⟨fun h => h.2.symm, fun h => ⟨by omega, h.symm⟩⟩
  · simp [and_bit_eq_zero, hbit]

/-- What a round settles. -/
theorem getLsbD_settle (remaining : Word) (rank j : Nat) :
    (if remaining &&& (1#64 <<< rank) ≠ 0#64 then remaining &&& ~~~(1#64 <<< rank)
      else remaining).getLsbD j = true ↔ remaining.getLsbD j = true ∧ j ≠ rank := by
  by_cases hbit : remaining.getLsbD rank = true
  · simp only [ne_eq, and_bit_eq_zero, hbit, Bool.true_eq_false, not_false_eq_true, if_true,
      getLsbD_clearBit, Bool.and_eq_true, decide_eq_true_eq]
  · simp only [ne_eq, and_bit_eq_zero, hbit, not_true_eq_false, if_false]
    exact ⟨fun h => ⟨h, fun hj => hbit (hj ▸ h)⟩, And.left⟩

/-- The loop over all ranks adds exactly the bits whose rank remains. -/
theorem getLsbD_extractAllLoop (remaining : Word) : ∀ (fuel : Nat) (om : Word) (rank : Nat)
    (result : Word), countOnes om ≤ fuel → ∀ i,
      ((extractAllLoop remaining fuel om rank result).getLsbD i = true ↔
        result.getLsbD i = true ∨
          ∃ k, (positions om)[k]? = some i ∧ remaining.getLsbD (rank + k) = true) := by
  intro fuel
  induction fuel with
  | zero =>
    intro om rank result hc i
    have hz : om = 0#64 := countOnes_eq_zero.mp (by omega)
    simp [extractAllLoop, hz]
  | succ fuel ih =>
    intro om rank result hc i
    rw [extractAllLoop]
    by_cases hz : om = 0#64
    · simp [hz]
    · have hcount := countOnes_clearLowest hz
      rw [if_pos hz, ih _ _ _ (by omega), getLsbD_select hz, or_assoc,
        exists_rank_iff (fun r => remaining.getLsbD r = true) hz]

theorem getLsbD_extractAllRemainingBits (om remaining : Word) (i : Nat) :
    (extractAllRemainingBits om remaining).getLsbD i = true ↔
      ∃ k, (positions om)[k]? = some i ∧ remaining.getLsbD k = true := by
  rw [extractAllRemainingBits, getLsbD_extractAllLoop remaining 64 om 0 0#64 (countOnes_le om)]
  simp

/-- The loop up to a rank: it adds the bits whose rank remains and is at
most `upToRank`, and settles those ranks. -/
theorem getLsbD_extractUpToLoop (upToRank : Nat) : ∀ (fuel : Nat) (om : Word) (rank : Nat)
    (remaining result : Word), countOnes om ≤ fuel →
      (∀ i, (extractUpToLoop upToRank fuel om rank remaining result).1.getLsbD i = true ↔
        result.getLsbD i = true ∨
          ∃ k, (positions om)[k]? = some i ∧
            (rank + k ≤ upToRank ∧ remaining.getLsbD (rank + k) = true)) ∧
      (∀ j, (extractUpToLoop upToRank fuel om rank remaining result).2.getLsbD j = true ↔
        remaining.getLsbD j = true ∧
          ¬ (rank ≤ j ∧ j ≤ upToRank ∧ j < rank + countOnes om)) := by
  -- where the loop stops
  have hdone : ∀ (om : Word) (rank : Nat) (remaining result : Word),
      om = 0#64 ∨ upToRank < rank →
      (∀ i, result.getLsbD i = true ↔ result.getLsbD i = true ∨
        ∃ k, (positions om)[k]? = some i ∧
          (rank + k ≤ upToRank ∧ remaining.getLsbD (rank + k) = true)) ∧
      ∀ j, remaining.getLsbD j = true ↔ remaining.getLsbD j = true ∧
        ¬ (rank ≤ j ∧ j ≤ upToRank ∧ j < rank + countOnes om) := by
    rintro om rank remaining result hstop
    refine ⟨fun i => ⟨.inl, ?_⟩, fun j => ⟨fun h => ⟨h, ?_⟩, And.left⟩⟩
    · rintro (h | ⟨k, hk, hle, -⟩)
      · exact h
      · rcases hstop with rfl | hlt
        · simp at hk
        · omega
    · rcases hstop with rfl | hlt
      · rw [countOnes_zero]
        omega
      · omega
  intro fuel
  induction fuel with
  | zero =>
    intro om rank remaining result hc
    exact hdone om rank remaining result (.inl (countOnes_eq_zero.mp (by omega)))
  | succ fuel ih =>
    intro om rank remaining result hc
    by_cases hgo : om ≠ 0#64 ∧ rank ≤ upToRank
    · obtain ⟨hz, hle⟩ := hgo
      have hcount := countOnes_clearLowest hz
      have hround : extractUpToLoop upToRank (fuel + 1) om rank remaining result =
          extractUpToLoop upToRank fuel (om &&& (om - 1#64)) (rank + 1)
            (if remaining &&& (1#64 <<< rank) ≠ 0#64 then remaining &&& ~~~(1#64 <<< rank)
              else remaining)
            (if remaining &&& (1#64 <<< rank) ≠ 0#64 then result ||| (1#64 <<< trailingZeros om)
              else result) := by
        rw [extractUpToLoop, if_pos ⟨hz, hle⟩]
        dsimp only
        split_ifs <;> rfl
      obtain ⟨h1, h2⟩ := ih (om &&& (om - 1#64)) (rank + 1) _ _ (by omega)
      rw [hround]
      refine ⟨fun i => ?_, fun j => ?_⟩
      · have hlater : ∀ k, rank + 1 + k ≠ rank := by omega
        rw [h1, getLsbD_select hz, or_assoc,
          exists_rank_iff (fun r => r ≤ upToRank ∧ remaining.getLsbD r = true) hz]
        simp only [getLsbD_settle, hlater, hle, ne_eq, not_false_eq_true, and_true, true_and]
      · rw [h2, getLsbD_settle, and_assoc]
        exact and_congr_right fun _ => by omega
    · rw [extractUpToLoop, if_neg hgo]
      refine hdone om rank remaining result ?_
      by_cases hz : om = 0#64
      · exact .inl hz
      · exact .inr (Nat.lt_of_not_le fun hle => hgo ⟨hz, hle⟩)

theorem extractBitsUpToRank_spec (om remaining : Word) (upToRank : Nat) :
    (∀ i, (extractBitsUpToRank om remaining upToRank).1.getLsbD i = true ↔
      ∃ k, (positions om)[k]? = some i ∧ (k ≤ upToRank ∧ remaining.getLsbD k = true)) ∧
    (∀ j, (extractBitsUpToRank om remaining upToRank).2.getLsbD j = true ↔
      remaining.getLsbD j = true ∧ ¬ (j ≤ upToRank ∧ j < countOnes om)) := by
  obtain ⟨h1, h2⟩ := getLsbD_extractUpToLoop upToRank 64 om 0 remaining 0#64 (countOnes_le om)
  refine ⟨fun i => ?_, fun j => ?_⟩
  · rw [extractBitsUpToRank, h1]
    simp
  · rw [extractBitsUpToRank, h2]
    simp

/-- The words of several extractions, one after the other, and the ranks
they leave. -/
def extractions (originalMask : Word) : Word → List Nat → List Word × Word
  | remaining, [] => ([], remaining)
  | remaining, upToRank :: rest =>
    let (bits, remaining) := extractBitsUpToRank originalMask remaining upToRank
    let (more, last) := extractions originalMask remaining rest
    (bits :: more, last)

/-- An extraction takes the lowest of the remaining bits. -/
theorem positions_extract (om remaining : Word) (upToRank : Nat) :
    positions (extractAllRemainingBits om remaining) =
      positions (extractBitsUpToRank om remaining upToRank).1 ++
        positions (extractAllRemainingBits om
          (extractBitsUpToRank om remaining upToRank).2) := by
  obtain ⟨hbits, hleft⟩ := extractBitsUpToRank_spec om remaining upToRank
  have hafter := getLsbD_extractAllRemainingBits om (extractBitsUpToRank om remaining upToRank).2
  refine positions_eq_of_sorted (pairwise_append.mpr
    ⟨positions_sorted _, positions_sorted _, fun i hi j hj => ?_⟩) fun i => ?_
  · -- a rank that is left is above every rank that was taken
    obtain ⟨k, hk, hle, -⟩ := (hbits i).mp (mem_positions.mp hi)
    obtain ⟨k', hk', hrem⟩ := (hafter j).mp (mem_positions.mp hj)
    obtain ⟨hlt, rfl⟩ := List.getElem?_eq_some_iff.mp hk
    obtain ⟨hlt', rfl⟩ := List.getElem?_eq_some_iff.mp hk'
    have hnot := ((hleft k').mp hrem).2
    rw [countOnes] at hnot
    exact pairwise_iff_getElem.mp (positions_sorted om) k k' hlt hlt' (by omega)
  · rw [getLsbD_extractAllRemainingBits, mem_append, mem_positions, mem_positions, hbits,
      hafter]
    constructor
    · rintro ⟨k, hk, hrem⟩
      by_cases hle : k ≤ upToRank
      · exact .inl ⟨k, hk, hle, hrem⟩
      · exact .inr ⟨k, hk, (hleft k).mpr ⟨hrem, fun h => hle h.1⟩⟩
    · rintro (⟨k, hk, -, hrem⟩ | ⟨k, hk, hrem⟩)
      · exact ⟨k, hk, hrem⟩
      · exact ⟨k, hk, ((hleft k).mp hrem).1⟩

theorem positions_extractions (om : Word) (upToRanks : List Nat) (remaining : Word) :
    positions (extractAllRemainingBits om remaining) =
      (extractions om remaining upToRanks).1.flatMap positions ++
        positions (extractAllRemainingBits om (extractions om remaining upToRanks).2) := by
  induction upToRanks generalizing remaining with
  | nil => rfl
  | cons upToRank rest ih =>
    rw [positions_extract om remaining upToRank, ih, ← List.append_assoc]
    rfl

/-- **Ranks select bits.** The bit of a rank, the bits of the remaining
ranks, and the bits of the remaining ranks up to one, which are settled by
it; several extractions cut the remaining bits into ascending pieces. -/
theorem ranks_select_bits (mask remaining : Word)
    (hranks : ∀ r, remaining.getLsbD r = true → r < countOnes mask) :
    (∀ r, r < countOnes mask → ∃ p, (positions mask)[r]? = some p ∧
      bitForRank mask r = 1#64 <<< p) ∧
    (∀ i, (extractAllRemainingBits mask remaining).getLsbD i = true ↔
      ∃ r, remaining.getLsbD r = true ∧ (positions mask)[r]? = some i) ∧
    (∀ upTo, let out := extractBitsUpToRank mask remaining upTo
      (∀ i, out.1.getLsbD i = true ↔
        ∃ r ≤ upTo, remaining.getLsbD r = true ∧ (positions mask)[r]? = some i) ∧
      ∀ r, out.2.getLsbD r = true ↔ remaining.getLsbD r = true ∧ upTo < r) ∧
    ∀ upToRanks, let out := extractions mask remaining upToRanks
      positions (extractAllRemainingBits mask remaining) =
        out.1.flatMap positions ++ positions (extractAllRemainingBits mask out.2) := by
  refine ⟨fun r hr => ?_, fun i => ?_, fun upTo => ⟨fun i => ?_, fun r => ?_⟩,
    fun upToRanks => positions_extractions mask upToRanks remaining⟩
  · have hget : (positions mask)[r]? = some (positions mask)[r] := getElem?_eq_getElem hr
    exact ⟨_, hget, bitForRank_eq r mask hget⟩
  · rw [getLsbD_extractAllRemainingBits]
    exact exists_congr fun r => and_comm
  · rw [(extractBitsUpToRank_spec mask remaining upTo).1]
    exact exists_congr fun r => ⟨fun ⟨hp, hle, hrem⟩ => ⟨hle, hrem, hp⟩,
      fun ⟨hle, hrem, hp⟩ => ⟨hp, hle, hrem⟩⟩
  · rw [(extractBitsUpToRank_spec mask remaining upTo).2]
    refine and_congr_right fun hrem => ?_
    have hlt := hranks r hrem
    omega

/-- The ranks 0, 2 and 3 of the bits 1, 4, 6 and 63, up to rank 1 and
then up to rank 3. -/
theorem ranks_select_bits_in_two : let mask := 0x8000000000000052#64
    extractions mask 0b1101#64 [1, 3] = ([0x2#64, 0x8000000000000040#64], 0#64) ∧
      positions (extractAllRemainingBits mask 0b1101#64) =
        (extractions mask 0b1101#64 [1, 3]).1.flatMap positions ++
          positions (extractAllRemainingBits mask (extractions mask 0b1101#64 [1, 3]).2) := by
  refine ⟨by decide +kernel, (ranks_select_bits _ _ fun r hr => ?_).2.2.2 [1, 3]⟩
  have hpos : positions 0b1101#64 = [0, 2, 3] := by decide +kernel
  have hcount : countOnes 0x8000000000000052#64 = 4 := by decide +kernel
  have hin := mem_positions.mpr hr
  rw [hpos] at hin
  simp at hin
  omega

/-! ## Entries -/

namespace RangeSegment

open RangeSegment

theorem mem_entries {r : RangeSegment} {t s : Nat} : (t, s) ∈ r.entries ↔
      r.firstTag ≤ t ∧ t < r.firstTag + r.len ∧ s = r.startSeq + (t - r.firstTag) := by
  simp only [entries, mem_map, mem_range, Prod.mk.injEq]
  constructor
  · rintro ⟨i, hi, rfl, rfl⟩
    omega
  · rintro ⟨h1, h2, rfl⟩
    exact ⟨t - r.firstTag, by omega, by omega, rfl⟩

@[simp] theorem length_entries (r : RangeSegment) : r.entries.length = r.len := by
  simp [entries]

theorem map_snd_entries (r : RangeSegment) :
    r.entries.map Prod.snd = (DeliveryRange.mk r.startSeq r.len).seqs := by
  simp only [entries, map_map, DeliveryRange.seqs, range'_eq_map_range]
  rfl

/-- A range is the entries of its two parts. -/
theorem entries_append (t s n k : Nat) (fl : Bool) : (mk t s (n + k) fl).entries =
      (mk t s n fl).entries ++ (mk (t + n) (s + n) k fl).entries := by
  simp only [entries, range_add, map_append, map_map]
  congr 1
  apply map_congr_left
  intro i _
  simp [Nat.add_assoc]

theorem entries_one (t s : Nat) (fl : Bool) : (mk t s 1 fl).entries = [(t, s)] := by
  simp [entries]

end RangeSegment

namespace MaskSegment

theorem mem_entries {m : MaskSegment} {t s : Nat} :
    (t, s) ∈ m.entries ↔ ∃ k p, (positions m.originalMask)[k]? = some p ∧
      m.remainingRankMask.getLsbD k = true ∧ t = m.firstTag + k ∧
      s = seqOfBit m.block m.word p := by
  simp only [entries, mem_map, mem_filter, Prod.exists, mem_zipIdx_iff_getElem?,
    Prod.mk.injEq]
  constructor
  · rintro ⟨p, k, ⟨hk, hr⟩, rfl, rfl⟩
    exact ⟨k, p, hk, hr, rfl, rfl⟩
  · rintro ⟨k, p, hk, hr, rfl, rfl⟩
    exact ⟨p, k, ⟨hk, hr⟩, rfl, rfl⟩

theorem entries_sorted (m : MaskSegment) : m.entries.Pairwise (·.1 < ·.1) := by
  rw [entries, pairwise_map]
  refine filter _ ?_
  have hidx : ((positions m.originalMask).zipIdx).Pairwise (·.2 < ·.2) := by
    rw [← pairwise_map, zipIdx_map_snd]
    simpa using pairwise_lt_range' (s := 0) (n := (positions m.originalMask).length)
  exact hidx.imp fun h => by omega

/-- Settling ranks filters the entries by tag. -/
theorem entries_filter {m : MaskSegment} (rem : Word) (keep : Nat → Bool)
    (h : ∀ k, k < m.originalCount →
      rem.getLsbD k = (m.remainingRankMask.getLsbD k && keep (m.firstTag + k))) :
    { m with remainingRankMask := rem }.entries = m.entries.filter fun e => keep e.1 := by
  simp only [entries, filter_map]
  congr 1
  rw [filter_filter]
  refine filter_congr fun p hp => ?_
  have hk := mem_zipIdx_iff_getElem?.mp hp
  have hlt : p.2 < m.originalCount := (List.getElem?_eq_some_iff.mp hk).1
  rw [h p.2 hlt, Function.comp, Bool.and_comm]

/-- The bits of the ranks selected by tag denote the selected entries. -/
theorem seqs_eq_entries {m : MaskSegment} (bits : Word) (take : Nat → Bool)
    (h : ∀ i, bits.getLsbD i = true ↔ ∃ k, (positions m.originalMask)[k]? = some i ∧
      m.remainingRankMask.getLsbD k = true ∧ take (m.firstTag + k) = true) :
    (DeliveryMask.mk m.block m.word bits).seqs =
      (m.entries.filter fun e => take e.1).map Prod.snd := by
  have hpos : positions bits = ((positions m.originalMask).zipIdx.filter fun p =>
      m.remainingRankMask.getLsbD p.2 && take (m.firstTag + p.2)).map Prod.fst := by
    refine positions_eq_of_sorted ?_ fun i => ?_
    · refine map _ (fun _ _ h => h) (filter _ ?_)
      rw [← pairwise_map (f := Prod.fst) (R := (· < ·)), zipIdx_map_fst]
      exact positions_sorted _
    · rw [h]
      simp only [mem_map, mem_filter, Prod.exists, mem_zipIdx_iff_getElem?,
        Bool.and_eq_true, exists_and_right, exists_eq_right]
  simp only [DeliveryMask.seqs, hpos, entries, filter_map, map_map, filter_filter]
  congr 1
  refine filter_congr fun p _ => ?_
  rw [Function.comp, Bool.and_comm]

theorem seqs_all {m : MaskSegment} : (DeliveryMask.mk m.block m.word
      (extractAllRemainingBits m.originalMask m.remainingRankMask)).seqs =
      m.entries.map Prod.snd := by
  rw [seqs_eq_entries _ fun _ => true]
  · simp
  · intro i
    rw [getLsbD_extractAllRemainingBits]
    simp

end MaskSegment

namespace DeliveredSegment

theorem entries_bounds {seg : DeliveredSegment} {e : Nat × Nat} (he : e ∈ seg.entries) :
    seg.firstTag ≤ e.1 ∧ e.1 ≤ seg.lastTag := by
  obtain ⟨t, s⟩ := e
  cases seg with
  | range r =>
    have h := RangeSegment.mem_entries.mp he
    simp only [firstTag, lastTag, RangeSegment.lastTag]
    omega
  | mask m =>
    obtain ⟨k, p, hk, _, rfl, _⟩ := MaskSegment.mem_entries.mp he
    have hlt : k < m.originalCount := (List.getElem?_eq_some_iff.mp hk).1
    simp only [firstTag, lastTag, MaskSegment.lastTag]
    omega

theorem firstTag_le_lastTag {W : Nat} {seg : DeliveredSegment} (h : seg.WellFormed W) :
    seg.firstTag ≤ seg.lastTag := by
  cases seg with
  | range r =>
    have hlen : 0 < r.len := h
    simp only [firstTag, lastTag, RangeSegment.lastTag]
    omega
  | mask m =>
    have hpos : 0 < m.originalCount := countOnes_pos.mpr h.1
    simp only [firstTag, lastTag, MaskSegment.lastTag]
    omega

theorem entries_sorted (seg : DeliveredSegment) : seg.entries.Pairwise (·.1 < ·.1) := by
  cases seg with
  | range r =>
    rw [entries, RangeSegment.entries, pairwise_map]
    exact pairwise_lt_range.imp fun h => by omega
  | mask m => exact m.entries_sorted

/-- A segment contains exactly the tags of its entries. -/
theorem containsTag_iff {seg : DeliveredSegment} {tag : Nat} :
    seg.containsTag tag = true ↔ ∃ s, (tag, s) ∈ seg.entries := by
  cases seg with
  | range r =>
    simp only [containsTag, RangeSegment.containsTag, Bool.and_eq_true, decide_eq_true_eq,
      entries, RangeSegment.mem_entries]
    constructor
    · exact fun h => ⟨_, h.1, h.2, rfl⟩
    · rintro ⟨s, h1, h2, _⟩
      exact ⟨h1, h2⟩
  | mask m =>
    simp only [containsTag, MaskSegment.containsTag, entries, MaskSegment.mem_entries]
    split
    · next hlt =>
        constructor
        · intro h
          cases h
        · rintro ⟨s, k, p, _, _, ht, _⟩
          omega
    · next hge =>
        rw [Bool.and_eq_true, decide_eq_true_eq, bne_iff_ne, ne_eq, and_bit_eq_zero,
          Bool.not_eq_false]
        constructor
        · rintro ⟨h1, h2⟩
          have hget : (positions m.originalMask)[tag - m.firstTag]? =
              some ((positions m.originalMask)[tag - m.firstTag]) :=
            getElem?_eq_getElem h1
          exact ⟨_, _, _, hget, h2, by omega, rfl⟩
        · rintro ⟨s, k, p, hk, hr, rfl, _⟩
          rw [Nat.add_sub_cancel_left]
          exact ⟨(List.getElem?_eq_some_iff.mp hk).1, hr⟩

end DeliveredSegment

end Aurum.Consumer
