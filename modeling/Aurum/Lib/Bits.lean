import Mathlib.Tactic.Ring
import Mathlib.Data.List.Sort
import Mathlib.Data.List.Perm.Basic
import Mathlib.Data.Vector.Defs

/-!
# Bits — words as sets of positions

A machine word read as the ascending list of the positions of its set
bits. Everything the word loops do (isolate the lowest bit, clear it,
count, select by rank) is a list operation on `positions`: clearing the
lowest bit is `tail`, the lowest position is `head?`, the population
count is `length`. The loops of a program over `x & (x - 1)` then
become structural inductions on a list.

Nothing here names a program; widths are arbitrary.
-/

namespace Aurum.Bits

open List hiding Vector

variable {w : Nat}

/-- The positions of the set bits of `m`, ascending. -/
def positions (m : BitVec w) : List Nat :=
  (List.range w).filter fun i => m.getLsbD i

/-- Number of set bits. -/
def countOnes (m : BitVec w) : Nat := (positions m).length

/-- Number of zero bits below the lowest set bit (`w` for the zero word). -/
def trailingZeros (m : BitVec w) : Nat := (positions m).head?.getD w

/-! ## Membership and order -/

variable {m : BitVec w} {i p : Nat}

@[simp] theorem mem_positions : i ∈ positions m ↔ m.getLsbD i = true := by
  simp only [positions, mem_filter, mem_range]
  exact ⟨fun h => h.2, fun h => ⟨BitVec.lt_of_getLsbD h, h⟩⟩

theorem positions_lt (h : i ∈ positions m) : i < w :=
  BitVec.lt_of_getLsbD (mem_positions.mp h)

theorem positions_sorted (m : BitVec w) : (positions m).Pairwise (· < ·) :=
  pairwise_lt_range.filter _

theorem positions_nodup (m : BitVec w) : (positions m).Nodup :=
  nodup_range.filter _

/-- A word is determined by any ascending list of its set bits. -/
theorem positions_eq_of_sorted {l : List Nat} (hs : l.Pairwise (· < ·))
    (h : ∀ i, m.getLsbD i = true ↔ i ∈ l) : positions m = l := by
  refine List.Perm.eq_of_pairwise' (r := (· < ·)) (positions_sorted m) hs ?_
  refine (perm_ext_iff_of_nodup (positions_nodup m) (hs.imp Nat.ne_of_lt)).mpr ?_
  intro i
  rw [mem_positions, h]

theorem ext_positions {n : BitVec w} (h : positions m = positions n) : m = n := by
  apply BitVec.eq_of_getLsbD_eq
  intro i _
  rw [Bool.eq_iff_iff, ← mem_positions, h, mem_positions]

@[simp] theorem positions_zero : positions (0#w) = [] := by
  simp [positions]

theorem positions_eq_nil : positions m = [] ↔ m = 0#w := by
  constructor
  · intro h
    exact ext_positions (by simpa using h)
  · rintro rfl
    simp

@[simp] theorem countOnes_zero : countOnes (0#w) = 0 := by simp [countOnes]

theorem countOnes_eq_zero : countOnes m = 0 ↔ m = 0#w := by
  rw [countOnes, length_eq_zero_iff, positions_eq_nil]

theorem countOnes_pos : 0 < countOnes m ↔ m ≠ 0#w := by
  rw [Nat.pos_iff_ne_zero, Ne, countOnes_eq_zero]

theorem countOnes_le (m : BitVec w) : countOnes m ≤ w := by
  have := length_filter_le (fun i => m.getLsbD i) (List.range w)
  simpa [countOnes, positions] using this

/-! ## The lowest set bit -/

@[simp] theorem getLsbD_one_shiftLeft :
    ((1#w) <<< p).getLsbD i = (decide (i < w) && decide (i = p)) := by
  rw [BitVec.getLsbD_shiftLeft, BitVec.getLsbD_one]
  by_cases hi : i < w <;> by_cases hp : i = p <;> simp [hi, hp] <;> omega

theorem getLsbD_clearBit (m : BitVec w) (p i : Nat) :
    (m &&& ~~~(1#w <<< p)).getLsbD i = (m.getLsbD i && decide (i ≠ p)) := by
  rw [BitVec.getLsbD_and, BitVec.getLsbD_not, getLsbD_one_shiftLeft]
  by_cases hi : i < w
  · simp [hi]
  · simp [BitVec.getLsbD_of_ge m i (by omega)]

theorem positions_one_shiftLeft (hp : p < w) : positions (1#w <<< p) = [p] := by
  refine positions_eq_of_sorted (by simp) fun i => ?_
  rw [getLsbD_one_shiftLeft, Bool.and_eq_true, decide_eq_true_eq, decide_eq_true_eq,
    mem_singleton]
  constructor
  · exact fun h => h.2
  · rintro rfl
    exact ⟨hp, rfl⟩

theorem and_bit_eq_zero : m &&& (1#w <<< i) = 0#w ↔ m.getLsbD i = false := by
  constructor
  · intro h
    by_cases hi : i < w
    · have hbit := congrArg (BitVec.getLsbD · i) h
      simp only [BitVec.getLsbD_and, getLsbD_one_shiftLeft] at hbit
      simpa [hi] using hbit
    · exact BitVec.getLsbD_of_ge m i (by omega)
  · intro h
    apply BitVec.eq_of_getLsbD_eq
    intro j _
    rw [BitVec.getLsbD_and, getLsbD_one_shiftLeft]
    by_cases hji : j = i
    · subst hji
      simp [h]
    · simp [hji]

theorem exists_lowest (h : m ≠ 0#w) :
    ∃ p ps, positions m = p :: ps ∧ (∀ q ∈ ps, p < q) ∧ m.getLsbD p = true := by
  cases hp : positions m with
  | nil => exact absurd (positions_eq_nil.mp hp) h
  | cons p ps =>
    have hs := positions_sorted m
    rw [hp, pairwise_cons] at hs
    exact ⟨p, ps, rfl, hs.1, mem_positions.mp (by simp [hp])⟩

/-- The bits of `m - 1`: those below the lowest set bit `p` flip on, `p`
flips off, the rest stay. -/
theorem getLsbD_sub_one (hp : m.getLsbD p = true) (hlow : ∀ i < p, m.getLsbD i = false) (i : Nat) :
    (m - 1#w).getLsbD i =
      (decide (i < w) && if i < p then true else if i = p then false else m.getLsbD i) := by
  have hw : p < w := BitVec.lt_of_getLsbD hp
  -- split the value at bit `p + 1`: the low part is exactly `2 ^ p`
  have hmod : m.toNat % 2 ^ (p + 1) = 2 ^ p := by
    apply Nat.eq_of_testBit_eq
    intro j
    rw [Nat.testBit_mod_two_pow, Nat.testBit_two_pow]
    rcases Nat.lt_trichotomy j p with hj | rfl | hj
    · have := hlow j hj
      rw [BitVec.getLsbD] at this
      simp [this, show ¬ p = j by omega]
    · rw [BitVec.getLsbD] at hp
      simp [hp]
    · simp [show ¬ j < p + 1 by omega, show ¬ p = j by omega]
  have hsplit : m.toNat = 2 ^ (p + 1) * (m.toNat / 2 ^ (p + 1)) + 2 ^ p := by
    have := Nat.div_add_mod m.toNat (2 ^ (p + 1))
    omega
  have hpos : 0 < 2 ^ p := Nat.two_pow_pos p
  have hsub : (m - 1#w).toNat = 2 ^ (p + 1) * (m.toNat / 2 ^ (p + 1)) + (2 ^ p - 1) := by
    have h1 : (1#w).toNat = 1 := by
      rw [BitVec.toNat_ofNat]
      exact Nat.mod_eq_of_lt (Nat.one_lt_two_pow (by omega))
    rw [BitVec.toNat_sub_of_le (by rw [BitVec.le_def, h1]; omega), h1]
    omega
  have hlt : 2 ^ p - 1 < 2 ^ (p + 1) := by
    have : 2 ^ p < 2 ^ (p + 1) := Nat.pow_lt_pow_right (by decide) (by omega)
    omega
  by_cases hi : i < w
  · rw [BitVec.getLsbD, hsub, Nat.testBit_two_pow_mul_add _ hlt]
    rcases Nat.lt_trichotomy i p with hip | rfl | hip
    · rw [if_pos (by omega), Nat.testBit_two_pow_sub_one]
      simp [hi, hip]
    · rw [if_pos (by omega), Nat.testBit_two_pow_sub_one]
      simp
    · rw [if_neg (by omega), Nat.testBit_div_two_pow]
      simp [hi, show ¬ i < p by omega, show i ≠ p by omega, BitVec.getLsbD,
        show i - (p + 1) + (p + 1) = i by omega]
  · rw [BitVec.getLsbD_of_ge _ _ (by omega)]
    simp [hi]

/-- `m & (m - 1)` drops the lowest position. -/
theorem positions_clearLowest (m : BitVec w) :
    positions (m &&& (m - 1#w)) = (positions m).tail := by
  by_cases h : m = 0#w
  · subst h
    simp
  · obtain ⟨p, ps, hpos, hlt, hp⟩ := exists_lowest h
    have hmem : ∀ i, m.getLsbD i = true ↔ i = p ∨ i ∈ ps := by
      intro i
      rw [← mem_positions, hpos, mem_cons]
    have hlow : ∀ i < p, m.getLsbD i = false := by
      intro i hi
      rw [← Bool.not_eq_true, hmem]
      rintro (rfl | hps)
      · omega
      · have := hlt i hps
        omega
    rw [hpos, tail_cons]
    have hs := positions_sorted m
    rw [hpos, pairwise_cons] at hs
    refine positions_eq_of_sorted hs.2 fun i => ?_
    rw [BitVec.getLsbD_and, getLsbD_sub_one hp hlow]
    rcases Nat.lt_trichotomy i p with hip | rfl | hip
    · simp [hlow i hip]
      intro hps
      have := hlt i hps
      omega
    · simp
      intro hps
      exact Nat.lt_irrefl _ (hlt i hps)
    · have hi : m.getLsbD i = true ↔ i ∈ ps := by
        rw [hmem]
        constructor
        · rintro (rfl | h)
          · omega
          · exact h
        · exact Or.inr
      rw [← hi]
      simp only [show ¬ i < p by omega, show i ≠ p by omega, if_false,
        Bool.and_eq_true, decide_eq_true_eq]
      exact ⟨fun h => h.1, fun h => ⟨h, BitVec.lt_of_getLsbD h, h⟩⟩

theorem countOnes_clearLowest (h : m ≠ 0#w) : countOnes (m &&& (m - 1#w)) + 1 = countOnes m := by
  have := countOnes_pos.mpr h
  rw [countOnes, positions_clearLowest, length_tail, ← countOnes]
  omega

theorem positions_eq_cons (h : m ≠ 0#w) :
    positions m = trailingZeros m :: positions (m &&& (m - 1#w)) := by
  rw [positions_clearLowest]
  cases hp : positions m with
  | nil => exact absurd (positions_eq_nil.mp hp) h
  | cons p ps => simp [trailingZeros, hp]

theorem trailingZeros_lt (h : m ≠ 0#w) : trailingZeros m < w :=
  positions_lt (m := m) (by rw [positions_eq_cons h]; simp)

/-- The set bits above the lowest one, by shifting it out. -/
theorem positions_shiftOut (h : m ≠ 0#w) : positions m = trailingZeros m ::
      (positions ((m >>> trailingZeros m) >>> 1)).map (trailingZeros m + 1 + ·) := by
  have hcons := positions_eq_cons h
  have hsorted := positions_sorted m
  rw [hcons, pairwise_cons] at hsorted
  refine positions_eq_of_sorted ?_ fun i => ?_
  · refine pairwise_cons.mpr ⟨fun j hj => ?_, ?_⟩
    · obtain ⟨k, -, rfl⟩ := mem_map.mp hj
      omega
    · exact (positions_sorted _).map _ fun a b hab => Nat.add_lt_add_left hab _
  · rw [← mem_positions, mem_cons, mem_map]
    constructor
    · intro hi
      rw [hcons, mem_cons] at hi
      rcases hi with rfl | hi
      · exact .inl rfl
      · have hlt := hsorted.1 i hi
        refine .inr ⟨i - (trailingZeros m + 1), ?_, by omega⟩
        have hbit : m.getLsbD i = true := by
          rw [← mem_positions, hcons]
          exact mem_cons_of_mem _ hi
        rw [mem_positions, BitVec.getLsbD_ushiftRight, BitVec.getLsbD_ushiftRight, ← hbit]
        congr 1
        omega
    · rintro (rfl | ⟨j, hj, rfl⟩)
      · rw [hcons]
        exact mem_cons_self
      · rw [mem_positions, BitVec.getLsbD_ushiftRight, BitVec.getLsbD_ushiftRight] at hj
        rw [mem_positions, ← hj]
        congr 1
        omega

/-- Clearing the lowest `k` set bits leaves the others. -/
theorem positions_clearTaken {t : BitVec w} {k : Nat} (h : positions t = (positions m).take k) :
    positions (m &&& ~~~t) = (positions m).drop k := by
  have hnodup := positions_nodup m
  rw [← take_append_drop k (positions m), nodup_append] at hnodup
  refine positions_eq_of_sorted ((positions_sorted m).sublist (drop_sublist k _)) fun i => ?_
  have hm : m.getLsbD i = true ↔ i ∈ (positions m).take k ∨ i ∈ (positions m).drop k := by
    rw [← mem_positions, ← mem_append, take_append_drop]
  have ht : t.getLsbD i = true ↔ i ∈ (positions m).take k := by rw [← mem_positions, h]
  rw [BitVec.getLsbD_and, BitVec.getLsbD_not, Bool.and_eq_true, Bool.and_eq_true,
    decide_eq_true_eq, Bool.not_eq_true', ← Bool.not_eq_true, ht, hm]
  constructor
  · rintro ⟨hin | hin, -, hno⟩
    · exact absurd hin hno
    · exact hin
  · intro hin
    exact ⟨.inr hin, positions_lt (mem_of_mem_drop hin), fun htake =>
      hnodup.2.2 i htake i hin rfl⟩

/-! ## Word arrays as flat bit arrays -/

section WordArray

variable {n : Nat} (ws : Vector (BitVec 64) n)

/-- Word `i` of the array (zero past the end). -/
def word (ws : Vector (BitVec w) n) (i : Nat) : BitVec w := ws[i]?.getD 0#w

/-- Replace word `i` by `f` of it; past the end nothing changes. -/
def updateWord (ws : Vector (BitVec w) n) (i : Nat) (f : BitVec w → BitVec w) :
    Vector (BitVec w) n :=
  ws.setIfInBounds i (f (word ws i))

/-- Bit `i` of the array read as one long bit string. -/
def bitAt (i : Nat) : Bool :=
  (word ws (i / 64)).getLsbD (i % 64)

theorem word_of_ge {ws : Vector (BitVec w) n} (h : n ≤ i) : word ws i = 0#w := by
  simp [word, Vector.getElem?_eq_none h]

theorem word_updateWord (ws : Vector (BitVec w) n) (i j : Nat) (f : BitVec w → BitVec w) :
    word (updateWord ws i f) j = if i = j ∧ i < n then f (word ws i) else word ws j := by
  unfold word updateWord
  rw [Vector.getElem?_setIfInBounds]
  by_cases hij : i = j
  · subst hij
    by_cases hi : i < n <;> simp [hi, word]
  · simp [hij]

theorem updateWord_of_lt {ws : Vector (BitVec w) n} (h : i < n) (f : BitVec w → BitVec w) :
    updateWord ws i f = ws.set i (f ws[i]) := by
  apply Vector.ext
  intro j hj
  simp [updateWord, word, h, Vector.getElem_setIfInBounds, Vector.getElem_set]

@[simp] theorem word_replicate_zero (i : Nat) : word (Vector.replicate n (0#w)) i = 0#w := by
  by_cases h : i < n <;> simp [word, h]

@[simp] theorem bitAt_replicate_zero (i : Nat) : bitAt (Vector.replicate n (0#64)) i = false := by
  simp [bitAt]

theorem ext_word {ws vs : Vector (BitVec w) n} (h : ∀ i < n, word ws i = word vs i) : ws = vs := by
  apply Vector.ext
  intro i hi
  have := h i hi
  simpa [word, hi] using this

/-- One word update, seen bit by bit. -/
theorem bitAt_updateWord (wi i : Nat) (f : BitVec 64 → BitVec 64) : bitAt (updateWord ws wi f) i =
      if wi = i / 64 ∧ wi < n then (f (word ws wi)).getLsbD (i % 64) else bitAt ws i := by
  rw [bitAt, word_updateWord]
  split <;> rfl

/-- A word is nonzero when one of its bits is set. -/
theorem word_ne_zero {ws : Vector (BitVec 64) n} {wi : Nat} :
    word ws wi ≠ 0#64 ↔ ∃ i, i / 64 = wi ∧ bitAt ws i = true := by
  constructor
  · intro h
    obtain ⟨p, _, _, _, hp⟩ := exists_lowest h
    have hlt : p < 64 := BitVec.lt_of_getLsbD hp
    refine ⟨64 * wi + p, by omega, ?_⟩
    rw [bitAt, show (64 * wi + p) / 64 = wi by omega, show (64 * wi + p) % 64 = p by omega]
    exact hp
  · rintro ⟨i, rfl, hi⟩ h0
    rw [bitAt, h0] at hi
    simp at hi

theorem bitAt_of_ge {ws : Vector (BitVec 64) n} (h : 64 * n ≤ i) : bitAt ws i = false := by
  rw [bitAt, word_of_ge (by omega)]
  simp

/-- Counting the bits of an array is summing the counts of its words. -/
theorem countP_bitAt (k : Nat) : (List.range (64 * k)).countP (bitAt ws) =
      ((List.range k).map fun i => countOnes (word ws i)).sum := by
  induction k with
  | zero => rfl
  | succ k ih =>
    have hsplit : List.range (64 * (k + 1)) =
        List.range (64 * k) ++ (List.range 64).map (64 * k + ·) := by
      rw [Nat.mul_succ, range_add]
    have hword : (List.range 64).countP (bitAt ws ∘ (64 * k + ·)) =
        countOnes (word ws k) := by
      rw [countOnes, positions, ← countP_eq_length_filter]
      refine countP_congr fun i hi => ?_
      have hlt : i < 64 := mem_range.mp hi
      rw [Function.comp, bitAt, show (64 * k + i) / 64 = k by omega,
        show (64 * k + i) % 64 = i by omega]
    rw [hsplit, countP_append, ih, countP_map, hword, range_succ]
    simp

end WordArray

end Aurum.Bits
