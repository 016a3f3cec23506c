import Aurum.Lib.Bits

/-!
# Kernels — the scalar bit kernels

`aurum-kernels`: `low_mask`, `set_range`, `clear_range` over word
slices, and `take_lowest_bits`. The two range kernels run the same
`while idx < end` loop and differ in what they do with the mask, so the
loop is one definition (`rangeLoop`) and its meaning one theorem
(`bitAt_rangeLoop`). Each iteration consumes at least one bit, so the
length of the range is enough fuel.

Words are `BitVec 64`. The machine indices (`usize`) are `Nat`.
-/

namespace Aurum

open Aurum.Bits
open List hiding Vector

/-- `u64` words of the bitsets. -/
abbrev Word := BitVec 64

namespace Kernels

open BitVec

/-- `low_mask`: the lowest `bits` bits set, saturating at a full word. -/
def lowMask (bits : Nat) : Word :=
  if bits = 0 then 0#64
  else if 64 ≤ bits then allOnes 64
  else (1#64 <<< bits) - 1#64

/-- The loop of `set_range` and `clear_range` from bit `idx` up to
`stop`; `upd` combines a word with the mask of the bits it covers. -/
def rangeLoop {n : Nat} (upd : Word → Word → Word) (stop : Nat) :
    Nat → Nat → Vector Word n → Vector Word n
  | 0, _, words => words
  | fuel + 1, idx, words =>
    if idx < stop then
      let wordIdx := idx / 64
      let bit := idx % 64
      let take := min (64 - bit) (stop - idx)
      let mask := lowMask take <<< bit
      rangeLoop upd stop fuel (idx + take) (updateWord words wordIdx (upd · mask))
    else words

def setRange {n : Nat} (words : Vector Word n) (startBit len : Nat) : Vector Word n :=
  if len = 0 then words
  else rangeLoop (fun w m => w ||| m) (startBit + len) len startBit words

def clearRange {n : Nat} (words : Vector Word n) (startBit len : Nat) : Vector Word n :=
  if len = 0 then words
  else rangeLoop (fun w m => w &&& ~~~m) (startBit + len) len startBit words

/-- The loop with the indexing of the slice; `none` is its panic. -/
def rangeLoop? {n : Nat} (upd : Word → Word → Word) (stop : Nat) :
    Nat → Nat → Vector Word n → Option (Vector Word n)
  | 0, _, words => some words
  | fuel + 1, idx, words =>
    if idx < stop then
      let wordIdx := idx / 64
      let bit := idx % 64
      let take := min (64 - bit) (stop - idx)
      let mask := lowMask take <<< bit
      if h : wordIdx < n then
        rangeLoop? upd stop fuel (idx + take) (words.set wordIdx (upd words[wordIdx] mask))
      else none
    else some words

/-- `set_range`, as it accesses the slice. -/
def setRange? {n : Nat} (words : Vector Word n) (startBit len : Nat) : Option (Vector Word n) :=
  if len = 0 then some words
  else rangeLoop? (fun w m => w ||| m) (startBit + len) len startBit words

/-- `clear_range`, as it accesses the slice. -/
def clearRange? {n : Nat} (words : Vector Word n) (startBit len : Nat) : Option (Vector Word n) :=
  if len = 0 then some words
  else rangeLoop? (fun w m => w &&& ~~~m) (startBit + len) len startBit words

/-- The `while remaining != 0` loop of the lowest-bit selections: move
the lowest bit of `src` into `mask`, `remaining` times. -/
def takeLowestLoop : Nat → Word → Word → Word
  | 0, _, mask => mask
  | remaining + 1, src, mask =>
    takeLowestLoop remaining (src &&& (src - 1#64))
      (mask ||| (1#64 <<< trailingZeros src))

/-- `take_lowest_bits`: the selected bits, and what is left of the word. -/
def takeLowestBits (word : Word) (max : Nat) : Word × Word :=
  if word = 0#64 ∨ max = 0 then (0#64, word)
  else
    let available := countOnes word
    let take := min available max
    if take = available then (word, 0#64)
    else
      let mask := takeLowestLoop take word 0#64
      (mask, word &&& ~~~mask)

/-! ## Masks -/

theorem getLsbD_lowMask {bits i : Nat} (hi : i < 64) :
    (lowMask bits).getLsbD i = decide (i < bits) := by
  unfold lowMask
  split
  · simp [*]
  · split
    · rw [getLsbD_allOnes, decide_eq_true hi, decide_eq_true (by omega)]
    · rename_i h0 h64
      have hp : ((1#64) <<< bits).getLsbD bits = true := by
        rw [getLsbD_one_shiftLeft]
        simp
        omega
      have hlow : ∀ j < bits, ((1#64) <<< bits).getLsbD j = false := by
        intro j hj
        rw [getLsbD_one_shiftLeft]
        simp
        omega
      rw [getLsbD_sub_one hp hlow, getLsbD_one_shiftLeft]
      by_cases h : i < bits
      · simp [h, hi]
      · by_cases he : i = bits <;> simp [h, he]

/-- The mask one loop iteration builds covers `[bit, bit + take)`. -/
theorem getLsbD_rangeMask {bit take i : Nat} (h : bit + take ≤ 64) (hi : i < 64) :
    (lowMask take <<< bit).getLsbD i = decide (bit ≤ i ∧ i < bit + take) := by
  rw [getLsbD_shiftLeft]
  by_cases hb : i < bit
  · simp [hb, show ¬ bit ≤ i by omega]
  · rw [getLsbD_lowMask (by omega)]
    simp [hi, show bit ≤ i by omega, show i - bit < take ↔ i < bit + take by omega]

/-! ## The range loop -/

variable {n startBit : Nat} {upd : Word → Word → Word} {f : Bool → Bool → Bool}

/-- One iteration applies `f · true` exactly on `[idx, idx + take)`. -/
theorem bitAt_rangeStep
    (hupd : ∀ w m i, i < 64 → (upd w m).getLsbD i = f (w.getLsbD i) (m.getLsbD i))
    (hid : ∀ b, f b false = b) {idx take : Nat} (htake : idx % 64 + take ≤ 64)
    (hin : idx / 64 < n) (words : Vector Word n) (i : Nat) :
    bitAt (updateWord words (idx / 64) (upd · (lowMask take <<< (idx % 64)))) i =
      if idx ≤ i ∧ i < idx + take then f (bitAt words i) true else bitAt words i := by
  have hmod : i % 64 < 64 := Nat.mod_lt _ (by decide)
  rw [bitAt_updateWord]
  by_cases hsame : idx / 64 = i / 64
  · -- the bit lies in the word this iteration writes
    have hbit : (word words (idx / 64)).getLsbD (i % 64) = bitAt words i := by
      rw [hsame]
      rfl
    rw [if_pos ⟨hsame, hin⟩, hupd _ _ _ hmod, getLsbD_rangeMask htake hmod, hbit]
    by_cases hcov : idx % 64 ≤ i % 64 ∧ i % 64 < idx % 64 + take
    · rw [decide_eq_true hcov, if_pos (by omega)]
    · rw [decide_eq_false hcov, hid, if_neg (by omega)]
  · rw [if_neg (fun h => hsame h.1), if_neg (by omega)]

/-- **One loop, bit by bit**: with `upd` acting as `f` on each bit and
leaving bits outside the mask alone, the loop applies `f · true` exactly
on `[idx, stop)`. -/
theorem bitAt_rangeLoop
    (hupd : ∀ w m i, i < 64 → (upd w m).getLsbD i = f (w.getLsbD i) (m.getLsbD i))
    (hid : ∀ b, f b false = b) {stop : Nat} (hstop : stop ≤ 64 * n) :
    ∀ (fuel idx : Nat) (words : Vector Word n), stop ≤ idx + fuel → ∀ i,
      bitAt (rangeLoop upd stop fuel idx words) i =
        if idx ≤ i ∧ i < stop then f (bitAt words i) true else bitAt words i := by
  intro fuel
  induction fuel with
  | zero =>
    intro idx words hf i
    rw [rangeLoop, if_neg (by omega)]
  | succ fuel ih =>
    intro idx words hf i
    rw [rangeLoop]
    by_cases hlt : idx < stop
    · rw [if_pos hlt]
      have hb : idx % 64 < 64 := Nat.mod_lt _ (by decide)
      have htake : idx % 64 + min (64 - idx % 64) (stop - idx) ≤ 64 := by omega
      rw [ih _ _ (by omega), bitAt_rangeStep hupd hid htake (by omega)]
      by_cases hcov : idx ≤ i ∧ i < stop
      · -- covered by this iteration or by the rest of the loop, never by both
        rw [if_pos hcov]
        by_cases hhere : i < idx + min (64 - idx % 64) (stop - idx)
        · rw [if_neg (by omega), if_pos ⟨hcov.1, hhere⟩]
        · rw [if_pos ⟨by omega, hcov.2⟩, if_neg (fun h => hhere h.2)]
      · rw [if_neg hcov, if_neg (by omega), if_neg (by omega)]
    · rw [if_neg hlt, if_neg (by omega)]

theorem bitAt_setRange (words : Vector Word n) {len : Nat} (h : startBit + len ≤ 64 * n) (i : Nat) :
    bitAt (setRange words startBit len) i =
      (bitAt words i || decide (startBit ≤ i ∧ i < startBit + len)) := by
  unfold setRange
  split
  · simp
    omega
  · rw [bitAt_rangeLoop (f := (· || ·)) (by simp) (by simp) h _ _ _ (by omega)]
    split <;> simp [*]

theorem bitAt_clearRange (words : Vector Word n) {len : Nat} (h : startBit + len ≤ 64 * n)
    (i : Nat) :
    bitAt (clearRange words startBit len) i =
      (bitAt words i && !decide (startBit ≤ i ∧ i < startBit + len)) := by
  unfold clearRange
  split
  · simp
    omega
  · rw [bitAt_rangeLoop (f := fun b m => b && !m)
      (by intro w m i hi; simp [hi]) (by simp) h _ _ _ (by omega)]
    split <;> simp [*]

/-- Up to the end of the array every access is in bounds. -/
theorem rangeLoop?_eq {stop : Nat} (hstop : stop ≤ 64 * n) :
    ∀ (fuel idx : Nat) (words : Vector Word n),
      rangeLoop? upd stop fuel idx words = some (rangeLoop upd stop fuel idx words) := by
  intro fuel
  induction fuel with
  | zero => exact fun _ _ => rfl
  | succ fuel ih =>
    intro idx words
    rw [rangeLoop?, rangeLoop]
    split
    · next hlt =>
      have hin : idx / 64 < n := by omega
      dsimp only
      rw [dif_pos hin, ih, updateWord_of_lt hin]
    · rfl

/-- **The range kernels are exact**: they access no word out of bounds and
change the bits of the range, and no others. -/
theorem range_kernels_exact {n : Nat} (words : Vector Word n) {startBit len : Nat}
    (h : startBit + len ≤ 64 * n) :
    (∃ out, setRange? words startBit len = some out ∧ ∀ i, bitAt out i =
      if startBit ≤ i ∧ i < startBit + len then true else bitAt words i) ∧
    ∃ out, clearRange? words startBit len = some out ∧ ∀ i, bitAt out i =
      if startBit ≤ i ∧ i < startBit + len then false else bitAt words i := by
  refine ⟨⟨setRange words startBit len, ?_, fun i => ?_⟩,
    clearRange words startBit len, ?_, fun i => ?_⟩
  · rw [setRange?, setRange, rangeLoop?_eq h]
    split <;> rfl
  · rw [bitAt_setRange words h]
    split <;> simp [*]
  · rw [clearRange?, clearRange, rangeLoop?_eq h]
    split <;> rfl
  · rw [bitAt_clearRange words h]
    split <;> simp [*]

/-- Bits 60 to 69 of two words, the second of which is full. -/
theorem range_kernels_exact_across : let words : Vector Word 2 := #v[0#64, BitVec.allOnes 64]
    setRange? words 60 10 = some #v[0xF000000000000000#64, BitVec.allOnes 64] ∧
      ∃ out, clearRange? words 60 10 = some out ∧ ∀ i, bitAt out i =
        if 60 ≤ i ∧ i < 60 + 10 then false else bitAt words i :=
  ⟨by decide, (range_kernels_exact #v[0#64, BitVec.allOnes 64] (by decide)).2⟩

/-! ## Lowest-bit selection -/

theorem getLsbD_takeLowestLoop : ∀ (remaining : Nat) (src mask : Word),
    remaining ≤ countOnes src → ∀ i,
      (takeLowestLoop remaining src mask).getLsbD i =
        (mask.getLsbD i || decide (i ∈ (positions src).take remaining)) := by
  intro remaining
  induction remaining with
  | zero => intro src mask _ i; simp [takeLowestLoop]
  | succ remaining ih =>
    intro src mask hle i
    have hne : src ≠ 0#64 := by
      rintro rfl
      simp at hle
    have hcount := countOnes_clearLowest hne
    rw [takeLowestLoop, ih _ _ (by omega), positions_eq_cons hne,
      take_succ_cons, getLsbD_or, getLsbD_one_shiftLeft]
    have htz := trailingZeros_lt hne
    by_cases hi : i = trailingZeros src
    · subst hi
      simp [htz]
    · simp [hi, mem_cons]

theorem positions_takeLowestLoop {remaining : Nat} {src : Word} (h : remaining ≤ countOnes src) :
    positions (takeLowestLoop remaining src 0#64) = (positions src).take remaining := by
  refine positions_eq_of_sorted ((positions_sorted src).sublist (take_sublist _ _)) fun i => ?_
  rw [getLsbD_takeLowestLoop remaining src 0#64 h]
  simp

theorem positions_takeLowestBits (word : Word) (max : Nat) :
    positions (takeLowestBits word max).1 = (positions word).take max ∧
      (takeLowestBits word max).2 = word &&& ~~~(takeLowestBits word max).1 := by
  unfold takeLowestBits
  split
  · next h0 =>
    refine ⟨by rcases h0 with rfl | rfl <;> simp, ?_⟩
    rw [not_zero, and_allOnes]
  · dsimp only
    split
    · next hle =>
      rw [take_of_length_le (by rw [← countOnes]; omega)]
      simp
    · next hlt =>
      rw [positions_takeLowestLoop (by omega), Nat.min_eq_right (by omega)]
      exact ⟨rfl, rfl⟩

end Kernels

end Aurum
