import Aurum.Kernels

/-!
# Types — the neutral delivery types

`aurum-types`: sequence numbers, delivery ranges and masks, and the work
one `deliver` call hands out. `Seq`, `BlockIndex`, `WordIndex` and the
newtype wrappers around integers are `Nat`. A mask names the messages of
one word of one block; `seqs` lists the messages a range or mask denotes.
-/

namespace Aurum

open Aurum.Bits List

variable (ranges : List DeliveryRange) (masks : List DeliveryMask)

/-- `u32::MAX`. -/
def u32Max : Nat := 2 ^ 32 - 1

def MSGS_PER_BLOCK : Nat := 256

def WORDS_PER_BLOCK : Nat := MSGS_PER_BLOCK / 64

structure DeliveryRange where
  startSeq : Nat
  len : Nat
deriving DecidableEq, Repr

structure DeliveryMask where
  block : Nat
  word : Nat
  mask : Word
deriving DecidableEq, Repr

structure DeliveryWork where
  ranges : List DeliveryRange
  masks : List DeliveryMask
deriving DecidableEq, Repr

/-- The sequence number of bit `bit` of word `word` of block `block`. -/
def seqOfBit (block : Nat) (word : Nat) (bit : Nat) : Nat :=
  MSGS_PER_BLOCK * block + 64 * word + bit

/-- The messages of a range. -/
def DeliveryRange.seqs (r : DeliveryRange) : List Nat := List.range' r.startSeq r.len

/-- The messages of a mask, ascending. -/
def DeliveryMask.seqs (m : DeliveryMask) : List Nat :=
  (positions m.mask).map (seqOfBit m.block m.word)

/-- The messages of a list of ranges and a list of masks, in that order. -/
def workSeqs : List Nat :=
  ranges.flatMap DeliveryRange.seqs ++ masks.flatMap DeliveryMask.seqs

theorem workSeqs_snoc_range (r : DeliveryRange) :
    (workSeqs (ranges ++ [r]) masks).Perm (workSeqs ranges masks ++ r.seqs) := by
  simp only [workSeqs, flatMap_append, flatMap_singleton, List.append_assoc]
  exact perm_append_comm.append_left _

theorem workSeqs_snoc_mask (m : DeliveryMask) :
    workSeqs ranges (masks ++ [m]) = workSeqs ranges masks ++ m.seqs := by
  simp [workSeqs]

@[simp] theorem DeliveryRange.mem_seqs {r : DeliveryRange} {s : Nat} :
    s ∈ r.seqs ↔ r.startSeq ≤ s ∧ s < r.startSeq + r.len := by
  simp [DeliveryRange.seqs]

@[simp] theorem DeliveryRange.length_seqs (r : DeliveryRange) : r.seqs.length = r.len := by
  simp [DeliveryRange.seqs]

@[simp] theorem DeliveryMask.length_seqs (m : DeliveryMask) : m.seqs.length = countOnes m.mask := by
  simp [DeliveryMask.seqs, countOnes]

/-- Within its word a mask names a message by its bit. -/
theorem DeliveryMask.mem_seqs {m : DeliveryMask} (hw : m.word < 4) {s : Nat} : s ∈ m.seqs ↔
      s / 256 = m.block ∧ s % 256 / 64 = m.word ∧ m.mask.getLsbD (s % 64) = true := by
  simp only [DeliveryMask.seqs, mem_map, mem_positions, seqOfBit, MSGS_PER_BLOCK]
  constructor
  · rintro ⟨i, hi, rfl⟩
    have hlt : i < 64 := BitVec.lt_of_getLsbD hi
    refine ⟨by omega, by omega, ?_⟩
    have : (256 * m.block + 64 * m.word + i) % 64 = i := by omega
    rwa [this]
  · rintro ⟨hb, hword, hbit⟩
    exact ⟨s % 64, hbit, by omega⟩

theorem DeliveryMask.div_of_mem {m : DeliveryMask} (hw : m.word < 4) {s : Nat}
    (hs : s ∈ m.seqs) : s / 256 = m.block := ((DeliveryMask.mem_seqs hw).mp hs).1

/-- Membership of the messages of the mask's own block. -/
theorem DeliveryMask.mem_seqs_block {m : DeliveryMask} (hw : m.word < 4) {i : Nat} (hi : i < 256) :
    256 * m.block + i ∈ m.seqs ↔ m.word = i / 64 ∧ m.mask.getLsbD (i % 64) = true := by
  rw [DeliveryMask.mem_seqs hw, show (256 * m.block + i) % 64 = i % 64 by omega]
  constructor
  · rintro ⟨_, h2, h3⟩
    exact ⟨by omega, h3⟩
  · rintro ⟨h2, h3⟩
    exact ⟨by omega, by omega, h3⟩

end Aurum
