import Mathlib.Data.List.Basic
import Mathlib.Tactic.Ring

/-!
# Bytes — numbers in byte order

A number of `w` bytes, least significant byte first (`toLe`) or last
(`toBe`), and the number a byte string stands for. Each pair is inverse
in both directions: on numbers below `256 ^ w`, and on strings of length
`w`.
-/

namespace Aurum.Bytes

open List

variable (bs : List UInt8)

/-- `n` in `w` bytes, the least significant first. -/
def toLe : Nat → Nat → List UInt8
  | 0, _ => []
  | w + 1, n => UInt8.ofNat n :: toLe w (n / 256)

/-- The number of a byte string, the least significant byte first. -/
def ofLe : List UInt8 → Nat
  | [] => 0
  | b :: bs => b.toNat + 256 * ofLe bs

@[simp] theorem length_toLe (w n : Nat) : (toLe w n).length = w := by
  induction w generalizing n with
  | zero => rfl
  | succ w ih => rw [toLe, length_cons, ih]

theorem ofLe_lt : ofLe bs < 256 ^ bs.length := by
  induction bs with
  | nil => simp [ofLe]
  | cons b bs ih =>
    have hb : b.toNat < 256 := b.toNat_lt
    rw [ofLe, length_cons, Nat.pow_succ]
    omega

theorem ofLe_toLe {w n : Nat} (h : n < 256 ^ w) : ofLe (toLe w n) = n := by
  induction w generalizing n with
  | zero => rw [Nat.pow_zero] at h; simp [toLe, ofLe]; omega
  | succ w ih =>
    have hdiv : n / 256 < 256 ^ w := by
      rw [Nat.pow_succ] at h
      omega
    rw [toLe, ofLe, ih hdiv, UInt8.toNat_ofNat']
    omega

theorem toLe_injective {w m n : Nat} (hm : m < 256 ^ w) (hn : n < 256 ^ w)
    (h : toLe w m = toLe w n) : m = n := by
  rw [← ofLe_toLe hm, h, ofLe_toLe hn]

theorem toLe_ofLe : toLe bs.length (ofLe bs) = bs := by
  induction bs with
  | nil => rfl
  | cons b bs ih =>
    have hb : b.toNat < 256 := b.toNat_lt
    have hdiv : (b.toNat + 256 * ofLe bs) / 256 = ofLe bs := by omega
    have hmod : UInt8.ofNat (b.toNat + 256 * ofLe bs) = b := by
      apply UInt8.toNat_inj.mp
      rw [UInt8.toNat_ofNat']
      omega
    rw [length_cons, ofLe, toLe, hdiv, hmod, ih]

/-- `n` in `w` bytes, the most significant first. -/
def toBe (w n : Nat) : List UInt8 := (toLe w n).reverse

/-- The number of a byte string, the most significant byte first. -/
def ofBe : Nat := ofLe bs.reverse

@[simp] theorem length_toBe (w n : Nat) : (toBe w n).length = w := by
  rw [toBe, length_reverse, length_toLe]

theorem ofBe_toBe {w n : Nat} (h : n < 256 ^ w) : ofBe (toBe w n) = n := by
  rw [ofBe, toBe, reverse_reverse, ofLe_toLe h]

end Aurum.Bytes
