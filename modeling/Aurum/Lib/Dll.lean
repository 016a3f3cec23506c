import Mathlib.Tactic.Ring
import Mathlib.Data.List.Basic
import Mathlib.Data.List.Induction

/-!
# Dll — doubly linked segments over indices

A store of cells maps an index to its two neighbour pointers. `Seg c p
xs n` says that following `next` from the front walks exactly `xs`,
that every `prev` points back, that the pointer before the first cell is
`p` and the one after the last is `n`. Splitting a segment
(`seg_append`) and re-anchoring one of its ends (`Seg.setPrev`,
`Seg.setNext`) are enough to derive every list operation.

Stores are compared pointwise, so a user describes what an operation
wrote and never how.
-/

namespace Aurum.Dll

open List

/-- Neighbour pointers of one cell. -/
@[ext] structure Cell where
  prev : Option Nat
  next : Option Nat

/-- The doubly linked segment `xs` between the boundary pointers `p`
and `n`. -/
def Seg (c : Nat → Cell) (p : Option Nat) : List Nat → Option Nat → Prop
  | [], _ => True
  | x :: xs, n => c x = ⟨p, xs.head?.or n⟩ ∧ Seg c (some x) xs n

variable {c c' : Nat → Cell} {p n p' n' : Option Nat} {xs : List Nat}

@[simp] theorem seg_nil : Seg c p [] n := trivial

theorem seg_cons {x : Nat} :
    Seg c p (x :: xs) n ↔ c x = ⟨p, xs.head?.or n⟩ ∧ Seg c (some x) xs n := Iff.rfl

/-- A segment only reads its own cells. -/
theorem Seg.congr (h : Seg c p xs n) (hc : ∀ x ∈ xs, c' x = c x) : Seg c' p xs n := by
  induction xs generalizing p with
  | nil => trivial
  | cons x xs ih =>
    obtain ⟨hx, hxs⟩ := h
    exact ⟨by rw [hc x (by simp), hx], ih hxs (fun y hy => hc y (by simp [hy]))⟩

theorem getLast?_cons_or (x : Nat) (xs : List Nat) (p : Option Nat) :
    (x :: xs).getLast?.or p = xs.getLast?.or (some x) := by
  cases xs with
  | nil => simp
  | cons y ys => rw [getLast?_cons_cons, getLast?_cons]; simp

theorem seg_append {ys : List Nat} : Seg c p (xs ++ ys) n ↔
      Seg c p xs (ys.head?.or n) ∧ Seg c (xs.getLast?.or p) ys n := by
  induction xs generalizing p with
  | nil => simp
  | cons x xs ih =>
    rw [cons_append, seg_cons, seg_cons, ih, and_assoc]
    have hhead : (xs ++ ys).head?.or n = xs.head?.or (ys.head?.or n) := by
      rw [head?_append, Option.or_assoc]
    rw [hhead, getLast?_cons_or]

/-- Every cell has one predecessor, so a segment with a front does not come
back to a cell. -/
theorem Seg.nodup (h : Seg c none xs n) : xs.Nodup := by
  induction xs using reverseRecOn generalizing n with
  | nil => exact nodup_nil
  | append_singleton ys y ih =>
    obtain ⟨hys, hy, -⟩ := seg_append.mp h
    have hnodup := ih hys
    have hnot : y ∉ ys := by
      intro hmem
      obtain ⟨as, bs, rfl⟩ := append_of_mem hmem
      have hprev := (seg_append.mp hys).2.1.symm.trans hy
      rw [Cell.mk.injEq, Option.or_none, Option.or_none, getLast?_append,
        getLast?_eq_some_getLast (cons_ne_nil y bs), Option.some_or] at hprev
      exact (nodup_append.mp hnodup).2.2 _ (mem_of_getLast? hprev.1) _
        (getLast_mem (cons_ne_nil y bs)) rfl
    exact (perm_append_singleton y ys).nodup_iff.mpr (nodup_cons.mpr ⟨hnot, hnodup⟩)

/-- Re-anchor the front pointer. -/
theorem Seg.setPrev {ys : List Nat} (h : Seg c p ys n) (hnodup : ys.Nodup)
    (hc : ∀ x ∈ ys, c' x = ⟨if ys.head? = some x then p' else (c x).prev, (c x).next⟩) :
    Seg c' p' ys n := by
  cases ys with
  | nil => trivial
  | cons y ys =>
    obtain ⟨hy, hys⟩ := h
    refine ⟨?_, hys.congr fun x hx => ?_⟩
    · rw [hc y mem_cons_self, head?_cons, if_pos rfl, hy]
    · have hne : y ≠ x := fun heq => (nodup_cons.mp hnodup).1 (heq ▸ hx)
      rw [hc x (mem_cons_of_mem y hx), head?_cons, if_neg (by simpa using hne)]

/-- Re-anchor the back pointer. -/
theorem Seg.setNext (h : Seg c p xs n) (hnodup : xs.Nodup)
    (hc : ∀ x ∈ xs, c' x = ⟨(c x).prev, if xs.getLast? = some x then n' else (c x).next⟩) :
    Seg c' p xs n' := by
  rcases eq_nil_or_concat xs with rfl | ⟨ys, y, rfl⟩
  · trivial
  · rw [concat_eq_append] at h hnodup hc ⊢
    rw [seg_append] at h ⊢
    obtain ⟨hys, hy, -⟩ := h
    have hdisjoint := (nodup_append.mp hnodup).2.2
    refine ⟨hys.congr fun x hx => ?_, ?_, trivial⟩
    · have hne : y ≠ x := (hdisjoint x hx y (mem_singleton.mpr rfl)).symm
      rw [hc x (mem_append_left _ hx), getLast?_concat, if_neg (by simpa using hne)]
    · rw [hc y (by simp), getLast?_concat, if_pos rfl, hy]
      rfl

/-- Re-anchor two segments of one store at each other, or at cells between. -/
theorem Seg.reanchor {m m' : Option Nat} {as bs : List Nat} (ha : Seg c p as m)
    (hb : Seg c m' bs n) (hnodup : (as ++ bs).Nodup)
    (hc : ∀ x ∈ as ++ bs, c' x = ⟨if bs.head? = some x then p' else (c x).prev,
      if as.getLast? = some x then n' else (c x).next⟩) : Seg c' p as n' ∧ Seg c' p' bs n := by
  obtain ⟨hnda, hndb, hdisjoint⟩ := nodup_append.mp hnodup
  refine ⟨ha.setNext hnda fun x hx => ?_, hb.setPrev hndb fun x hx => ?_⟩
  · have hxb : bs.head? ≠ some x := fun hh => hdisjoint x hx x (mem_of_head? hh) rfl
    rw [hc x (mem_append_left bs hx), if_neg hxb]
  · have hxa : as.getLast? ≠ some x := fun hh => hdisjoint x (mem_of_getLast? hh) x hx rfl
    rw [hc x (mem_append_right as hx), if_neg hxa]

/-- The first cell of a segment. -/
theorem Seg.front {x : Nat} (h : Seg c p (x :: xs) n) : c x = ⟨p, xs.head?.or n⟩ := h.1

/-- The same store walked from the other end. -/
def swap (c : Nat → Cell) (i : Nat) : Cell := ⟨(c i).next, (c i).prev⟩

theorem Seg.reverse (h : Seg c p xs n) : Seg (swap c) n xs.reverse p := by
  induction xs generalizing p with
  | nil => trivial
  | cons x xs ih =>
    obtain ⟨hx, hxs⟩ := h
    rw [reverse_cons, seg_append]
    refine ⟨by simpa using ih hxs, ?_, trivial⟩
    rw [swap, hx, getLast?_reverse]
    rfl

end Aurum.Dll
