import Aurum.Queue.Diagnostics
import Aurum.Queue.Model

/-!
# Queue — how the counts move

Counting the messages of a state map, for both queues: giving a state to
messages adds them to that count and leaves the counts of states they
were not in; what delivery can hand out is decided by the counts alone.
-/

namespace Aurum.Queue

open List

variable {st : Nat → Option MessageState} {n : Nat} {S : List Nat} {p : MessageState}

theorem countState_eq_length_filter :
    countState st n p = ((range n).filter fun x => decide (st x = some p)).length :=
  countP_eq_length_filter

theorem mem_filter_state {x : Nat} :
    (x ∈ (range n).filter fun x => decide (st x = some p)) ↔ x < n ∧ st x = some p := by
  simp

/-- The messages in state `p`, listed once each. -/
theorem countState_of_list (hnd : S.Nodup) (hS : ∀ x, x ∈ S ↔ st x = some p)
    (hlt : ∀ x ∈ S, x < n) : countState st n p = S.length := by
  rw [countState_eq_length_filter]
  refine (perm_ext_iff_of_nodup (nodup_range.filter _) hnd).mpr (fun x => ?_) |>.length_eq
  rw [mem_filter_state, hS]
  exact ⟨fun h => h.2, fun h => ⟨hlt x ((hS x).mpr h), h⟩⟩

/-- The count depends on the messages in the state alone. -/
theorem countState_congr {st' : Nat → Option MessageState} {n' : Nat}
    (h : ∀ x, x < n ∧ st x = some p ↔ x < n' ∧ st' x = some p) :
    countState st n p = countState st' n' p := by
  rw [countState_eq_length_filter, countState_eq_length_filter]
  refine (perm_ext_iff_of_nodup (nodup_range.filter _)
    (nodup_range.filter _)).mpr (fun x => ?_) |>.length_eq
  rw [mem_filter_state, mem_filter_state]
  exact h x

/-- Publishing adds ready messages only. -/
theorem countState_publishAll (hne : p ≠ .ready) (hdom : ∀ x, n ≤ x → st x = none) (c : Nat) :
    countState (HybridRangeBlockQueue.publishAll st n c) (n + c) p = countState st n p := by
  refine countState_congr fun x => ?_
  rw [HybridRangeBlockQueue.publishAll]
  by_cases hx : n ≤ x
  · have hnone := hdom x hx
    by_cases hlt : x < n + c
    · simp [hx, hlt, Ne.symm hne]
    · simp [hlt]
      omega
  · rw [if_neg (by omega)]
    simp
    omega

theorem countState_setAll_same (hnd : S.Nodup) (hlt : ∀ x ∈ S, x < n)
    (hS : ∀ x ∈ S, st x ≠ some p) :
    countState (setAll st S p) n p = countState st n p + S.length := by
  rw [countState_eq_length_filter, countState_eq_length_filter, ← length_append]
  refine (perm_ext_iff_of_nodup (nodup_range.filter _) ?_).mpr (fun x => ?_) |>.length_eq
  · refine nodup_append.mpr ⟨nodup_range.filter _, hnd, ?_⟩
    rintro x hx y hy rfl
    exact hS x hy (mem_filter_state.mp hx).2
  · rw [mem_filter_state, mem_append, mem_filter_state]
    by_cases hx : x ∈ S
    · simp [setAll_of_mem hx, hx, hlt x hx]
    · simp [setAll_of_not_mem hx, hx]

/-- Messages that leave a state are no longer counted there. -/
theorem countState_setAll_leave {a : MessageState} (hne : a ≠ p) (hnd : S.Nodup)
    (hlt : ∀ x ∈ S, x < n) :
    countState (setAll st S p) n a + S.countP (fun x => decide (st x = some a)) =
      countState st n a := by
  rw [countState_eq_length_filter, countState_eq_length_filter, countP_eq_length_filter,
    ← length_append]
  refine (perm_ext_iff_of_nodup ?_ (nodup_range.filter _)).mpr (fun x => ?_) |>.length_eq
  · refine nodup_append.mpr ⟨nodup_range.filter _, hnd.filter _, ?_⟩
    rintro x hx y hy rfl
    have hset := (mem_filter_state.mp hx).2
    rw [setAll_of_mem (mem_filter.mp hy).1] at hset
    exact hne (Option.some.inj hset).symm
  · rw [mem_append, mem_filter_state, mem_filter_state]
    by_cases hx : x ∈ S
    · simp [setAll_of_mem hx, hx, hlt x hx, Ne.symm hne]
    · simp [setAll_of_not_mem hx, hx]

theorem countState_setAll_other {a : MessageState} (hne : a ≠ p) (hS : ∀ x ∈ S, st x ≠ some a) :
    countState (setAll st S p) n a = countState st n a := by
  unfold countState
  refine countP_congr fun x _ => ?_
  by_cases hx : x ∈ S
  · simp [setAll_of_mem hx, Ne.symm hne, hS x hx]
  · rw [setAll_of_not_mem hx]

theorem countState_setAll_all (hne : p ≠ .retry) (hS : ∀ x, x ∈ S ↔ st x = some .retry) :
    countState (setAll st S p) n .retry = 0 := by
  unfold countState
  rw [countP_eq_zero]
  intro x _
  by_cases hx : x ∈ S
  · simp [setAll_of_mem hx, hne]
  · have hx' := mt (hS x).mpr hx
    simp [setAll_of_not_mem hx, hx']

/-- What is available: the fresh and the retried messages. -/
theorem countState_available (l : List Nat) :
    (l.filter fun x => decide (st x = some .ready ∨ st x = some .sparseReady)).length =
      l.countP (fun x => decide (st x = some .ready)) +
        l.countP (fun x => decide (st x = some .sparseReady)) := by
  induction l with
  | nil => rfl
  | cons x l ih =>
    rw [filter_cons, countP_cons, countP_cons]
    by_cases h1 : st x = some .ready
    · have h2 : st x ≠ some .sparseReady := by simp [h1]
      simp only [h1, true_or, decide_true, if_true, length_cons, ih]
      simp
      omega
    · by_cases h2 : st x = some .sparseReady
      · simp only [h2, or_true, decide_true, if_true, length_cons, ih]
        simp
        omega
      · simp only [h1, h2, or_self, decide_false]
        simpa using ih

/-- **How many messages are handed out** depends on the counts only. -/
theorem Handed.length {max : Nat} (h : Handed st max S) (hdom : ∀ x, st x = none ↔ n ≤ x) :
    S.length = min max (countsOf st n).ready := by
  have hlen := @countState_available st (range n)
  change _ = (countsOf st n).ready at hlen
  have hsub : S ⊆ (range n).filter fun x =>
      decide (st x = some .ready ∨ st x = some .sparseReady) := by
    intro x hx
    have hav := h.available x hx
    have hlt : x < n := by
      by_contra hge
      rw [(hdom x).mpr (by omega)] at hav
      simp at hav
    simp [hlt, hav]
  have h1 := (subperm_of_subset h.nodup hsub).length_le
  have h2 := h.le
  by_cases hmax : S.length < max
  · have hall : ((range n).filter fun x =>
        decide (st x = some .ready ∨ st x = some .sparseReady)) ⊆ S := by
      intro x hx
      by_contra hnot
      have hno := h.exhausted hmax x hnot
      have hyes := (mem_filter.mp hx).2
      simp [hno.1, hno.2] at hyes
    have h3 := (subperm_of_subset (nodup_range.filter _) hall).length_le
    omega
  · omega

namespace ModelQueue

open List

theorem foldl_countOne : ∀ (l : List MessageState) (c : QueueCounts),
    l.foldl countOne c = ⟨c.published, c.ready + (l.count .ready + l.count .sparseReady),
      c.inflight + l.count .inflight, c.acked + l.count .acked, c.retry + l.count .retry⟩ := by
  intro l
  induction l with
  | nil =>
    intro c
    rfl
  | cons p l ih =>
    intro c
    rw [foldl_cons, ih]
    cases p <;> simp [countOne] <;> omega

theorem countP_range_getElem? (l : List MessageState) (p : MessageState) :
    (range l.length).countP (fun x => decide (l[x]? = some p)) = l.count p := by
  have hmap : (range l.length).map (fun x => l[x]?) = l.map some := by
    refine ext_getElem? fun i => ?_
    by_cases hi : i < l.length
    · simp [hi]
    · simp [hi]
  have hcount := congrArg (countP fun o => decide (o = some p)) hmap
  rw [countP_map, countP_map] at hcount
  refine hcount.trans ?_
  rw [count]
  refine countP_congr fun x _ => ?_
  simp

/-- **`counts`** counts the state map. -/
theorem counts_eq (q : ModelQueue) : q.counts = countsOf q.stateOf q.states.length := by
  rw [counts, foldl_countOne]
  have h : ∀ p, countState q.stateOf q.states.length p = q.states.count p :=
    fun p => countP_range_getElem? q.states p
  simp only [countsOf, h, Nat.zero_add]

end ModelQueue

end Aurum.Queue
