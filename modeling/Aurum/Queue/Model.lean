import Aurum.Queue.State

/-!
# Queue — the reference queue

`aurum-core::queue::model`: one state per message, an interval of fresh
messages and a FIFO of retried ones. `ModelOk` ties the interval and the
FIFO to the states; every operation is a `setAll` on the state map
`ModelQueue.st`, as it is for the hybrid queue.
-/

namespace Aurum.Queue

open List

structure ModelQueue where
  states : List MessageState
  sequentialHead : Nat
  sequentialTail : Nat
  sparseReady : List Nat
deriving DecidableEq, Repr

namespace ModelQueue

open List

def new : ModelQueue := ⟨[], 0, 0, []⟩

def publish (q : ModelQueue) (count : Nat) : ModelQueue :=
  let stop := q.sequentialTail + count
  { q with
    states := q.states ++ replicate (stop - q.states.length) .ready
    sequentialTail := stop }

def publishContiguous (q : ModelQueue) (count : Nat) : ModelQueue × Nat :=
  (q.publish count, q.sequentialTail)

/-- The sequential loop of `deliver`, with what remains to deliver. -/
def deliverSequential : Nat → ModelQueue → List Nat → Nat × ModelQueue × List Nat
  | 0, q, out => (0, q, out)
  | remaining + 1, q, out =>
    if q.sequentialHead < q.sequentialTail then
      let seq := q.sequentialHead
      deliverSequential remaining
        { q with states := q.states.set seq .inflight, sequentialHead := q.sequentialHead + 1 }
        (out ++ [seq])
    else (remaining + 1, q, out)

/-- The sparse loop of `deliver`. -/
def deliverSparse : Nat → ModelQueue → List Nat → ModelQueue × List Nat
  | 0, q, out => (q, out)
  | remaining + 1, q, out =>
    match q.sparseReady with
    | [] => (q, out)
    | seq :: rest =>
      deliverSparse remaining
        { q with states := q.states.set seq .inflight, sparseReady := rest } (out ++ [seq])

def deliver (q : ModelQueue) (max : Nat) : ModelQueue × List Nat :=
  let (remaining, q, out) := deliverSequential max q []
  deliverSparse remaining q out

def ackId (q : ModelQueue) (seq : Nat) : ModelQueue :=
  if seq < q.states.length then { q with states := q.states.set seq .acked } else q

def nackIdToRetry (q : ModelQueue) (seq : Nat) : ModelQueue :=
  if seq < q.states.length then { q with states := q.states.set seq .retry } else q

/-- One iteration of `retry_all_now`. -/
def retryStep (acc : ModelQueue × Nat) (seq : Nat) : ModelQueue × Nat :=
  if acc.1.states[seq]? = some .retry then
    ({ acc.1 with
        states := acc.1.states.set seq .sparseReady
        sparseReady := acc.1.sparseReady ++ [seq] }, (acc.2 + 1) % 2 ^ 32)
  else acc

def retryAllNow (q : ModelQueue) : ModelQueue × Nat :=
  (range q.states.length).foldl retryStep (q, 0)

def countOne (c : QueueCounts) : MessageState → QueueCounts
  | .ready | .sparseReady => { c with ready := c.ready + 1 }
  | .inflight => { c with inflight := c.inflight + 1 }
  | .acked => { c with acked := c.acked + 1 }
  | .retry => { c with retry := c.retry + 1 }

def counts (q : ModelQueue) : QueueCounts :=
  q.states.foldl countOne ⟨q.states.length, 0, 0, 0, 0⟩

def stateOf (q : ModelQueue) (seq : Nat) : Option MessageState := q.states[seq]?

end ModelQueue

/-- The interval and the FIFO list the ready and the sparse-ready
messages. -/
structure ModelOk (q : ModelQueue) : Prop where
  tail : q.sequentialTail = q.states.length
  head : q.sequentialHead ≤ q.sequentialTail
  ready : ∀ x, q.stateOf x = some .ready ↔ q.sequentialHead ≤ x ∧ x < q.sequentialTail
  nodup : q.sparseReady.Nodup
  sparse : ∀ x, q.stateOf x = some .sparseReady ↔ x ∈ q.sparseReady

variable {x : Nat}

namespace ModelQueue

open List

variable {q : ModelQueue}

theorem stateOf_eq_none : q.stateOf x = none ↔ q.states.length ≤ x :=
  getElem?_eq_none_iff

/-- Writing one state is a `setAll` of one message. -/
theorem getElem?_set_eq {states : List MessageState} (hx : x < states.length) (p : MessageState) :
    (fun y => (states.set x p)[y]?) = setAll (fun y => states[y]?) [x] p := by
  funext y
  rw [getElem?_set]
  by_cases hxy : x = y
  · subst hxy
    rw [if_pos rfl, if_pos hx, setAll_of_mem (by simp)]
  · rw [if_neg hxy, setAll_of_not_mem (by simpa using Ne.symm hxy)]

theorem modelOk_new : ModelOk new :=
  ⟨rfl, Nat.le_refl _, by simp [new, stateOf], by simp [new], by simp [new, stateOf]⟩

/-- **`publish`** appends ready messages. -/
theorem publish_ok (h : ModelOk q) (count : Nat) :
    ModelOk (q.publish count) ∧ (q.publish count).states.length = q.states.length + count ∧
    ∀ x, (q.publish count).stateOf x =
      if q.states.length ≤ x ∧ x < q.states.length + count then some .ready else q.stateOf x := by
  have htail := h.tail
  have hhead := h.head
  have hcount : q.sequentialTail + count - q.states.length = count := by omega
  have hstates : (q.publish count).states = q.states ++ replicate count .ready := by
    simp only [publish, hcount]
  have hget : ∀ x, (q.publish count).stateOf x =
      if q.states.length ≤ x ∧ x < q.states.length + count then some .ready else q.stateOf x := by
    intro x
    rw [stateOf, hstates]
    by_cases hx : x < q.states.length
    · rw [if_neg (by omega), getElem?_append_left hx, stateOf]
    · rw [getElem?_append_right (by omega), getElem?_replicate]
      by_cases hx' : x < q.states.length + count
      · rw [if_pos (by omega), if_pos ⟨by omega, hx'⟩]
      · rw [if_neg (by omega), if_neg (by omega), stateOf_eq_none.mpr (by omega)]
  refine ⟨⟨?_, ?_, fun x => ?_, h.nodup, fun x => ?_⟩, by simp [hstates], hget⟩
  · rw [hstates, length_append, length_replicate, ← htail]
    rfl
  · change q.sequentialHead ≤ q.sequentialTail + count
    omega
  · rw [hget]
    change _ ↔ q.sequentialHead ≤ x ∧ x < q.sequentialTail + count
    split
    · simp
      omega
    · rw [h.ready]
      omega
  · change _ ↔ x ∈ q.sparseReady
    rw [hget, ← h.sparse]
    split
    · next hx => simp [stateOf_eq_none.mpr hx.1]
    · rfl

variable {p a : MessageState}

theorem lt_of_stateOf (hx : q.stateOf x = some p) : x < q.states.length := by
  by_contra hge
  rw [stateOf_eq_none.mpr (by omega)] at hx
  cases hx

theorem stateOf_set (hx : q.stateOf x = some a) (head : Nat) (sparse : List Nat) :
    (ModelQueue.mk (q.states.set x p) head q.sequentialTail sparse).stateOf =
      setAll q.stateOf [x] p :=
  getElem?_set_eq (lt_of_stateOf hx) p

/-- A message in a state that is neither `a` nor `p` is not affected by
moving `x` from `a` to `p`. -/
theorem setAll_other {st : Nat → Option MessageState} {p' : MessageState} (hx : st x = some a)
    (ha : p' ≠ a) (hp : p' ≠ p) (y : Nat) : setAll st [x] p y = some p' ↔ st y = some p' := by
  by_cases hy : y ∈ [x]
  · rw [setAll_of_mem hy, mem_singleton.mp hy, hx]
    simp [Ne.symm ha, Ne.symm hp]
  · rw [setAll_of_not_mem hy]

/-- Settling one inflight message. -/
theorem set_ok (h : ModelOk q) (hx : q.stateOf x = some .inflight)
    (hp : p ≠ .ready ∧ p ≠ .sparseReady) : ModelOk { q with states := q.states.set x p } := by
  have hst := stateOf_set (p := p) hx q.sequentialHead q.sparseReady
  refine ⟨by simpa using h.tail, h.head, fun y => ?_, h.nodup, fun y => ?_⟩
  · rw [hst, setAll_other hx (by simp) (Ne.symm hp.1)]
    exact h.ready y
  · rw [hst, setAll_other hx (by simp) (Ne.symm hp.2)]
    exact h.sparse y

/-- One iteration of the sequential loop. -/
theorem advance_ok (h : ModelOk q) (hlt : q.sequentialHead < q.sequentialTail) : ModelOk { q with
      states := q.states.set q.sequentialHead .inflight
      sequentialHead := q.sequentialHead + 1 } := by
  have hx : q.stateOf q.sequentialHead = some .ready :=
    (h.ready _).mpr ⟨Nat.le_refl _, hlt⟩
  have hst := stateOf_set (p := .inflight) hx (q.sequentialHead + 1) q.sparseReady
  refine ⟨by simpa using h.tail, hlt, fun y => ?_, h.nodup, fun y => ?_⟩
  · rw [hst]
    by_cases hy : y = q.sequentialHead
    · subst hy
      rw [setAll_of_mem (by simp)]
      simp
    · rw [setAll_of_not_mem (by simpa using hy), h.ready]
      dsimp only
      omega
  · rw [hst, setAll_other hx (by simp) (by simp)]
    exact h.sparse y

/-- One iteration of the sparse loop. -/
theorem popSparse_ok (h : ModelOk q) {rest : List Nat} (hq : q.sparseReady = x :: rest) :
    ModelOk { q with states := q.states.set x .inflight, sparseReady := rest } := by
  have hx : q.stateOf x = some .sparseReady := (h.sparse x).mpr (by simp [hq])
  have hst := stateOf_set (p := .inflight) hx q.sequentialHead rest
  have hnd := h.nodup
  rw [hq, nodup_cons] at hnd
  refine ⟨by simpa using h.tail, h.head, fun y => ?_, hnd.2, fun y => ?_⟩
  · rw [hst, setAll_other hx (by simp) (by simp)]
    exact h.ready y
  · rw [hst]
    by_cases hy : y = x
    · subst hy
      rw [setAll_of_mem (by simp)]
      simpa using hnd.1
    · rw [setAll_of_not_mem (by simpa using hy), h.sparse, hq, mem_cons]
      simp [hy]

end ModelQueue

/-- The messages `S` were taken from the ready ones of `st`, at most
`max` of them; with fewer none is left. -/
structure Handed (st : Nat → Option MessageState) (max : Nat) (S : List Nat) : Prop where
  nodup : S.Nodup
  available : ∀ x ∈ S, st x = some .ready ∨ st x = some .sparseReady
  le : S.length ≤ max
  exhausted : S.length < max → ∀ x, x ∉ S → st x ≠ some .ready ∧ st x ≠ some .sparseReady

namespace ModelQueue

open List

variable {q : ModelQueue}

/-- The sequential loop takes the next `k` fresh messages. -/
theorem deliverSequential_spec : ∀ (r : Nat) (q : ModelQueue) (out : List Nat), ModelOk q →
    ∃ k q', deliverSequential r q out =
        (r - k, q', out ++ range' q.sequentialHead k) ∧
      ModelOk q' ∧ k ≤ r ∧ q.sequentialHead + k ≤ q.sequentialTail ∧
      (k < r → q.sequentialHead + k = q.sequentialTail) ∧
      q'.stateOf = setAll q.stateOf (range' q.sequentialHead k) .inflight ∧
      q'.sparseReady = q.sparseReady ∧ q'.states.length = q.states.length := by
  intro r
  induction r with
  | zero =>
    intro q out h
    exact ⟨0, q, by simp [deliverSequential], h, Nat.le_refl _, h.head, by omega, by simp, rfl,
      rfl⟩
  | succ r ih =>
    intro q out h
    rw [deliverSequential]
    by_cases hlt : q.sequentialHead < q.sequentialTail
    · rw [if_pos hlt]
      obtain ⟨k, q', heq, hok, hk, hle, hex, hst, hsp, hlen⟩ := ih _
        (out ++ [q.sequentialHead]) (advance_ok h hlt)
      have hx : q.stateOf q.sequentialHead = some .ready :=
        (h.ready _).mpr ⟨Nat.le_refl _, hlt⟩
      dsimp only at heq hle hex hst hsp hlen
      refine ⟨k + 1, q', ?_, hok, by omega, by omega, fun hk' => ?_, ?_, hsp, ?_⟩
      · rw [heq, range'_succ, append_assoc, Nat.add_sub_add_right]
        rfl
      · have := hex (by omega)
        omega
      · rw [hst, stateOf_set hx, setAll_append, range'_succ]
        rfl
      · rw [hlen, length_set]
    · rw [if_neg hlt]
      have hhead := h.head
      exact ⟨0, q, by simp, h, Nat.zero_le _, hhead, fun _ => by omega, by simp, rfl, rfl⟩

/-- The sparse loop takes the front of the FIFO. -/
theorem deliverSparse_spec : ∀ (r : Nat) (q : ModelQueue) (out : List Nat), ModelOk q →
    ∃ q', deliverSparse r q out = (q', out ++ q.sparseReady.take r) ∧ ModelOk q' ∧
      q'.stateOf = setAll q.stateOf (q.sparseReady.take r) .inflight ∧
      q'.states.length = q.states.length := by
  intro r
  induction r with
  | zero =>
    intro q out h
    exact ⟨q, by simp [deliverSparse], h, by simp, rfl⟩
  | succ r ih =>
    intro q out h
    rw [deliverSparse]
    cases hq : q.sparseReady with
    | nil => exact ⟨q, by simp, h, by simp, rfl⟩
    | cons x rest =>
      dsimp only
      have hx : q.stateOf x = some .sparseReady := (h.sparse x).mpr (by simp [hq])
      obtain ⟨q', heq, hok, hst, hlen⟩ := ih _ (out ++ [x]) (popSparse_ok h hq)
      dsimp only at heq hst hlen
      refine ⟨q', ?_, hok, ?_, by rw [hlen, length_set]⟩
      · rw [heq, take_succ_cons, append_assoc]
        rfl
      · rw [hst, stateOf_set hx, setAll_append, take_succ_cons]
        rfl

/-- **`deliver`** of the reference queue. -/
theorem deliver_ok (h : ModelOk q) (max : Nat) :
    ModelOk (q.deliver max).1 ∧ Handed q.stateOf max (q.deliver max).2 ∧
    (q.deliver max).1.stateOf = setAll q.stateOf (q.deliver max).2 .inflight ∧
    (q.deliver max).1.states.length = q.states.length := by
  obtain ⟨k, q1, heq, hok, hk, hle, hex, hst, hsp, hlen⟩ := deliverSequential_spec max q [] h
  obtain ⟨q2, heq2, hok2, hst2, hlen2⟩ := deliverSparse_spec (max - k) q1 _ hok
  have hdel : q.deliver max = (q2, range' q.sequentialHead k ++
      q.sparseReady.take (max - k)) := by
    rw [deliver, heq]
    dsimp only
    rw [heq2, hsp]
    simp
  rw [hdel]
  have hready : ∀ x ∈ range' q.sequentialHead k, q.stateOf x = some .ready := by
    intro x hx
    rw [mem_range'_1] at hx
    exact (h.ready x).mpr (by omega)
  have hsparse : ∀ x ∈ q.sparseReady.take (max - k), q.stateOf x = some .sparseReady :=
    fun x hx => (h.sparse x).mpr (mem_of_mem_take hx)
  refine ⟨hok2, ⟨?_, fun x hx => ?_, ?_, fun hlt x hx => ?_⟩, ?_, hlen2.trans hlen⟩
  · refine nodup_append.mpr ⟨nodup_range', h.nodup.sublist (take_sublist ..), ?_⟩
    rintro x hx y hy rfl
    have h1 := hready x hx
    rw [hsparse x hy] at h1
    cases h1
  · rcases mem_append.mp hx with hx | hx
    · exact .inl (hready x hx)
    · exact .inr (hsparse x hx)
  · rw [length_append, length_range', length_take]
    omega
  · rw [length_append, length_range', length_take] at hlt
    rw [mem_append, not_or, mem_range'_1] at hx
    have hall : q.sparseReady.take (max - k) = q.sparseReady :=
      take_of_length_le (by omega)
    constructor
    · rw [ne_eq, h.ready]
      have := hex (by omega)
      omega
    · rw [ne_eq, h.sparse, ← hall]
      exact hx.2
  · rw [hst2, hst, hsp, setAll_append]

/-- One iteration of `retry_all_now` that finds a retry message. -/
theorem retry_ok (h : ModelOk q) (hx : q.stateOf x = some .retry) : ModelOk { q with
      states := q.states.set x .sparseReady
      sparseReady := q.sparseReady ++ [x] } := by
  have hst := stateOf_set (p := .sparseReady) hx q.sequentialHead (q.sparseReady ++ [x])
  have hnot : x ∉ q.sparseReady := by
    rw [← h.sparse, hx]
    simp
  refine ⟨by simpa using h.tail, h.head, fun y => ?_, ?_, fun y => ?_⟩
  · rw [hst, setAll_other hx (by simp) (by simp)]
    exact h.ready y
  · refine nodup_append.mpr ⟨h.nodup, by simp, ?_⟩
    rintro y hy z hz rfl
    exact hnot (mem_singleton.mp hz ▸ hy)
  · rw [hst, mem_append]
    by_cases hy : y ∈ [x]
    · simp [setAll_of_mem hy, hy]
    · rw [setAll_of_not_mem hy, h.sparse]
      simp [hy]

/-- The loop over the messages `l`: each is looked at once, so it is
found in the state it had at the start. -/
theorem retryStep_foldl : ∀ (l : List Nat) (acc : ModelQueue × Nat), l.Nodup → ModelOk acc.1 →
    acc.2 < 2 ^ 32 →
    ModelOk (l.foldl retryStep acc).1 ∧
    (l.foldl retryStep acc).1.stateOf = setAll acc.1.stateOf
      (l.filter fun x => decide (acc.1.stateOf x = some .retry)) .sparseReady ∧
    (l.foldl retryStep acc).2 =
      (acc.2 + (l.filter fun x => decide (acc.1.stateOf x = some .retry)).length) % 2 ^ 32 ∧
    (l.foldl retryStep acc).1.states.length = acc.1.states.length := by
  intro l
  induction l with
  | nil =>
    intro acc _ h hlt
    exact ⟨h, by simp, by simpa using (Nat.mod_eq_of_lt hlt).symm, rfl⟩
  | cons x l ih =>
    intro acc hnd h hlt
    rw [nodup_cons] at hnd
    rw [foldl_cons]
    by_cases hx : acc.1.stateOf x = some .retry
    · have hstep : retryStep acc x = ({ acc.1 with
          states := acc.1.states.set x .sparseReady
          sparseReady := acc.1.sparseReady ++ [x] }, (acc.2 + 1) % 2 ^ 32) := if_pos hx
      have hst := stateOf_set (p := .sparseReady) hx acc.1.sequentialHead
        (acc.1.sparseReady ++ [x])
      obtain ⟨i1, i2, i3, i4⟩ := ih (retryStep acc x) hnd.2 (by rw [hstep]; exact retry_ok h hx)
        (by rw [hstep]; exact Nat.mod_lt _ (by decide))
      -- the rest of the list does not contain `x`
      have hsame : (l.filter fun y => decide ((retryStep acc x).1.stateOf y = some .retry)) =
          l.filter fun y => decide (acc.1.stateOf y = some .retry) := by
        refine filter_congr fun y hy => ?_
        have hne : y ∉ [x] := by
          rw [mem_singleton]
          rintro rfl
          exact hnd.1 hy
        rw [hstep, hst, setAll_of_not_mem hne]
      rw [hsame] at i2 i3
      have hfilter : ((x :: l).filter fun y => decide (acc.1.stateOf y = some .retry)) =
          x :: l.filter fun y => decide (acc.1.stateOf y = some .retry) := by
        rw [filter_cons, if_pos (by simpa using hx)]
      refine ⟨i1, ?_, ?_, ?_⟩
      · rw [i2, hstep, hst, setAll_append, hfilter]
        rfl
      · rw [i3, hstep, hfilter, length_cons]
        dsimp only
        rw [Nat.mod_add_mod]
        congr 1
        omega
      · rw [i4, hstep, length_set]
    · have hstep : retryStep acc x = acc := if_neg hx
      have hfilter : ((x :: l).filter fun y => decide (acc.1.stateOf y = some .retry)) =
          l.filter fun y => decide (acc.1.stateOf y = some .retry) := by
        rw [filter_cons, if_neg (by simpa using hx)]
      rw [hstep, hfilter]
      exact ih acc hnd.2 h hlt

/-- **`retry_all_now`** of the reference queue. -/
theorem retryAllNow_ok (h : ModelOk q) :
    ∃ S, ModelOk q.retryAllNow.1 ∧ q.retryAllNow.1.stateOf = setAll q.stateOf S .sparseReady ∧
      S.Nodup ∧ (∀ x, x ∈ S ↔ q.stateOf x = some .retry) ∧
      q.retryAllNow.2 = S.length % 2 ^ 32 ∧
      q.retryAllNow.1.states.length = q.states.length := by
  obtain ⟨h1, h2, h3, h4⟩ := retryStep_foldl (range q.states.length) (q, 0)
    nodup_range h (by simp)
  refine ⟨_, h1, h2, nodup_range.filter _, fun x => ?_, by simpa [retryAllNow] using h3, h4⟩
  rw [mem_filter, decide_eq_true_eq, mem_range]
  exact ⟨fun hx => hx.2, fun hx => ⟨lt_of_stateOf hx, hx⟩⟩

end ModelQueue

end Aurum.Queue
