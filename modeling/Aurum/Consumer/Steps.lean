import Aurum.Consumer.Redelivered

/-!
# Consumer — prefetch

The credit, the window counter and the window contents of a session with
a limited prefetch agree in every reachable state.
-/

namespace Aurum.Consumer

open Aurum.Bits Aurum.Kernels Aurum.Queue List ConsumerSession

namespace SharedQueue

variable {sys : SharedQueue} {st : Nat → Option MessageState}

/-- A refused operation delivers nothing. -/
theorem handed_of_refused {op : SharedOp} (h : sys.succeeds op = false) : sys.handed op = [] := by
  cases op with
  | deliver i max =>
    rw [handed]
    rw [succeeds] at h
    cases hs : sys.sessions[i]? with
    | none => rfl
    | some s =>
      rw [hs] at h
      dsimp only
      cases hres : s.deliverFromQueue sys.queue max with
      | error e => rfl
      | ok res => simp [hres, Except.isOk, Except.toBool] at h
  | _ => rfl

variable {s s' : ConsumerSession} {q' q : HybridRangeBlockQueue} {out : List TaggedDeliverySegment}

/-- A delivery hands out what the call returns. -/
theorem handed_of_ok {i max n : Nat} (hs : sys.sessions[i]? = some s)
    (call : s.deliverFromQueue sys.queue max = .ok (s', q', out, n)) :
    sys.handed (.deliver i max) = out := by
  simp only [handed, hs, call]

theorem run_snoc (ops : List SharedOp) (op : SharedOp) : run (ops ++ [op]) = (run ops).step op := by
  simp [run]

/-! ## Prefetch -/

/-- The two counters of a session with a limited prefetch are right. -/
def Counted (s : ConsumerSession) : Prop :=
  ∀ p, s.credit.mode = .limited p → Exact s

/-- A limited prefetch keeps the number of entries within a `u32`. -/
theorem entries_lt_of_limited (h : SessionOk s) {p : UInt32} (hp : s.credit.mode = .limited p) :
    s.entries.length < 2 ^ 32 :=
  Nat.lt_of_le_of_lt (h.limit p hp).2 p.toNat_lt

theorem Counted.delivers {S : List Nat} {asked n : Nat} (h : Counted s)
    (hd : SessionDelivers s q st asked S s' q' out n) : Counted s' := fun p hp =>
  hd.exact (h p (hd.frame.2.1 ▸ hp)) (entries_lt_of_limited hd.ok hp)

theorem Counted.settles {take : Nat → Bool} {dst : MessageState} (h : Counted s)
    (hs : SessionOk s) (hset : Settles take dst s q st s' q') : Counted s' := fun p hp =>
  have hp' : s.credit.mode = .limited p := hset.frame.1 ▸ hp
  hset.exact (h p hp') (entries_lt_of_limited hs hp')

/-- Replacing a session by one with a property all the others have. -/
theorem forall_mem_set {P : ConsumerSession → Prop} {l : List ConsumerSession} {i : Nat}
    (h : ∀ s ∈ l, P s) (hs' : P s') : ∀ s ∈ l.set i s', P s := by
  intro s hs
  rcases mem_or_eq_of_mem_set hs with hs | rfl
  · exact h s hs
  · exact hs'

theorem counted_step (h : Owns sys.queue st sys.sessions) (hc : ∀ s ∈ sys.sessions, Counted s)
    (op : SharedOp) : ∀ s ∈ (sys.step op).sessions, Counted s := by
  have heff := step_effect h op
  generalize sys.step op = sys' at heff ⊢
  cases heff with
  | refused => exact hc
  | published => exact hc
  | retried => exact hc
  | opened id channelId prefetch =>
    intro s hs
    rcases mem_append.mp hs with hs | hs
    · exact hc s hs
    · rw [mem_singleton.mp hs]
      exact fun _ _ => exact_new id channelId prefetch
  | delivered hs _ spec _ =>
    exact forall_mem_set hc ((hc _ (mem_of_getElem? hs)).delivers spec)
  | settled hs _ _ _ spec _ _ =>
    have hmem := mem_of_getElem? hs
    exact forall_mem_set hc ((hc _ hmem).settles (h.ok _ hmem) spec)

theorem counted_run (ops : List SharedOp) : ∀ s ∈ (run ops).sessions, Counted s := by
  induction ops using reverseRecOn with
  | nil => simp [run, empty]
  | append_singleton ops op ih =>
    obtain ⟨st, h⟩ := owned_run ops
    rw [run_snoc]
    exact counted_step h ih op

/-- The credit on which `deliver_from_queue` calls `reserve`. -/
theorem credit_tagged (s : ConsumerSession) (queue : HybridRangeBlockQueue)
    (ranges : List DeliveryRange) (masks : List DeliveryMask) :
    (masks.foldl (tagMask queue)
      (ranges.foldl tagRange (s, []))).1.credit = s.credit := by
  have hr : ∀ (l : List DeliveryRange) acc,
      (l.foldl tagRange acc).1.credit = acc.1.credit := by
    intro l
    induction l with
    | nil => exact fun _ => rfl
    | cons r l ih => exact fun acc => ih _
  have hm : ∀ (l : List DeliveryMask) acc,
      (l.foldl (tagMask queue) acc).1.credit = acc.1.credit := by
    intro l
    induction l with
    | nil => exact fun _ => rfl
    | cons m l ih => exact fun acc => ih _
  rw [hm, hr]

/-- **Prefetch is respected.** In every state of a run, for a session
with a limited prefetch `p`: the credit in flight, the window counter
and the number of outstanding entries are equal and at most `p`; the
`reserve` inside `deliver_from_queue` succeeds whatever is asked for;
and both counters are 0 right after a `cancel` and from then on. -/
theorem prefetch_respected (ops : List SharedOp) {s : ConsumerSession}
    (hs : s ∈ (run ops).sessions) {p : UInt32} (hp : s.credit.mode = .limited p) :
    (s.inFlightCredit = s.unackedCount ∧ s.unackedCount = s.entries.length ∧
      s.unackedCount ≤ p.toNat) ∧
    (∀ max, let res := (run ops).queue.deliver (min s.credit.available max)
      ∃ c, (res.2.1.masks.foldl (ConsumerSession.tagMask res.1)
        (res.2.1.ranges.foldl ConsumerSession.tagRange (s, []))).1.credit.reserve res.2.2 =
          .ok c) ∧
    (∀ disp, ((s.cancel disp (run ops).queue).1.inFlightCredit = 0 ∧
      (s.cancel disp (run ops).queue).1.unackedCount = 0)) ∧
    (s.cancelled = true → s.inFlightCredit = 0 ∧ s.unackedCount = 0) := by
  obtain ⟨st, h⟩ := owned_run ops
  have hok := h.ok s hs
  have hexact := counted_run ops s hs p hp
  have hlimit := (hok.limit p hp).2
  refine ⟨⟨?_, hexact.1, ?_⟩, fun max => ?_, fun disp => ?_, fun hcan => ?_⟩
  · exact hexact.2.trans hexact.1.symm
  · exact hexact.1.trans_le hlimit
  · -- `deliver` hands out at most what was asked for, and that is available
    have hle := (h.denotes.deliver (min s.credit.available max)).2.1.le
    have hcount := (h.denotes.deliver (min s.credit.available max)).2.1.count
    dsimp only
    rw [credit_tagged]
    generalize (run ops).queue.deliver (min s.credit.available max) = res at hle hcount ⊢
    by_cases h0 : res.2.2 = 0
    · have hin := hexact.2
      have hlt := p.toNat_lt
      rw [h0]
      exact ⟨_, by simp only [ConsumerCredit.reserve, hp]; rw [if_neg (by omega)]⟩
    · obtain ⟨c, hc, -⟩ := reserve_available h0 (c := s.credit) (by omega)
      exact ⟨c, hc⟩
  · obtain ⟨hset, hcan, -⟩ := cancel_spec hok h.denotes (h.entries_inflight hs) disp
    have hex := hset.exact hexact (entries_lt_of_limited hok hp)
    rw [Exact, hset.ok.drained hcan] at hex
    exact ⟨hex.2, hex.1⟩
  · rw [Exact, hok.drained hcan] at hexact
    exact ⟨hexact.2, hexact.1⟩

/-- Two of five messages delivered under a prefetch of 2, one acked. -/
theorem prefetch_of_two : ∃ s ∈ (run [.openSession 1 1 (.limited 2), .publish 5, .deliver 0 4,
        .ack 0 ⟨1, .one⟩]).sessions,
      s.credit.mode = .limited 2 ∧ s.inFlightCredit = s.unackedCount ∧ s.unackedCount = 1 := by
  have hmem : ∀ {l : List ConsumerSession} (h : 0 < l.length), l[0] ∈ l :=
    fun h => getElem_mem h
  refine ⟨_, hmem (by decide), by decide, ?_, by decide⟩
  exact (prefetch_respected _ (hmem (by decide)) (p := 2) (by decide)).1.1

end SharedQueue

end Aurum.Consumer
