import Aurum.Consumer.Steps

/-!
# Consumer — the life of a message

What one operation on a shared queue does to one message is said once
(`Lives`): it is published, handed out, settled by the session that holds
it, or made ready again, and it moves in no other way. From there: a
message that is acked stays acked and is never handed out again, messages
are handed out for the first time in the order they were published in, and
whatever is not acked can be handed out again.
-/

namespace Aurum.Consumer.SharedQueue

open Aurum.Queue HybridRangeBlockQueue TaggedDeliverySegment List

variable {sys : SharedQueue} {op : SharedOp} {x : Nat} {st : Nat → Option MessageState}

/-- The messages an operation hands out. -/
def handedSeqs (sys : SharedQueue) (op : SharedOp) : List Nat :=
  (sys.handed op).flatMap seqs

/-! ## One operation and one message -/

/-- What an operation does to message `x`, from its state before to its
state after. -/
inductive Lives (sys : SharedQueue) (op : SharedOp) (x : Nat) :
    Option MessageState → Option MessageState → Prop where
  | stays (p : Option MessageState) (hout : x ∉ sys.handedSeqs op) : Lives sys op x p p
  | published {count : Nat} (hop : op = .publish count) : Lives sys op x none (some .ready)
  | handedOut {p : MessageState} (hp : p = .ready ∨ p = .sparseReady)
      (hout : x ∈ sys.handedSeqs op) : Lives sys op x (some p) (some .inflight)
  | settled {p : MessageState} (hp : p = .acked ∨ p = .retry) {i t : Nat} {s : ConsumerSession}
      (hs : sys.sessions[i]? = some s) (hx : (t, x) ∈ s.entries) (hcov : op.covers i t = true) :
      Lives sys op x (some .inflight) (some p)
  | retried (hop : op = .retryAllNow) : Lives sys op x (some .retry) (some .sparseReady)

theorem handedSeqs_nil (h : sys.handed op = []) (x : Nat) : x ∉ sys.handedSeqs op := by
  simp [handedSeqs, h]

/-- **The step lemma**: an operation moves a message along its life. -/
theorem Owned.lives (h : sys.Owned) (op : SharedOp) (x : Nat) :
    Lives sys op x (sys.queue.debugStateOf x) ((sys.step op).queue.debugStateOf x) := by
  obtain ⟨st, h⟩ := h
  have heff := step_effect h op
  generalize sys.step op = sys' at heff ⊢
  rw [h.denotes.debugStateOf]
  cases heff with
  | refused hfail =>
    rw [h.denotes.debugStateOf]
    exact .stays _ (handedSeqs_nil (handed_of_refused hfail) x)
  | published count =>
    rw [(h.publish count).denotes.debugStateOf, publishAll]
    split
    · next hx =>
      rw [(h.denotes.dom x).mpr hx.1]
      exact .published rfl
    · exact .stays _ (handedSeqs_nil rfl x)
  | opened id channelId prefetch =>
    rw [h.denotes.debugStateOf]
    exact .stays _ (handedSeqs_nil rfl x)
  | @delivered i max n s s' q' S out hs call spec tally =>
    have hseqs : sys.handedSeqs (.deliver i max) = S := by
      rw [handedSeqs, handed_of_ok hs call, spec.out_seqs]
    rw [spec.denotes.debugStateOf]
    by_cases hx : x ∈ S
    · rw [setAll_of_mem hx]
      rcases spec.available x hx with hp | hp <;> rw [hp]
      · exact .handedOut (.inl rfl) (hseqs ▸ hx)
      · exact .handedOut (.inr rfl) (hseqs ▸ hx)
    · rw [setAll_of_not_mem hx]
      exact .stays _ (hseqs ▸ hx)
  | @settled _ i s s' q' take dst hs hok hout hcov spec hdst tally =>
    rw [spec.denotes.debugStateOf]
    by_cases hx : x ∈ (taken take s.entries).map Prod.snd
    · obtain ⟨⟨t, _⟩, he, rfl⟩ := mem_map.mp hx
      obtain ⟨hmem, htake⟩ := mem_filter.mp he
      rw [setAll_of_mem hx, h.entries_inflight (mem_of_getElem? hs) _ hmem]
      exact .settled hdst hs hmem (by simpa [hcov] using htake)
    · rw [setAll_of_not_mem hx]
      exact .stays _ (handedSeqs_nil hout x)
  | retried =>
    obtain ⟨S, hq, -, hS, -⟩ := h.denotes.retryAllNow
    rw [hq.debugStateOf]
    by_cases hx : x ∈ S
    · rw [setAll_of_mem hx, (hS x).mp hx]
      exact .retried rfl
    · rw [setAll_of_not_mem hx]
      exact .stays _ (handedSeqs_nil rfl x)

/-- **The life of a message.** In every run every operation leaves a
message as it is or moves it one step on: published, handed out, settled
by a request for a tag under which it is outstanding, or made ready
again. -/
theorem message_life (ops : List SharedOp) (op : SharedOp) (x : Nat) :
    Lives (run ops) op x ((run ops).queue.debugStateOf x)
      ((run (ops ++ [op])).queue.debugStateOf x) := by
  rw [run_snoc]
  exact (owned_run ops).lives op x

/-- What is acked stays acked, and is not handed out. -/
theorem Owned.acked (h : sys.Owned) (hx : sys.queue.debugStateOf x = some .acked)
    (op : SharedOp) :
    (sys.step op).queue.debugStateOf x = some .acked ∧ x ∉ sys.handedSeqs op := by
  have hlives := h.lives op x
  rw [hx] at hlives
  generalize (sys.step op).queue.debugStateOf x = p at hlives ⊢
  cases hlives with
  | stays _ hout => exact ⟨rfl, hout⟩
  | handedOut hp => rcases hp with hp | hp <;> cases hp

theorem run_append (ops later : List SharedOp) :
    run (ops ++ later) = later.foldl SharedQueue.step (run ops) := foldl_append ..

/-- **Settled for good.** Once a message is acked it stays acked, whatever
operations follow, and none of them hands it out again. -/
theorem acked_for_good {ops : List SharedOp} {x : Nat}
    (h : (run ops).queue.debugStateOf x = some .acked) (later : List SharedOp) :
    (run (ops ++ later)).queue.debugStateOf x = some .acked ∧
      ∀ op, x ∉ (run (ops ++ later)).handedSeqs op := by
  have hstay : (run (ops ++ later)).Owned ∧
      (run (ops ++ later)).queue.debugStateOf x = some .acked := by
    rw [run_append]
    refine foldlRecOn (motive := fun sys : SharedQueue =>
      sys.Owned ∧ sys.queue.debugStateOf x = some .acked) later _ ⟨owned_run ops, h⟩
      fun sys hsys op _ => ⟨hsys.1.step op, (hsys.1.acked hsys.2 op).1⟩
  exact ⟨hstay.2, fun op => (hstay.1.acked hstay.2 op).2⟩

/-- A message that was acked under its tag. -/
def ackedRun : List SharedOp :=
  [.publish 2, .openSession 1 1 .unlimited, .deliver 0 2, .ack 0 ⟨1, .one⟩]

/-- It is not among those a cancel brings back. -/
theorem acked_message_stays :
    (run ackedRun).queue.debugStateOf 0 = some .acked ∧
    (run (ackedRun ++ [.cancel 0 .requeueUnacked, .retryAllNow])).queue.debugStateOf 0 =
        some .acked ∧
      ∀ op, 0 ∉ (run (ackedRun ++ [.cancel 0 .requeueUnacked, .retryAllNow])).handedSeqs op :=
  ⟨by decide +kernel, acked_for_good (by decide +kernel) _⟩

/-! ## The order of first deliveries -/

/-- The messages of the segments that carry no flag. -/
def firsts (segs : List TaggedDeliverySegment) : List Nat :=
  (segs.filter fun seg => !seg.redelivered).flatMap seqs

theorem firsts_append (segs more : List TaggedDeliverySegment) :
    firsts (segs ++ more) = firsts segs ++ firsts more := by
  simp [firsts]

theorem mem_firsts {segs : List TaggedDeliverySegment} :
    x ∈ firsts segs ↔ ∃ seg ∈ segs, seg.redelivered = false ∧ x ∈ seg.seqs := by
  simp [firsts, and_assoc]

/-- An interval is known by its members. -/
theorem range'_eq_of_mem {a n lo hi : Nat} (h : ∀ x, x ∈ range' a n ↔ lo ≤ x ∧ x < hi) :
    range' a n = range' lo (hi - lo) := by
  simp only [mem_range'_1] at h
  by_cases hn : n = 0
  · have := h lo
    rw [hn, show hi - lo = 0 by omega]
    rfl
  · have ha := h a
    have hlast := h (a + n - 1)
    have hlo := h lo
    have hhi := h (hi - 1)
    obtain rfl : a = lo := by omega
    rw [show n = hi - a by omega]

/-- One delivery: the unflagged messages are the next ones in line. -/
theorem firsts_out {q q' : HybridRangeBlockQueue} {out : List TaggedDeliverySegment}
    (hq : q.Denotes st) (hout : Handout st out) (hm : MarksRepeats q q' out) :
    firsts out = range' q.sequentialHead (q'.sequentialHead - q.sequentialHead) := by
  have hmem : ∀ x, x ∈ firsts out ↔ q.sequentialHead ≤ x ∧ x < q'.sequentialHead := by
    intro x
    rw [mem_firsts, hm.head]
    constructor
    · rintro ⟨seg, hseg, hflag, hx⟩
      have := hm.flag seg hseg x hx
      rw [hflag] at this
      exact ⟨by simpa using this, .inr ⟨seg, hseg, hx⟩⟩
    · rintro ⟨hge, hlt | ⟨seg, hseg, hx⟩⟩
      · omega
      · refine ⟨seg, hseg, ?_, hx⟩
        rw [Bool.eq_false_iff, ne_eq, hm.flag seg hseg x hx]
        omega
  obtain ⟨ranges, masks, rfl, hone, hfresh, hsparse⟩ := hout
  -- the messages of a mask were handed out before
  have hnone : firsts masks = [] := by
    refine eq_nil_iff_forall_not_mem.mpr fun x hx => ?_
    obtain ⟨seg, hseg, -, hxs⟩ := mem_firsts.mp hx
    have hge := ((hmem x).mp (by rw [firsts_append]; exact mem_append_right _ hx)).1
    have hstate := hsparse seg hseg
    cases seg with
    | range => exact hstate
    | mask => exact absurd ((hq.lt_head x).mpr (by simp [hstate x hxs])) (by omega)
  rw [firsts_append, hnone, List.append_nil] at hmem ⊢
  obtain ⟨a, n, heq⟩ : ∃ a n, firsts ranges = range' a n := by
    cases ranges with
    | nil => exact ⟨0, 0, rfl⟩
    | cons seg ranges =>
      obtain rfl : ranges = [] := length_eq_zero_iff.mp (by simpa using hone)
      have hready := hfresh seg mem_cons_self
      cases seg with
      | range tag r fl =>
        cases fl
        · exact ⟨r.startSeq, r.len, by simp [firsts, redelivered, seqs, DeliveryRange.seqs]⟩
        · exact ⟨0, 0, by simp [firsts, redelivered]⟩
      | mask => exact absurd hready id
  rw [heq] at hmem ⊢
  exact range'_eq_of_mem hmem

/-- The step lemma: an operation moves the sequential head over what it
hands out for the first time. -/
theorem Tracks.firsts_handed {past : List TaggedDeliverySegment} (h : sys.Tracks past)
    (op : SharedOp) : firsts (sys.handed op) = range' sys.queue.sequentialHead
      ((sys.step op).queue.sequentialHead - sys.queue.sequentialHead) := by
  obtain ⟨st, howns⟩ := h.owned
  have hhead := (h.step op).1.head
  have heff := step_effect howns op
  generalize sys.step op = sys' at hhead heff ⊢
  -- an operation that hands nothing out leaves the head where it is
  have hquiet (hnil : sys.handed op = []) : firsts (sys.handed op) = range'
      sys.queue.sequentialHead (sys'.queue.sequentialHead - sys.queue.sequentialHead) := by
    have heq : sys'.queue.sequentialHead = sys.queue.sequentialHead :=
      eq_of_forall_lt_iff fun x => by rw [hhead, h.head, hnil, List.append_nil]
    rw [hnil, heq, Nat.sub_self]
    rfl
  cases heff with
  | refused hfail => exact hquiet (handed_of_refused hfail)
  | published | opened | retried => exact hquiet rfl
  | settled _ _ hout => exact hquiet hout
  | delivered hs call spec =>
    rw [handed_of_ok hs call]
    exact firsts_out howns.denotes spec.handout
      (deliverFromQueue_marksRepeats (howns.ok _ (mem_of_getElem? hs)) howns.denotes h.flagged call)

/-- **First deliveries come in order.** In every run, over all sessions,
the unflagged deliveries are the messages `0, 1, 2, …` up to the
sequential head, each of them once: none is skipped or overtaken. -/
theorem first_deliveries_in_order (ops : List SharedOp) :
    firsts (deliveries ops) = List.range (run ops).queue.sequentialHead := by
  have key : (run ops).Tracks (deliveries ops) ∧
      firsts (deliveries ops) = List.range (run ops).queue.sequentialHead := by
    induction ops using List.reverseRecOn with
    | nil => exact ⟨tracks_empty, rfl⟩
    | append_singleton ops op ih =>
      obtain ⟨htracks, ih⟩ := ih
      have hnext := (htracks.step op).1
      have hle : (run ops).queue.sequentialHead ≤ ((run ops).step op).queue.sequentialHead := by
        refine le_of_forall_lt fun x hx => (hnext.head x).mpr ?_
        obtain ⟨seg, hseg, hxs⟩ := (htracks.head x).mp hx
        exact ⟨seg, mem_append_left _ hseg, hxs⟩
      have hsnoc : deliveries (ops ++ [op]) = deliveries ops ++ (run ops).handed op :=
        deliveriesFrom_snoc op ops empty
      rw [hsnoc, run_snoc]
      refine ⟨hnext, ?_⟩
      have hcat := range'_append_1 (s := 0) (m := (run ops).queue.sequentialHead)
        (n := ((run ops).step op).queue.sequentialHead - (run ops).queue.sequentialHead)
      rw [firsts_append, ih, htracks.firsts_handed, range_eq_range', range_eq_range']
      rwa [Nat.zero_add, Nat.add_sub_cancel' hle] at hcat
  exact key.2

/-! ## Recovery -/

/-- The first `k` sessions were emptied; a message is as before, or back
from inflight and waiting for a retry. -/
structure Emptied (before after : SharedQueue) (k : Nat) : Prop where
  owned : after.Owned
  length : after.sessions.length = before.sessions.length
  empty : ∀ j < k, ∀ s, after.sessions[j]? = some s → s.entries = []
  state : ∀ x, after.queue.debugStateOf x = before.queue.debugStateOf x ∨
    before.queue.debugStateOf x = some .inflight ∧ after.queue.debugStateOf x = some .retry

/-- The step lemma: a cancel that requeues empties its session. -/
theorem Emptied.cancel {mid : SharedQueue} {k : Nat} (h : Emptied sys mid k)
    (hk : k < sys.sessions.length) :
    Emptied sys (mid.step (.cancel k .requeueUnacked)) (k + 1) := by
  have howned := h.owned.step (.cancel k .requeueUnacked)
  obtain ⟨st, ho⟩ := h.owned
  obtain ⟨s, hs⟩ : ∃ s, mid.sessions[k]? = some s := ⟨_, getElem?_eq_getElem (h.length ▸ hk)⟩
  have hin := ho.entries_inflight (mem_of_getElem? hs)
  have spec := (cancel_spec (ho.ok s (mem_of_getElem? hs)) ho.denotes hin .requeueUnacked).1
  have hstep : mid.step (.cancel k .requeueUnacked) = ⟨(s.cancel .requeueUnacked mid.queue).2.1,
      mid.sessions.set k (s.cancel .requeueUnacked mid.queue).1⟩ := by
    simp [SharedQueue.step, onSession, hs]
  rw [hstep] at howned ⊢
  refine ⟨howned, by rw [length_set, h.length], fun j hj s1 hs1 => ?_, fun x => ?_⟩
  · rw [getElem?_set] at hs1
    split at hs1
    · obtain ⟨-, rfl⟩ : _ ∧ _ = s1 := by simpa using hs1
      rw [spec.entries, taken_none fun _ _ => rfl]
    · exact h.empty j (by omega) s1 hs1
  · have hstate := h.state x
    rw [ho.denotes.debugStateOf] at hstate
    rw [spec.denotes.debugStateOf]
    by_cases hx : x ∈ (taken (fun _ => true) s.entries).map Prod.snd
    · obtain ⟨e, he, rfl⟩ := mem_map.mp hx
      rw [hin e (mem_filter.mp he).1] at hstate
      rw [setAll_of_mem hx]
      exact .inr ⟨by simpa [eq_comm] using hstate, rfl⟩
    · rwa [setAll_of_not_mem hx]

theorem Emptied.not_inflight {mid : SharedQueue} (h : Emptied sys mid sys.sessions.length)
    (hm : Owns mid.queue st mid.sessions) (x : Nat) : st x ≠ some .inflight := by
  intro hx
  obtain ⟨s, hs, tag, he⟩ := mem_holdings.mp ((hm.inflight x).mp hx)
  obtain ⟨j, hj, rfl⟩ := mem_iff_getElem.mp hs
  simp [h.empty j (h.length ▸ hj) _ (getElem?_eq_getElem hj)] at he

/-- Every one of the first `k` sessions is cancelled. -/
def cancels (k : Nat) : List SharedOp := (List.range k).map (.cancel · .requeueUnacked)

theorem emptied_cancels (h : sys.Owned) (k : Nat) (hk : k ≤ sys.sessions.length) :
    Emptied sys ((cancels k).foldl step sys) k := by
  induction k with
  | zero => exact ⟨h, rfl, fun j hj => absurd hj (Nat.not_lt_zero j), fun x => .inl rfl⟩
  | succ k ih =>
    have hsnoc : cancels (k + 1) = cancels k ++ [.cancel k .requeueUnacked] := by
      simp [cancels, range_succ]
    rw [hsnoc, foldl_append]
    exact (ih (by omega)).cancel hk

/-- What a new session is handed when all others were cancelled and their
messages retried. -/
def recovered (ops : List SharedOp) (max : Nat) : List Nat :=
  (run (ops ++ cancels (run ops).sessions.length ++
    [.retryAllNow, .openSession 0 0 .unlimited])).handedSeqs (.deliver (run ops).sessions.length max)

/-- **Nothing is lost.** After any run, when all sessions are cancelled
and their messages retried, a new session is handed exactly the published
messages that are not acked, each of them once. -/
theorem unacked_recovered (ops : List SharedOp) {max : Nat}
    (hmax : (run ops).queue.nextSeq < min u32Max max) :
    (recovered ops max).Nodup ∧ ∀ x, x ∈ recovered ops max ↔
      x < (run ops).queue.nextSeq ∧ (run ops).queue.debugStateOf x ≠ some .acked := by
  obtain ⟨st, h⟩ := owned_run ops
  have hrun := run_append (ops ++ cancels (run ops).sessions.length)
    [.retryAllNow, .openSession 0 0 .unlimited]
  rw [run_append ops, foldl_cons, foldl_cons, foldl_nil] at hrun
  have hcancels := emptied_cancels (owned_run ops) _ le_rfl
  generalize (cancels (run ops).sessions.length).foldl SharedQueue.step (run ops) = sys
    at hrun hcancels
  have hstate := hcancels.state
  obtain ⟨mid, hm⟩ := hcancels.owned
  obtain ⟨R, hR, -, hmem, -⟩ := hm.denotes.retryAllNow
  obtain ⟨S, s', q', segs, c, call, spec⟩ :=
    deliverFromQueue_spec (sessionOk_new 0 0 .unlimited) hR rfl max
  have hrec : recovered ops max = S := by
    have hout : SharedQueue.handed ⟨sys.queue.retryAllNow.1, sys.sessions ++ [.new 0 0 .unlimited]⟩
        (.deliver (run ops).sessions.length max) = segs :=
      handed_of_ok (by simp [← hcancels.length]) call
    rw [recovered, hrun, handedSeqs, ← spec.out_seqs]
    exact congrArg (flatMap seqs) hout
  simp only [hm.denotes.debugStateOf, h.denotes.debugStateOf] at hstate ⊢
  -- no session holds anything, so what is not acked is there to be handed out
  have hready : ∀ x, (setAll mid R .sparseReady x = some .ready ∨
      setAll mid R .sparseReady x = some .sparseReady) ↔
        x < (run ops).queue.nextSeq ∧ st x ≠ some .acked := by
    intro x
    have hno := hcancels.not_inflight hm x
    rw [← not_le, ← h.denotes.dom]
    simp only [setAll, hmem]
    rcases hstate x with hx | ⟨hx, hretry⟩
    · rw [← hx]
      generalize mid x = p at hno ⊢
      rcases p with _ | p
      · simp
      · cases p <;> simp at hno ⊢
    · simp [hx, hretry]
  have hlt : S.length < min u32Max max := lt_of_le_of_lt
    (length_le_of_lt spec.nodup fun x hx => ((hready x).mp (spec.available x hx)).1) hmax
  rw [hrec]
  refine ⟨spec.nodup, fun x => ⟨fun hx => (hready x).mp (spec.available x hx), fun hx => ?_⟩⟩
  by_contra hxS
  exact ((hready x).mpr hx).elim (spec.exhausted hlt x hxS).1 (spec.exhausted hlt x hxS).2

/-- The message left unacked is handed out again. -/
theorem unacked_recovered_one :
    (run ackedRun).queue.nextSeq < min u32Max 5 ∧ recovered ackedRun 5 = [1] ∧
      ∀ x, x ∈ recovered ackedRun 5 ↔
        x < (run ackedRun).queue.nextSeq ∧ (run ackedRun).queue.debugStateOf x ≠ some .acked :=
  ⟨by decide +kernel, by decide +kernel, (unacked_recovered ackedRun (by decide +kernel)).2⟩

end Aurum.Consumer.SharedQueue
