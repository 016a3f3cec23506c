import Aurum.Consumer.Steps

/-!
# Consumer — the accounts of a queue

The totals of a queue are bumped by requested lengths, so they mean
something only because every call names distinct messages in the state
it expects. Over a run they form one conservation law: every delivery of
a message is acknowledged, nacked or still inflight; every nack was
retried or still waits; every retry led to a redelivery or is still due.
-/

namespace Aurum.Consumer

open Aurum.Bits Aurum.Kernels Aurum.Queue List TaggedDeliverySegment

/-! ## Repetitions in a list -/

/-- How many items of a list stand in `past` or earlier in the list. -/
def repeatsFrom (past : List Nat) : List Nat → Nat
  | [] => 0
  | x :: xs => (if x ∈ past then 1 else 0) + repeatsFrom (x :: past) xs

theorem repeatsFrom_append : ∀ (xs ys past : List Nat),
    repeatsFrom past (xs ++ ys) = repeatsFrom past xs + repeatsFrom (xs.reverse ++ past) ys := by
  intro xs
  induction xs with
  | nil => exact fun ys past => by simp [repeatsFrom]
  | cons x xs ih =>
    intro ys past
    rw [cons_append, repeatsFrom, repeatsFrom, ih, reverse_cons, List.append_assoc]
    simp only [singleton_append]
    omega

/-- Without repetitions of its own, a list repeats what it shares with
the past. -/
theorem repeatsFrom_nodup : ∀ (xs past : List Nat), xs.Nodup →
    repeatsFrom past xs = xs.countP fun x => decide (x ∈ past) := by
  intro xs
  induction xs with
  | nil => exact fun _ _ => rfl
  | cons x xs ih =>
    intro past hnd
    obtain ⟨hx, hnd⟩ := nodup_cons.mp hnd
    have hcongr : (xs.countP fun y => decide (y ∈ x :: past)) =
        xs.countP fun y => decide (y ∈ past) := by
      refine countP_congr fun y hy => ?_
      have hne : y ≠ x := fun hc => hx (hc ▸ hy)
      simp [hne]
    rw [repeatsFrom, ih _ hnd, hcongr, countP_cons]
    simp only [decide_eq_true_eq]
    omega

namespace SharedQueue

/-- The messages a run delivers, in order and with repetitions. -/
def delivered (ops : List SharedOp) : List Nat :=
  (deliveries ops).flatMap seqs

/-- The deliveries of a run that were not the first of their message. -/
def redeliveries (ops : List SharedOp) : Nat := repeatsFrom [] (delivered ops)

variable {sys : SharedQueue} {st : Nat → Option MessageState} {ops : List SharedOp}

theorem delivered_snoc (ops : List SharedOp) (op : SharedOp) : delivered (ops ++ [op]) =
    delivered ops ++ ((run ops).handed op).flatMap seqs := by
  rw [delivered, deliveries, deliveriesFrom_snoc, flatMap_append]
  rfl

theorem tracks_run (ops : List SharedOp) : (run ops).Tracks (deliveries ops) := by
  induction ops using reverseRecOn with
  | nil => exact tracks_empty
  | append_singleton ops op ih =>
    rw [run_snoc, deliveries, deliveriesFrom_snoc]
    exact (ih.step op).1

/-- The messages delivered so far are those that are not ready. -/
theorem mem_delivered (h : Owns (run ops).queue st (run ops).sessions) (x : Nat) :
    x ∈ delivered ops ↔ st x ≠ none ∧ st x ≠ some .ready := by
  rw [← h.denotes.lt_head, (tracks_run ops).head, delivered, mem_flatMap]

/-- What an operation hands out, each message once. -/
theorem handed_spec (h : Owns sys.queue st sys.sessions) (op : SharedOp) :
    ((sys.handed op).flatMap seqs).Nodup ∧
      ∀ x ∈ (sys.handed op).flatMap seqs,
        st x = some .ready ∨ st x = some .sparseReady := by
  have heff := step_effect h op
  generalize sys.step op = sys' at heff
  cases heff with
  | refused hfail => simp [handed_of_refused hfail]
  | published => simp [handed]
  | opened => simp [handed]
  | retried => simp [handed]
  | settled _ _ hout => simp [hout]
  | delivered hs call spec =>
    rw [handed_of_ok hs call, spec.out_seqs]
    exact ⟨spec.nodup, spec.available⟩

/-- **The redeliveries of one operation** are the sparse messages it
hands out. -/
theorem redeliveries_snoc (h : Owns (run ops).queue st (run ops).sessions) (op : SharedOp) :
    redeliveries (ops ++ [op]) = redeliveries ops +
      (((run ops).handed op).flatMap seqs).countP
        fun x => decide (st x = some .sparseReady) := by
  obtain ⟨hnd, havail⟩ := handed_spec h op
  rw [redeliveries, delivered_snoc, repeatsFrom_append, repeatsFrom_nodup _ _ hnd]
  congr 1
  refine countP_congr fun x hx => ?_
  rw [decide_eq_true_eq, decide_eq_true_eq, List.append_nil, mem_reverse, mem_delivered h]
  rcases havail x hx with hr | hr
  · simp [hr]
  · simp [hr]

/-! ## The accounts -/

/-- The totals of a queue agree with its messages, given the number of
redeliveries made. -/
structure Accounts (q : HybridRangeBlockQueue) (redelivered : Nat) : Prop where
  published : q.stats.totalPublished = q.nextSeq
  acked : q.stats.totalAcked = countState q.debugStateOf q.nextSeq .acked
  delivered : q.stats.totalDelivered = q.stats.totalAcked + q.stats.totalNacked +
    countState q.debugStateOf q.nextSeq .inflight
  nacked : q.stats.totalNacked =
    q.stats.totalRetried + countState q.debugStateOf q.nextSeq .retry
  retried : q.stats.totalRetried =
    redelivered + countState q.debugStateOf q.nextSeq .sparseReady

theorem accounts_empty : Accounts HybridRangeBlockQueue.empty 0 :=
  ⟨rfl, rfl, rfl, rfl, rfl⟩

variable {q q' : HybridRangeBlockQueue} {r : Nat}

theorem Accounts.publish (h : Accounts q r) (hq : q.Denotes st) (count : Nat) :
    Accounts (q.publishContiguous count).1 r := by
  obtain ⟨hq', hnext, -⟩ := hq.publishContiguous count
  have hst : q.debugStateOf = st := funext hq.debugStateOf
  have hst' : (q.publishContiguous count).1.debugStateOf = _ := funext hq'.debugStateOf
  have hstats := q.stats_publishContiguous count
  -- none of the counted states gains a message
  have hcount : ∀ p, p ≠ .ready → countState (q.publishContiguous count).1.debugStateOf
      (q.publishContiguous count).1.nextSeq p = countState q.debugStateOf q.nextSeq p := by
    intro p hp
    rw [hst', hnext, hst]
    exact countState_publishAll hp (fun x hx => (hq.dom x).mpr hx) count
  obtain ⟨h1, h2, h3, h4, h5⟩ := h
  refine ⟨?_, ?_, ?_, ?_, ?_⟩
  · rw [hstats, hnext]
    simp only
    omega
  all_goals
    rw [hcount _ (by simp), hstats]
    assumption

variable {s s' : ConsumerSession}

theorem Accounts.deliver {asked n : Nat} {S : List Nat} {out : List TaggedDeliverySegment}
    (h : Accounts q r) (hq : q.Denotes st) (hd : SessionDelivers s q st asked S s' q' out n)
    (tally : q'.stats = { q.stats with totalDelivered := q.stats.totalDelivered + n }) :
    Accounts q' (r + S.countP fun x => decide (st x = some .sparseReady)) := by
  have hst : q.debugStateOf = st := funext hq.debugStateOf
  have hst' : q'.debugStateOf = _ := funext hd.denotes.debugStateOf
  have hlt : ∀ x ∈ S, x < q.nextSeq := fun x hx =>
    (hd.available x hx).elim (fun h => hq.lt_next h) fun h => hq.lt_next h
  have hno : ∀ x ∈ S, ∀ p, p ≠ .ready → p ≠ .sparseReady → st x ≠ some p := by
    intro x hx p h1 h2 hc
    rcases hd.available x hx with h | h
    · exact h1 (Option.some.inj (hc.symm.trans h))
    · exact h2 (Option.some.inj (hc.symm.trans h))
  obtain ⟨h1, h2, h3, h4, h5⟩ := h
  rw [hst] at h2 h3 h4 h5
  have hacked := @countState_setAll_other st q.nextSeq S .inflight .acked (by simp)
    fun x hx => hno x hx _ (by simp) (by simp)
  have hretry := @countState_setAll_other st q.nextSeq S .inflight .retry (by simp)
    fun x hx => hno x hx _ (by simp) (by simp)
  have hinflight := countState_setAll_same hd.nodup hlt
    fun x hx => hno x hx .inflight (by simp) (by simp)
  have hsparse := @countState_setAll_leave st q.nextSeq S .inflight .sparseReady (by simp)
    hd.nodup hlt
  have hn := hd.count
  refine ⟨?_, ?_, ?_, ?_, ?_⟩
  all_goals
    rw [tally, hd.nextSeq]
    try rw [hst']
    simp only
    omega

theorem Accounts.settle {take : Nat → Bool} {dst : MessageState} (h : Accounts q r)
    (hq : q.Denotes st) (hset : Settles take dst s q st s' q')
    (hin : ∀ e ∈ s.entries, st e.2 = some .inflight) (hnd : (s.entries.map Prod.snd).Nodup)
    (hdst : dst = .acked ∨ dst = .retry)
    (tally : q'.stats = HybridRangeBlockQueue.settledStats dst q.stats
      (taken take s.entries).length) : Accounts q' r := by
  have hst : q.debugStateOf = st := funext hq.debugStateOf
  have hst' : q'.debugStateOf = _ := funext hset.denotes.debugStateOf
  have hnext := hset.nextSeq
  have hlen : ((taken take s.entries).map Prod.snd).length = (taken take s.entries).length :=
    length_map ..
  have hS : ∀ x ∈ (taken take s.entries).map Prod.snd, st x = some .inflight := by
    intro x hx
    obtain ⟨e, he, rfl⟩ := mem_map.mp hx
    exact hin e (mem_filter.mp he).1
  have hnd' : ((taken take s.entries).map Prod.snd).Nodup :=
    hnd.sublist (filter_sublist.map _)
  generalize (taken take s.entries).map Prod.snd = S at hst' hlen hS hnd'
  have hlt : ∀ x ∈ S, x < q.nextSeq := fun x hx => hq.lt_next (hS x hx)
  -- the messages leave `inflight` for `dst`; the other two states do not see them
  have hall : S.countP (fun x => decide (st x = some .inflight)) = S.length :=
    countP_eq_length.mpr fun x hx => by simp [hS x hx]
  have hleave := @countState_setAll_leave st q.nextSeq S dst .inflight
    (by rcases hdst with rfl | rfl <;> simp) hnd' hlt
  have hgain := @countState_setAll_same st q.nextSeq S dst hnd' hlt
    fun x hx => by rcases hdst with rfl | rfl <;> simp [hS x hx]
  have hother : ∀ p, p ≠ dst → p ≠ .inflight →
      countState (setAll st S dst) q.nextSeq p = countState st q.nextSeq p := fun p hp hne =>
    countState_setAll_other hp fun x hx => by simp [hS x hx, Ne.symm hne]
  obtain ⟨h1, h2, h3, h4, h5⟩ := h
  rw [hst] at h2 h3 h4 h5
  have hsparse := hother .sparseReady (by rcases hdst with rfl | rfl <;> simp) (by simp)
  rcases hdst with rfl | rfl
  · have hretry := hother .retry (by simp) (by simp)
    refine ⟨?_, ?_, ?_, ?_, ?_⟩
    all_goals
      rw [tally, hnext]
      try rw [hst']
      simp only [HybridRangeBlockQueue.settledStats, HybridRangeBlockQueue.addAcked]
      omega
  · have hacked := hother .acked (by simp) (by simp)
    refine ⟨?_, ?_, ?_, ?_, ?_⟩
    all_goals
      rw [tally, hnext]
      try rw [hst']
      simp only [HybridRangeBlockQueue.settledStats, HybridRangeBlockQueue.addNackedTo]
      omega

/-- `retry_all_now` counts in a `u32`. -/
theorem Accounts.retry (h : Accounts q r) (hq : q.Denotes st) (hlt : q.nextSeq < 2 ^ 32) :
    Accounts q.retryAllNow.1 r := by
  obtain ⟨S, hq', hnd, hS, hmoved, hnext⟩ := hq.retryAllNow
  have hst : q.debugStateOf = st := funext hq.debugStateOf
  have hst' : q.retryAllNow.1.debugStateOf = _ := funext hq'.debugStateOf
  have hstats := q.stats_retryAllNow
  have hbound : ∀ x ∈ S, x < q.nextSeq := fun x hx => hq.lt_next ((hS x).mp hx)
  have hlen := countState_of_list hnd hS hbound
  have hle : S.length ≤ q.nextSeq := by
    have hsub := (subperm_of_subset hnd fun x hx => mem_range.mpr (hbound x hx)).length_le
    rwa [length_range] at hsub
  rw [Nat.mod_eq_of_lt (by omega)] at hmoved
  have hnone := @countState_setAll_all st q.nextSeq S .sparseReady (by simp) hS
  have hgain := @countState_setAll_same st q.nextSeq S .sparseReady hnd hbound
    fun x hx => by simp [(hS x).mp hx]
  have hother : ∀ p, p ≠ .sparseReady → p ≠ .retry →
      countState (setAll st S .sparseReady) q.nextSeq p = countState st q.nextSeq p :=
    fun p hp hne => countState_setAll_other hp fun x hx => by simp [(hS x).mp hx, Ne.symm hne]
  have hacked := hother .acked (by simp) (by simp)
  have hinflight := hother .inflight (by simp) (by simp)
  obtain ⟨h1, h2, h3, h4, h5⟩ := h
  rw [hst] at h2 h3 h4 h5
  refine ⟨?_, ?_, ?_, ?_, ?_⟩
  all_goals
    rw [hstats, hnext]
    try rw [hst']
    simp only
    omega

/-! ## Runs -/

/-- The messages of one session are held once. -/
theorem nodup_entries {sessions : List ConsumerSession} (h : Owns q st sessions)
    (hs : s ∈ sessions) : (s.entries.map Prod.snd).Nodup := by
  obtain ⟨pre, post, rfl⟩ := append_of_mem hs
  have hnd := h.nodup
  rw [holdings_split] at hnd
  exact (nodup_append.mp (nodup_append.mp hnd).2.1).1

/-- `next_seq` never goes back. -/
theorem nextSeq_le_step (h : Owns sys.queue st sys.sessions) (op : SharedOp) :
    sys.queue.nextSeq ≤ (sys.step op).queue.nextSeq := by
  have heff := step_effect h op
  generalize sys.step op = sys' at heff ⊢
  cases heff with
  | refused => exact Nat.le_refl _
  | opened => exact Nat.le_refl _
  | published count =>
    rw [(h.denotes.publishContiguous count).2.1]
    exact Nat.le_add_right _ _
  | delivered _ _ spec => exact spec.nextSeq.ge
  | settled _ _ _ _ spec => exact spec.nextSeq.ge
  | retried =>
    obtain ⟨-, -, -, -, -, hnext⟩ := h.denotes.retryAllNow
    exact hnext.ge

/-- **One operation** keeps the accounts. -/
theorem accounts_step (h : Owns sys.queue st sys.sessions) (hacc : Accounts sys.queue r)
    (hlt : sys.queue.nextSeq < 2 ^ 32) (op : SharedOp) :
    Accounts (sys.step op).queue (r + ((sys.handed op).flatMap seqs).countP
      fun x => decide (st x = some .sparseReady)) := by
  have heff := step_effect h op
  generalize sys.step op = sys' at heff ⊢
  cases heff with
  | refused hfail =>
    rw [handed_of_refused hfail]
    exact hacc
  | opened => exact hacc
  | published count => exact hacc.publish h.denotes count
  | delivered hs call spec tally =>
    rw [handed_of_ok hs call, spec.out_seqs]
    exact hacc.deliver h.denotes spec tally
  | settled hs _ hout _ spec hdst tally =>
    have hmem := mem_of_getElem? hs
    rw [hout]
    exact hacc.settle h.denotes spec (h.entries_inflight hmem) (nodup_entries h hmem) hdst tally
  | retried => exact hacc.retry h.denotes hlt

/-- **Queue accounting.** In every run of a queue and its sessions with
fewer than `2^32` messages published, the totals agree with the states
of the messages and with the number of redeliveries made. -/
theorem queue_accounting (ops : List SharedOp) (hlt : (run ops).queue.nextSeq < 2 ^ 32) :
    Accounts (run ops).queue (redeliveries ops) := by
  induction ops using reverseRecOn with
  | nil => exact accounts_empty
  | append_singleton ops op ih =>
    obtain ⟨st, h⟩ := owned_run ops
    rw [run_snoc] at hlt ⊢
    have hmono := nextSeq_le_step h op
    rw [redeliveries_snoc h]
    exact accounts_step h (ih (by omega)) (by omega) op

/-- Two messages delivered, one nacked, retried and delivered again. -/
theorem accounts_after_retry : redeliveries [.openSession 1 1 .unlimited, .publish 2, .deliver 0 2,
      .nack 0 ⟨1, .one, .requeue⟩, .retryAllNow, .deliver 0 2] = 1 ∧
    Accounts (run [.openSession 1 1 .unlimited, .publish 2, .deliver 0 2,
      .nack 0 ⟨1, .one, .requeue⟩, .retryAllNow, .deliver 0 2]).queue
      (redeliveries [.openSession 1 1 .unlimited, .publish 2, .deliver 0 2,
        .nack 0 ⟨1, .one, .requeue⟩, .retryAllNow, .deliver 0 2]) :=
  ⟨by decide, queue_accounting _ (by decide)⟩

end SharedQueue

end Aurum.Consumer
