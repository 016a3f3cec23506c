import Aurum.Consumer.Model

/-!
# Consumer — what the reference session does

The reference session in the terms of the real one: delivery appends
consecutively tagged entries, settlement removes the entries whose tag
is taken and gives their messages one new state.
-/

namespace Aurum.Consumer

open Aurum.Queue List ModelConsumerSession ModelDelivery

/-- The deliveries name exactly the inflight messages, in tag order. -/
structure ModelOwns (s : ModelConsumerSession) (q : ModelQueue) : Prop where
  ok : ModelOk q
  sorted : s.entries.Pairwise (·.1 < ·.1)
  bounds : ∀ e ∈ s.entries, e.1 < s.nextTag
  nodup : (s.entries.map Prod.snd).Nodup
  inflight : ∀ x, q.stateOf x = some .inflight ↔ x ∈ s.entries.map Prod.snd
  credit : s.inFlight = s.entries.length

/-- The entries whose tag satisfies `take` are settled to `dst`. -/
structure ModelSettles (take : Nat → Bool) (dst : MessageState) (s : ModelConsumerSession)
    (q : ModelQueue) (s' : ModelConsumerSession) (q' : ModelQueue) : Prop where
  owns : ModelOwns s' q'
  state : q'.stateOf = setAll q.stateOf ((taken take s.entries).map Prod.snd) dst
  length : q'.states.length = q.states.length
  entries : s'.entries = taken (fun t => !take t) s.entries
  frame : s'.nextTag = s.nextTag ∧ s'.prefetch = s.prefetch

variable {s s' : ModelConsumerSession} {q q' : ModelQueue} {dst : MessageState}

theorem modelOwns_new (prefetch : PrefetchMode) : ModelOwns (new prefetch) ModelQueue.new :=
  ⟨ModelQueue.modelOk_new, by simp [entries, new],
    by simp [entries, new],
    by simp [entries, new],
    by simp [entries, new, ModelQueue.stateOf,
      ModelQueue.new], rfl⟩

theorem ModelOwns.held (h : ModelOwns s q) : Inflight q.stateOf (s.entries.map Prod.snd) :=
  ⟨h.nodup, h.inflight⟩

variable {take : Nat → Bool} {tag x : Nat}

/-- What remains after a settlement still owns the inflight messages. -/
theorem ModelOwns.settle (h : ModelOwns s q) (hdst : dst ≠ .inflight) (hok : ModelOk q')
    (hst : q'.stateOf = setAll q.stateOf ((taken take s.entries).map Prod.snd) dst)
    (hlen : q'.states.length = q.states.length)
    (hent : s'.entries = taken (fun t => !take t) s.entries)
    (hframe : s'.nextTag = s.nextTag ∧ s'.prefetch = s.prefetch)
    (hcredit : s'.inFlight = s.inFlight - (taken take s.entries).length) :
    ModelSettles take dst s q s' q' := by
  have hsub : s'.entries.Sublist s.entries := by
    rw [hent]
    exact filter_sublist
  have hheld := h.held.settle (map_taken_perm take s.entries) hdst
  rw [← hst, ← hent] at hheld
  refine ⟨⟨hok, h.sorted.sublist hsub, fun e he => ?_, hheld.nodup, hheld.mem, ?_⟩, hst, hlen, hent,
    hframe⟩
  · rw [hframe.1]
    exact h.bounds e (hsub.subset he)
  · have hsum := taken_length_add take s.entries
    rw [hcredit, h.credit, hent]
    omega

/-! ## Settling -/

/-- `f` gives an inflight message the state `dst` and leaves the
session's bookkeeping alone. -/
structure Marks (dst : MessageState)
    (f : ModelConsumerSession × ModelQueue → ModelDelivery → ModelConsumerSession × ModelQueue) :
    Prop where
  session : ∀ acc d, (f acc d).1.nextTag = acc.1.nextTag ∧
    (f acc d).1.prefetch = acc.1.prefetch ∧ (f acc d).1.inFlight = acc.1.inFlight ∧
    (f acc d).1.unacked = acc.1.unacked
  queue : ∀ acc d, acc.2.stateOf d.seq = some .inflight →
    (f acc d).2 = { acc.2 with states := acc.2.states.set d.seq dst }

theorem marks_dropSeq : Marks .acked dropSeq where
  session := fun _ _ => ⟨rfl, rfl, rfl, rfl⟩
  queue := fun _ _ hd => if_pos (ModelQueue.lt_of_stateOf hd)

theorem marks_requeueSeq : Marks .retry requeueSeq where
  session := fun _ _ => ⟨rfl, rfl, rfl, rfl⟩
  queue := fun _ _ hd => if_pos (ModelQueue.lt_of_stateOf hd)

theorem marks_nackSeq (reason : NackReason) : Marks (target reason) (nackSeq reason) := by
  cases reason with
  | requeue => exact marks_requeueSeq
  | reject => exact marks_dropSeq
  | deadLetter => exact marks_dropSeq

section

variable {f : ModelConsumerSession × ModelQueue → ModelDelivery →
    ModelConsumerSession × ModelQueue} {acc : ModelConsumerSession × ModelQueue}
  {d : ModelDelivery}

/-- `f`, with `k` credits given back before. -/
def crediting (k : Nat)
    (f : ModelConsumerSession × ModelQueue → ModelDelivery → ModelConsumerSession × ModelQueue)
    (acc : ModelConsumerSession × ModelQueue) (d : ModelDelivery) :
    ModelConsumerSession × ModelQueue :=
  f ({ acc.1 with inFlight := acc.1.inFlight - k }, acc.2) d

/-- The deliveries `ds` were settled to `dst`, each for `k` credits. -/
structure Marked (dst : MessageState) (k : Nat) (ds : List ModelDelivery)
    (acc acc' : ModelConsumerSession × ModelQueue) : Prop where
  ok : ModelOk acc'.2
  state : acc'.2.stateOf = setAll acc.2.stateOf (ds.map seq) dst
  length : acc'.2.states.length = acc.2.states.length
  frame : acc'.1.nextTag = acc.1.nextTag ∧ acc'.1.prefetch = acc.1.prefetch
  unacked : acc'.1.unacked = acc.1.unacked
  credit : acc'.1.inFlight = acc.1.inFlight - k * ds.length

/-- A fold over distinct inflight messages. -/
theorem Marks.foldl (hf : Marks dst f) (hdst : dst ≠ .ready ∧ dst ≠ .sparseReady) (k : Nat) :
    ∀ (ds : List ModelDelivery) (acc : ModelConsumerSession × ModelQueue), ModelOk acc.2 →
      (ds.map seq).Nodup →
      (∀ d ∈ ds, acc.2.stateOf d.seq = some .inflight) →
      Marked dst k ds acc (ds.foldl (crediting k f) acc) := by
  intro ds
  induction ds with
  | nil => exact fun acc hok _ _ => ⟨hok, by simp, rfl, ⟨rfl, rfl⟩, rfl, by simp⟩
  | cons d ds ih =>
    intro acc hok hnd hds
    rw [map_cons, nodup_cons] at hnd
    have hd := hds d mem_cons_self
    obtain ⟨f1, f2, f3, f4⟩ := hf.session ({ acc.1 with inFlight := acc.1.inFlight - k }, acc.2) d
    have hq : (crediting k f acc d).2 = { acc.2 with states := acc.2.states.set d.seq dst } :=
      hf.queue _ d hd
    have hst : (crediting k f acc d).2.stateOf = setAll acc.2.stateOf [d.seq] dst := by
      rw [hq]
      exact ModelQueue.stateOf_set hd _ _
    have hrest := ih (crediting k f acc d) (by rw [hq]; exact ModelQueue.set_ok hok hd hdst) hnd.2
      fun e he => by
        rw [hst, setAll_of_not_mem]
        · exact hds e (mem_cons_of_mem _ he)
        · rw [mem_singleton]
          intro hc
          exact hnd.1 (hc ▸ mem_map_of_mem he)
    refine ⟨hrest.ok, ?_, ?_, ⟨hrest.frame.1.trans f1, hrest.frame.2.trans f2⟩,
      hrest.unacked.trans f4, ?_⟩
    · rw [foldl_cons, hrest.state, hst, setAll_append]
      rfl
    · rw [foldl_cons, hrest.length, hq]
      exact length_set
    · rw [foldl_cons, hrest.credit, crediting, f3, length_cons, Nat.mul_succ]
      dsimp only
      omega

/-- **The pop loop** is a fold over the deliveries up to `tag`. -/
theorem popUpTo_eq (tag : Nat) : ∀ (ds : List ModelDelivery)
    (acc : ModelConsumerSession × ModelQueue) (count : Nat), count < 2 ^ 32 →
    popUpTo tag f ds acc count =
      let front := ds.takeWhile fun d => decide (d.tag ≤ tag)
      let res := front.foldl (crediting 1 f) acc
      ({ res.1 with unacked := ds.dropWhile fun d => decide (d.tag ≤ tag) }, res.2,
        (count + front.length) % 2 ^ 32) := by
  intro ds
  induction ds with
  | nil =>
    intro acc count hc
    simp [popUpTo]
    omega
  | cons d ds ih =>
    intro acc count hc
    rw [popUpTo]
    by_cases htag : tag < d.tag
    · simp [htag, Nat.not_le.mpr htag]
      omega
    · rw [if_neg htag, ih _ _ (Nat.mod_lt _ (by decide))]
      have hle : d.tag ≤ tag := by omega
      simp only [takeWhile_cons, dropWhile_cons, hle, decide_true, if_true,
        foldl_cons, length_cons, Nat.mod_add_mod, crediting, Nat.add_assoc,
        Nat.add_comm 1]

/-- In tag order the front is what has a tag up to `tag`. -/
theorem front_sorted (tag : Nat) : ∀ {ds : List ModelDelivery},
    ds.Pairwise (fun a b => a.tag < b.tag) →
    (ds.takeWhile fun d => decide (d.tag ≤ tag)) = ds.filter (fun d => decide (d.tag ≤ tag)) ∧
      (ds.dropWhile fun d => decide (d.tag ≤ tag)) = ds.filter fun d => !decide (d.tag ≤ tag) := by
  intro ds
  induction ds with
  | nil => exact fun _ => ⟨rfl, rfl⟩
  | cons d ds ih =>
    intro hsorted
    rw [pairwise_cons] at hsorted
    obtain ⟨h1, h2⟩ := ih hsorted.2
    by_cases hle : d.tag ≤ tag
    · simp [hle, h1, h2]
    · have hlate : ∀ e ∈ ds, ¬ e.tag ≤ tag := fun e he => by
        have := hsorted.1 e he
        omega
      rw [takeWhile_cons_of_neg (by simpa using hle), dropWhile_cons_of_neg (by simpa using hle)]
      constructor
      · symm
        simpa [hle] using hlate
      · symm
        simpa [hle] using hlate

/-- Settling the deliveries a request takes. -/
theorem ModelOwns.marked (h : ModelOwns s q) (hf : Marks dst f)
    (hdst : dst ≠ .ready ∧ dst ≠ .sparseReady ∧ dst ≠ .inflight) {ds : List ModelDelivery}
    (hsub : ds.Sublist s.unacked) (hds : ds.map (fun d => (d.tag, d.seq)) = taken take s.entries)
    (k credit : Nat) (hcredit : credit - k * ds.length = s.inFlight - ds.length)
    (unacked : List ModelDelivery) {res : ModelConsumerSession × ModelQueue}
    (hres : ds.foldl (crediting k f) ({ s with unacked, inFlight := credit }, q) = res)
    (hframe : s'.nextTag = res.1.nextTag ∧ s'.prefetch = res.1.prefetch)
    (hleft : s'.inFlight = res.1.inFlight)
    (hrest : res.1.unacked = unacked → s'.entries = taken (fun t => !take t) s.entries) :
    ModelSettles take dst s q s' res.2 := by
  have hseq : ds.map seq = (taken take s.entries).map Prod.snd := by
    rw [← hds, map_map]
    rfl
  have hin : ∀ d ∈ ds, q.stateOf d.seq = some .inflight := fun d hd =>
    (h.inflight _).mpr (mem_map.mpr ⟨_, mem_map.mpr ⟨d, hsub.subset hd, rfl⟩, rfl⟩)
  have hm := hf.foldl ⟨hdst.1, hdst.2.1⟩ k ds ({ s with unacked, inFlight := credit }, q) h.ok
    (by rw [hseq]; exact h.nodup.sublist (filter_sublist.map _)) hin
  rw [hres] at hm
  refine h.settle hdst.2.2 hm.ok ?_ hm.length (hrest hm.unacked)
    ⟨hframe.1.trans hm.frame.1, hframe.2.trans hm.frame.2⟩ ?_
  · rw [← hseq]
    exact hm.state
  · rw [← hds, length_map, ← hcredit, hleft]
    exact hm.credit

theorem ModelOwns.sorted_unacked (h : ModelOwns s q) :
    s.unacked.Pairwise fun a b => a.tag < b.tag := by
  have hsorted := h.sorted
  rw [entries, pairwise_map] at hsorted
  exact hsorted

theorem filter_entries (ds : List ModelDelivery) (take : Nat → Bool) :
    (ds.filter fun d => take d.tag).map (fun d => (d.tag, d.seq)) =
      taken take (ds.map fun d => (d.tag, d.seq)) := by
  rw [taken, filter_map]
  rfl

/-- The `one` forms on an outstanding tag. -/
theorem settleOne_ok (h : ModelOwns s q) (hf : Marks dst f)
    (hdst : dst ≠ .ready ∧ dst ≠ .sparseReady ∧ dst ≠ .inflight) (hx : (tag, x) ∈ s.entries) :
    ∃ s' q', s.settleOne tag q f = some (s', q') ∧
      ModelSettles (fun t => t == tag) dst s q s' q' ∧
      (taken (fun t => t == tag) s.entries).length = 1 := by
  obtain ⟨d0, hd0, hd0x⟩ := mem_map.mp hx
  have hfind : ∃ i, s.unacked.findIdx? (fun d => d.tag == tag) = some i := by
    rw [← Option.isSome_iff_exists, findIdx?_isSome, any_eq_true]
    exact ⟨d0, hd0, by simpa using congrArg Prod.fst hd0x⟩
  obtain ⟨i, hi⟩ := hfind
  obtain ⟨pre, d, post, hsplit, rfl, hd⟩ := findIdx?_split hi
  -- no other delivery has the tag
  have hnd : (s.unacked.map ModelDelivery.tag).Nodup :=
    pairwise_map.mpr (h.sorted_unacked.imp Nat.ne_of_lt)
  rw [hsplit, map_append, map_cons, nodup_middle, ← map_append,
    nodup_cons, eq_of_beq hd] at hnd
  have hne : ∀ e ∈ pre ++ post, (e.tag == tag) = false := fun e he => by
    rw [beq_eq_false_iff_ne]
    rintro rfl
    exact hnd.1 (mem_map_of_mem he)
  have hone : s.unacked.filter (fun d => d.tag == tag) = [d] := by
    have hnone : (pre ++ post).filter (fun d => d.tag == tag) = [] :=
      filter_eq_nil_iff.mpr fun e he => by simp [hne e he]
    rw [filter_append, append_eq_nil_iff] at hnone
    rw [hsplit, filter_append, filter_cons, if_pos hd, hnone.1, hnone.2]
    rfl
  have hrest : s.unacked.filter (fun d => !(d.tag == tag)) = pre ++ post := by
    rw [hsplit, filter_append, filter_cons, if_neg (by simp [hd]), ← filter_append]
    exact filter_eq_self.mpr fun e he => by simp [hne e he]
  have htaken : [d].map (fun d => (d.tag, d.seq)) = taken (fun t => t == tag) s.entries := by
    rw [← hone, filter_entries _ fun t => t == tag]
    rfl
  refine ⟨_, _, ?_, h.marked hf hdst (by simp [hsplit]) htaken 1 s.inFlight (by simp) (pre ++ post)
    rfl ⟨rfl, rfl⟩ rfl fun hu => ?_, by rw [← htaken]; rfl⟩
  · rw [settleOne, hi]
    simp [hsplit, eraseIdx_split, crediting]
  · rw [entries, hu, ← hrest, filter_entries _ fun t => !(t == tag)]
    rfl

/-- The `multiple` forms on an outstanding tag. -/
theorem settleMultiple_ok (h : ModelOwns s q) (hf : Marks dst f)
    (hdst : dst ≠ .ready ∧ dst ≠ .sparseReady ∧ dst ≠ .inflight) (hx : (tag, x) ∈ s.entries) :
    ∃ s' q', s.settleMultiple tag q f = some (s', q',
        (taken (fun t => decide (t ≤ tag)) s.entries).length % 2 ^ 32) ∧
      ModelSettles (fun t => decide (t ≤ tag)) dst s q s' q' := by
  obtain ⟨d0, hd0, hd0x⟩ := mem_map.mp hx
  have hany : (s.unacked.any fun d => d.tag == tag) = true := by
    rw [any_eq_true]
    exact ⟨d0, hd0, by simpa using congrArg Prod.fst hd0x⟩
  obtain ⟨hfront, hback⟩ := front_sorted tag h.sorted_unacked
  have htaken := filter_entries s.unacked fun t => decide (t ≤ tag)
  generalize hres : (s.unacked.filter fun d => decide (d.tag ≤ tag)).foldl (crediting 1 f) (s, q) =
    res
  refine ⟨{ res.1 with unacked := s.unacked.filter fun d => !decide (d.tag ≤ tag) }, res.2, ?_,
    h.marked hf hdst filter_sublist htaken 1 s.inFlight (by simp) s.unacked hres ⟨rfl, rfl⟩ rfl
      fun _ => filter_entries s.unacked fun t => !decide (t ≤ tag)⟩
  rw [settleMultiple, hany, if_pos rfl, popUpTo_eq tag _ _ _ (by decide),
    hfront, hback]
  dsimp only
  rw [hres, Nat.zero_add, entries, ← htaken, length_map]

theorem settleOne_refused (hx : ∀ x, (tag, x) ∉ s.entries) : s.settleOne tag q f = none := by
  have hnone : s.unacked.findIdx? (fun d => d.tag == tag) = none := by
    rw [findIdx?_eq_none_iff]
    intro d hd
    rw [beq_eq_false_iff_ne]
    rintro rfl
    exact hx d.seq (mem_map.mpr ⟨d, hd, rfl⟩)
  rw [settleOne, hnone]

theorem settleMultiple_refused (hx : ∀ x, (tag, x) ∉ s.entries) :
    s.settleMultiple tag q f = none := by
  have hany : ¬ (s.unacked.any fun d => d.tag == tag) = true := by
    rw [any_eq_true]
    rintro ⟨d, hd, htag⟩
    obtain rfl : d.tag = tag := by simpa using htag
    exact hx d.seq (mem_map.mpr ⟨d, hd, rfl⟩)
  rw [settleMultiple, if_neg hany]

end

/-- **`ack`** settles as a dropping `nack` does. -/
theorem model_ack_eq (s : ModelConsumerSession) (q : ModelQueue) (tag : Nat) (mode : AckMode) :
    s.ack ⟨tag, mode⟩ q = (s.nack ⟨tag, mode, .reject⟩ q).map fun res =>
      (res.1, res.2.1, ⟨res.2.2.nacked, res.2.2.nacked, []⟩) := by
  cases mode <;> rw [ModelConsumerSession.ack, nack] <;> dsimp only <;>
    rw [Option.map_map] <;> rfl

theorem splitCount_eq (reason : NackReason) (n : Nat) :
    splitCount reason n = nackResult reason n := by
  cases reason <;> rfl

theorem target_settled (reason : NackReason) :
    target reason ≠ .ready ∧ target reason ≠ .sparseReady ∧ target reason ≠ .inflight := by
  cases reason <;> simp [target]

/-- **`nack`** of an outstanding tag. -/
theorem model_nack_ok (h : ModelOwns s q) (hx : (tag, x) ∈ s.entries) (mode : AckMode)
    (reason : NackReason) :
    ∃ s' q', s.nack ⟨tag, mode, reason⟩ q = some (s', q',
        nackResult reason ((taken (mode.takes tag) s.entries).length % 2 ^ 32)) ∧
      ModelSettles (mode.takes tag) (target reason) s q s' q' := by
  cases mode with
  | one =>
    obtain ⟨s', q', heq, hset, hlen⟩ := settleOne_ok h (marks_nackSeq reason)
      (target_settled reason) hx
    refine ⟨s', q', ?_, hset⟩
    have hlen' : (taken (AckMode.takes .one tag) s.entries).length = 1 := hlen
    rw [hlen', nack, heq, ← splitCount_eq]
    rfl
  | multiple =>
    obtain ⟨s', q', heq, hset⟩ := settleMultiple_ok h (marks_nackSeq reason)
      (target_settled reason) hx
    refine ⟨s', q', ?_, hset⟩
    rw [nack, heq, ← splitCount_eq]
    rfl

theorem model_nack_refused (hx : ∀ x, (tag, x) ∉ s.entries) (mode : AckMode) (reason : NackReason) :
    s.nack ⟨tag, mode, reason⟩ q = none := by
  cases mode with
  | one => rw [nack, settleOne_refused hx]; rfl
  | multiple => rw [nack, settleMultiple_refused hx]; rfl

/-- **`cancel`** settles everything; fewer than `2^32` are outstanding. -/
theorem model_cancel_spec (h : ModelOwns s q) (hlt : s.entries.length < 2 ^ 32)
    (disp : CancelDisposition) :
    ModelSettles (fun _ => true) disp.target s q (s.cancel disp q).1 (s.cancel disp q).2.1 ∧
      (s.cancel disp q).2.2 = disp.result (s.entries.length % 2 ^ 32) := by
  have hlen : s.unacked.length = s.entries.length := by simp [entries]
  have htaken : taken (fun _ => true) s.entries = s.entries := taken_all fun _ _ => rfl
  have hnone : taken (fun _ => !true) s.entries = [] := taken_none fun _ _ => rfl
  have key : ∀ {dst : MessageState} {f}, Marks dst f →
      (dst ≠ .ready ∧ dst ≠ .sparseReady ∧ dst ≠ .inflight) →
      ModelSettles (fun _ => true) dst s q
        (s.unacked.foldl f ({ s with
          unacked := [], inFlight := s.inFlight - s.unacked.length % 2 ^ 32 }, q)).1
        (s.unacked.foldl f ({ s with
          unacked := [], inFlight := s.inFlight - s.unacked.length % 2 ^ 32 }, q)).2 := by
    intro dst f hf hdst
    exact h.marked hf hdst (List.Sublist.refl _) htaken.symm 0 _
      (by rw [hlen, Nat.mod_eq_of_lt hlt, Nat.zero_mul]; rfl) [] rfl ⟨rfl, rfl⟩ rfl fun hu => by
        rw [entries, hu, hnone]; rfl
  cases disp with
  | requeueUnacked =>
    refine ⟨key marks_requeueSeq (by simp [CancelDisposition.target]), ?_⟩
    rw [← hlen]
    rfl
  | dropUnacked =>
    refine ⟨key marks_dropSeq (by simp [CancelDisposition.target]), ?_⟩
    rw [← hlen]
    rfl

/-! ## Delivery -/

theorem tagOne_foldl : ∀ (seqs : List Nat) (acc : ModelConsumerSession × List ModelDelivery),
    ∃ s out, seqs.foldl tagOne acc = (s, out) ∧
      s.entries = acc.1.entries ++ tagged acc.1.nextTag seqs ∧
      s.nextTag = acc.1.nextTag + seqs.length ∧ s.prefetch = acc.1.prefetch ∧
      (acc.1.inFlight + seqs.length < 2 ^ 32 → s.inFlight = acc.1.inFlight + seqs.length) ∧
      out.length = acc.2.length + seqs.length := by
  intro seqs
  induction seqs with
  | nil =>
    intro acc
    exact ⟨_, _, rfl, by simp⟩
  | cons x seqs ih =>
    intro acc
    obtain ⟨s, out, heq, i1, i2, i3, i4, i5⟩ := ih (tagOne acc x)
    refine ⟨s, out, heq, ?_, ?_, i3, fun hlt => ?_, ?_⟩
    · rw [i1, tagOne, entries,
        entries, map_append, List.append_assoc]
      rfl
    · rw [i2, tagOne, length_cons]
      dsimp only
      omega
    · rw [length_cons] at hlt
      have hone : (tagOne acc x).1.inFlight = acc.1.inFlight + 1 :=
        Nat.mod_eq_of_lt (by omega)
      rw [hone] at i4
      rw [i4 (by omega), length_cons]
      omega
    · rw [i5, tagOne, length_append, length_cons]
      simp
      omega

variable (s)

/-- The credit the reference session grants. -/
def modelAvailable (max : Nat) : Nat :=
  match s.prefetch with
  | .unlimited => max
  | .limited n => min max (n.toNat - s.inFlight)

theorem model_deliver_eq (q : ModelQueue) (max : Nat) : s.deliverFromQueue q max =
      if modelAvailable s max = 0 then (s, q, [])
      else
        (((q.deliver (modelAvailable s max)).2.foldl tagOne (s, [])).1,
          (q.deliver (modelAvailable s max)).1,
          ((q.deliver (modelAvailable s max)).2.foldl tagOne (s, [])).2) := rfl

variable {s}

/-- **`deliver_from_queue`** of the reference session, while fewer than
`2^32` messages are published. -/
theorem model_deliver_spec (h : ModelOwns s q) (hlt : q.states.length < 2 ^ 32) (max : Nat) :
    ∃ S s' q' out, s.deliverFromQueue q max = (s', q', out) ∧
      Handed q.stateOf (modelAvailable s max) S ∧ ModelOwns s' q' ∧
      q'.stateOf = setAll q.stateOf S .inflight ∧ q'.states.length = q.states.length ∧
      s'.entries = s.entries ++ tagged s.nextTag S ∧ s'.nextTag = s.nextTag + S.length ∧
      s'.prefetch = s.prefetch ∧ out.length = S.length := by
  rw [model_deliver_eq]
  generalize modelAvailable s max = available
  by_cases h0 : available = 0
  · rw [if_pos h0]
    exact ⟨[], s, q, [], rfl, ⟨by simp, by simp, by simp, by simp [h0]⟩, h, by simp, rfl, by simp,
      rfl, rfl, rfl⟩
  rw [if_neg h0]
  obtain ⟨hok, hhand, hst, hlen⟩ := ModelQueue.deliver_ok h.ok available
  generalize q.deliver available = res at hok hhand hst hlen ⊢
  obtain ⟨q', S⟩ := res
  dsimp only at hok hhand hst hlen ⊢
  obtain ⟨s', out, heq, i1, i2, i3, i4, i5⟩ := tagOne_foldl S (s, [])
  dsimp only at i1 i2 i3 i4 i5
  rw [heq]
  have hheld : Inflight (setAll q.stateOf S .inflight)
      ((s.entries ++ tagged s.nextTag S).map Prod.snd) := by
    refine h.held.hand hhand.nodup hhand.available ?_
    rw [map_append, map_snd_tagged]
    exact perm_append_comm
  rw [← hst] at hheld
  -- the outstanding messages are distinct and published
  have hbound : (s.entries ++ tagged s.nextTag S).length < 2 ^ 32 := by
    have hle := length_le_of_lt hheld.nodup fun x hx =>
      ModelQueue.lt_of_stateOf ((hheld.mem x).mpr hx)
    rw [length_map] at hle
    omega
  rw [length_append, length_tagged] at hbound
  refine ⟨S, s', q', out, rfl, hhand, ⟨hok, ?_, fun e he => ?_, ?_, ?_, ?_⟩, hst, hlen, i1, i2, i3,
    ?_⟩
  · rw [i1]
    refine pairwise_append.mpr ⟨h.sorted, ?_, fun a ha b hb => ?_⟩
    · rw [← pairwise_map (R := (· < ·)), map_fst_tagged]
      exact pairwise_lt_range'
    · have h1 := h.bounds a ha
      have h2 := (mem_tagged hb).1
      omega
  · rw [i1, mem_append] at he
    rw [i2]
    rcases he with he | he
    · have := h.bounds e he
      omega
    · exact (mem_tagged he).2.1
  · rw [i1]
    exact hheld.nodup
  · rw [i1]
    exact hheld.mem
  · rw [i1, i4 (by rw [h.credit]; exact hbound), h.credit, length_append, length_tagged]
  · simpa using i5

end Aurum.Consumer
