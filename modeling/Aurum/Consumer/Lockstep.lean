import Aurum.Lib.Machine
import Aurum.Consumer.Shared
import Aurum.Consumer.ModelSpec

/-!
# Consumer — lockstep with the reference model

The two sides may hand out different messages once retries are involved,
so neither is a copy of the other. What they agree on is a ledger: how
many messages were published, acked and wait for a retry, and which tags
are outstanding. The ledger is a machine of its own (`Ledger.machine`);
session plus queue refine it on either side, with the same outputs, and
hence run in lockstep. `Counted` is the part of the refinement relation
both sides share.
-/

namespace Aurum.Consumer

open Aurum.Queue List ConsumerSession Prod ModelQueue

/-- The operations both sides run. -/
inductive SessionOp where
  | publish (count : UInt32)
  | deliver (max : UInt32)
  | ack (req : AckRequest)
  | nack (req : NackRequest)
  | reject (req : RejectRequest)
  | retryAllNow

/-- What an operation returns; `refused` for an error. -/
inductive Outcome where
  | published
  | delivered (count : Nat)
  | acked (acked releasedCredit : Nat)
  | nacked (res : NackApplyResult)
  | moved (count : Nat)
  | cancelled (res : CancelResult)
  | refused
deriving DecidableEq

/-- An ack reports what a dropping nack does. -/
def Outcome.asAck : Outcome → Outcome
  | .nacked res => .acked res.nacked res.nacked
  | outcome => outcome

/-- What is compared after an operation. -/
structure Seen where
  outcome : Outcome
  unackedCount : Nat
  inFlightCredit : Nat
  tags : List Nat
  counts : QueueCounts
deriving DecidableEq

/-! ## The ledger -/

structure Ledger where
  prefetch : PrefetchMode
  published : Nat
  acked : Nat
  retry : Nat
  nextTag : Nat
  tags : List Nat

namespace Ledger

def new (prefetch : PrefetchMode) : Ledger := ⟨prefetch, 0, 0, 0, 1, []⟩

def counts (l : Ledger) : QueueCounts where
  published := l.published
  ready := l.published - l.tags.length - l.acked - l.retry
  inflight := l.tags.length
  acked := l.acked
  retry := l.retry

def see (l : Ledger) (outcome : Outcome) : Seen :=
  ⟨outcome, l.tags.length, l.tags.length, l.tags, l.counts⟩

/-- How many messages a delivery of at most `max` may hand out. -/
def credit (l : Ledger) (max : Nat) : Nat :=
  match l.prefetch with
  | .unlimited => max
  | .limited n => min max (n.toNat - l.tags.length)

/-- How many messages it does hand out. -/
def grant (l : Ledger) (max : Nat) : Nat := min (l.credit max) l.counts.ready

/-- The outstanding tags that satisfy `take`. -/
def hit (l : Ledger) (take : Nat → Bool) : Nat := (l.tags.filter take).length

def settle (l : Ledger) (take : Nat → Bool) (dst : MessageState) : Ledger :=
  { l with
    tags := l.tags.filter fun t => !take t
    acked := l.acked + if dst = .acked then l.hit take else 0
    retry := l.retry + if dst = .retry then l.hit take else 0 }

def deliver (l : Ledger) (n : Nat) : Ledger :=
  { l with tags := l.tags ++ List.range' l.nextTag n, nextTag := l.nextTag + n }

def ack (l : Ledger) (req : AckRequest) : Ledger × Outcome :=
  if req.tag ∈ l.tags then
    (l.settle (req.mode.takes req.tag) .acked,
      .acked (l.hit (req.mode.takes req.tag)) (l.hit (req.mode.takes req.tag)))
  else (l, .refused)

def nack (l : Ledger) (req : NackRequest) : Ledger × Outcome :=
  if req.tag ∈ l.tags then
    (l.settle (req.mode.takes req.tag) (target req.reason),
      .nacked (nackResult req.reason (l.hit (req.mode.takes req.tag))))
  else (l, .refused)

def next (l : Ledger) : SessionOp → Ledger × Outcome
  | .publish count => ({ l with published := l.published + count.toNat }, .published)
  | .deliver max => (l.deliver (l.grant max.toNat), .delivered (l.grant max.toNat))
  | .ack req => l.ack req
  | .nack req => l.nack req
  | .reject req => l.nack ⟨req.tag, .one, req.reason⟩
  | .retryAllNow => ({ l with retry := 0 }, .moved l.retry)

def cancel (l : Ledger) (disp : CancelDisposition) : Ledger × Outcome :=
  (l.settle (fun _ => true) disp.target, .cancelled (disp.result l.tags.length))

def machine : Machine Ledger SessionOp CancelDisposition Seen where
  step := fun l op => ((l.next op).1, (l.next op).1.see (l.next op).2)
  finish := fun l disp => (l.cancel disp).1.see (l.cancel disp).2

end Ledger

/-! ## The two sides -/

/-- `ConsumerSession` and `HybridRangeBlockQueue`. -/
structure HybridSide where
  session : ConsumerSession
  queue : HybridRangeBlockQueue

namespace HybridSide

def new (id channelId : Nat) (prefetch : PrefetchMode) : HybridSide :=
  ⟨ConsumerSession.new id channelId prefetch, HybridRangeBlockQueue.empty⟩

def see (h : HybridSide) (outcome : Outcome) : Seen where
  outcome := outcome
  unackedCount := h.session.unackedCount
  inFlightCredit := h.session.inFlightCredit
  tags := h.session.entries.map fst
  counts := h.queue.debugCounts

/-- The state after a call; an error changes nothing. -/
def after {α : Type} (h : HybridSide) (outcome : α → Outcome) :
    Except ConsumerError (ConsumerSession × HybridRangeBlockQueue × α) → HybridSide × Outcome
  | .ok (session, queue, res) => (⟨session, queue⟩, outcome res)
  | .error _ => (h, .refused)

def next (h : HybridSide) : SessionOp → HybridSide × Outcome
  | .publish count =>
    ({ h with queue := (h.queue.publishContiguous count.toNat).1 }, .published)
  | .deliver max =>
    h.after (fun res => .delivered res.2) (h.session.deliverFromQueue h.queue max.toNat)
  | .ack req => h.after (fun res => .acked res.acked res.releasedCredit) (h.session.ack req h.queue)
  | .nack req => h.after .nacked (h.session.nack req h.queue)
  | .reject req => h.after .nacked (h.session.reject req h.queue)
  | .retryAllNow => ({ h with queue := h.queue.retryAllNow.1 }, .moved h.queue.retryAllNow.2)

def cancel (h : HybridSide) (disp : CancelDisposition) : HybridSide × Outcome :=
  let res := h.session.cancel disp h.queue
  (⟨res.1, res.2.1⟩, .cancelled res.2.2)

def machine : Machine HybridSide SessionOp CancelDisposition Seen where
  step := fun h op => ((h.next op).1, (h.next op).1.see (h.next op).2)
  finish := fun h disp => (h.cancel disp).1.see (h.cancel disp).2

end HybridSide

/-- `ModelConsumerSession` and `ModelQueue`. -/
structure ModelSide where
  session : ModelConsumerSession
  queue : ModelQueue

namespace ModelSide

def new (prefetch : PrefetchMode) : ModelSide :=
  ⟨ModelConsumerSession.new prefetch, ModelQueue.new⟩

def see (m : ModelSide) (outcome : Outcome) : Seen where
  outcome := outcome
  unackedCount := m.session.unackedCount
  inFlightCredit := m.session.inFlightCount
  tags := m.session.entries.map fst
  counts := m.queue.counts

def after {α : Type} (m : ModelSide) (outcome : α → Outcome) :
    Option (ModelConsumerSession × ModelQueue × α) → ModelSide × Outcome
  | some (session, queue, res) => (⟨session, queue⟩, outcome res)
  | none => (m, .refused)

def next (m : ModelSide) : SessionOp → ModelSide × Outcome
  | .publish count =>
    ({ m with queue := (m.queue.publishContiguous count.toNat).1 }, .published)
  | .deliver max =>
    let res := m.session.deliverFromQueue m.queue max.toNat
    (⟨res.1, res.2.1⟩, .delivered res.2.2.length)
  | .ack req => m.after (fun res => .acked res.acked res.releasedCredit) (m.session.ack req m.queue)
  | .nack req => m.after .nacked (m.session.nack req m.queue)
  | .reject req => m.after .nacked (m.session.reject req m.queue)
  | .retryAllNow => ({ m with queue := m.queue.retryAllNow.1 }, .moved m.queue.retryAllNow.2)

def cancel (m : ModelSide) (disp : CancelDisposition) : ModelSide × Outcome :=
  let res := m.session.cancel disp m.queue
  (⟨res.1, res.2.1⟩, .cancelled res.2.2)

def machine : Machine ModelSide SessionOp CancelDisposition Seen where
  step := fun m op => ((m.next op).1, (m.next op).1.see (m.next op).2)
  finish := fun m disp => (m.cancel disp).1.see (m.cancel disp).2

end ModelSide

/-! ## What the ledger counts -/

/-- The ledger `l` counts the state map `st` of `n` messages, of which
the entries `es` are outstanding. -/
structure Counted (l : Ledger) (st : Nat → Option MessageState) (n : Nat)
    (es : List (Nat × Nat)) : Prop where
  published : n = l.published
  dom : ∀ x, st x = none ↔ n ≤ x
  tags : es.map fst = l.tags
  nodup : (es.map snd).Nodup
  inflight : ∀ x, st x = some .inflight ↔ x ∈ es.map snd
  acked : countState st n .acked = l.acked
  retry : countState st n .retry = l.retry

variable {l : Ledger} {st : Nat → Option MessageState} {n : Nat} {es : List (Nat × Nat)}

section

variable (h : Counted l st n es)
include h

theorem Counted.lt {x : Nat} {p : MessageState} (hx : st x = some p) : x < n := by
  by_contra hge
  rw [(h.dom x).mpr (by omega)] at hx
  cases hx

theorem Counted.held : Inflight st (es.map snd) :=
  ⟨h.nodup, h.inflight⟩

theorem Counted.length_lt (hb : l.published < 2 ^ 32) : es.length < 2 ^ 32 := by
  have hle := length_le_of_lt h.nodup fun x hx => h.lt ((h.inflight x).mpr hx)
  rw [length_map, h.published] at hle
  omega

theorem Counted.length_tags : l.tags.length = es.length := by
  rw [← h.tags, length_map]

/-- The ledger's counts are those of the queue. -/
theorem Counted.counts : countsOf st n = l.counts := by
  have hin : countState st n .inflight = l.tags.length := by
    rw [countState_of_list h.nodup (fun x => (h.inflight x).symm)
      (fun x hx => h.lt ((h.inflight x).mpr hx)), length_map, h.length_tags]
  have hsum := @countsOf_sum st n
    fun x hx hc => absurd ((h.dom x).mp hc) (by omega)
  have h1 := h.published
  have h2 := h.acked
  have h3 := h.retry
  simp only [countsOf] at hsum ⊢
  simp only [Ledger.counts, QueueCounts.mk.injEq]
  refine ⟨h1, ?_, hin, h2, h3⟩
  omega

/-- Tags and entries are hit alike. -/
theorem Counted.hit (take : Nat → Bool) : (taken take es).length = l.hit take := by
  rw [Ledger.hit, ← h.tags, filter_map, length_map]
  rfl

theorem Counted.hit_mod (hb : l.published < 2 ^ 32) (take : Nat → Bool) :
    (taken take es).length % 2 ^ 32 = l.hit take := by
  have h1 : (taken take es).length ≤ es.length := length_filter_le ..
  have h2 := h.length_lt hb
  rw [Nat.mod_eq_of_lt (by omega), h.hit]

theorem Counted.mem_tags {tag : Nat} : tag ∈ l.tags ↔ ∃ x, (tag, x) ∈ es := by
  rw [← h.tags]
  simp

theorem Counted.publish {st' : Nat → Option MessageState} {count : Nat}
    (hst : ∀ x, st' x = if n ≤ x ∧ x < n + count then some .ready else st x) :
    Counted { l with published := l.published + count } st' (n + count) es := by
  have hcount : ∀ p, p ≠ .ready → countState st' (n + count) p = countState st n p := by
    intro p hp
    rw [countState_eq_length_filter, countState_eq_length_filter]
    refine (perm_ext_iff_of_nodup (nodup_range.filter _)
      (nodup_range.filter _)).mpr (fun x => ?_) |>.length_eq
    rw [mem_filter_state, mem_filter_state, hst]
    by_cases hx : n ≤ x ∧ x < n + count
    · simp [hx, Ne.symm hp]
    · rw [if_neg hx]
      constructor
      · rintro ⟨_, hx'⟩
        exact ⟨h.lt hx', hx'⟩
      · rintro ⟨h1, h2⟩
        exact ⟨by omega, h2⟩
  refine ⟨by rw [h.published], fun x => ?_, h.tags, h.nodup, fun x => ?_, ?_, ?_⟩
  · rw [hst]
    by_cases hx : n ≤ x ∧ x < n + count
    · rw [if_pos hx]
      simp
      omega
    · rw [if_neg hx, h.dom]
      omega
  · rw [hst, ← h.inflight]
    by_cases hx : n ≤ x ∧ x < n + count
    · rw [if_pos hx, (h.dom x).mpr hx.1]
      simp
    · rw [if_neg hx]
  · rw [hcount _ (by simp), h.acked]
  · rw [hcount _ (by simp), h.retry]

theorem Counted.deliver {max : Nat} {S : List Nat} (hS : Handed st max S) :
    S.length = min max l.counts.ready ∧
      Counted (l.deliver S.length) (setAll st S .inflight) n (es ++ tagged l.nextTag S) := by
  have hlen := hS.length h.dom
  rw [h.counts] at hlen
  have hnot : ∀ p, p ≠ .ready → p ≠ .sparseReady → ∀ x ∈ S, st x ≠ some p := by
    intro p h1 h2 x hx hc
    have hav := hS.available x hx
    rw [hc] at hav
    simp [h1, h2] at hav
  have hheld : Inflight (setAll st S .inflight) ((es ++ tagged l.nextTag S).map snd) := by
    refine h.held.hand hS.nodup hS.available ?_
    rw [map_append, map_snd_tagged]
    exact perm_append_comm
  refine ⟨hlen, h.published, fun x => ?_, ?_, hheld.nodup, hheld.mem, ?_, ?_⟩
  · rw [← h.dom]
    refine setAll_eq_none (fun y hy hc => ?_) _ x
    have hav := hS.available y hy
    simp [hc] at hav
  · rw [map_append, map_fst_tagged, h.tags]
    rfl
  · rw [countState_setAll_other (by simp) (hnot .acked (by simp) (by simp)), h.acked]
    rfl
  · rw [countState_setAll_other (by simp) (hnot .retry (by simp) (by simp)), h.retry]
    rfl

end

variable {dst : MessageState} {take : Nat → Bool}

theorem Counted.settle (h : Counted l st n es) (take : Nat → Bool)
    (hdst : dst = .acked ∨ dst = .retry) :
    Counted (l.settle take dst) (setAll st ((taken take es).map snd) dst) n
      (taken (fun t => !take t) es) := by
  have hsub : ((taken take es).map snd).Sublist (es.map snd) :=
    filter_sublist.map _
  have hin : ∀ x ∈ (taken take es).map snd, st x = some .inflight :=
    fun x hx => (h.inflight x).mpr (hsub.subset hx)
  have hnd := h.nodup.sublist hsub
  have hne : dst ≠ .inflight := by
    rcases hdst with rfl | rfl <;> simp
  have hheld := h.held.settle (map_taken_perm take es) hne
  have hcount : ∀ p, p = .acked ∨ p = .retry →
      countState (setAll st ((taken take es).map snd) dst) n p =
        countState st n p + if dst = p then l.hit take else 0 := by
    intro p hp
    have hpi : p ≠ .inflight := by
      rcases hp with rfl | rfl <;> simp
    by_cases hpd : dst = p
    · subst hpd
      rw [if_pos rfl, countState_setAll_same hnd (fun x hx => h.lt (hin x hx))
        (fun x hx => by rw [hin x hx]; simpa using Ne.symm hne), length_map, h.hit]
    · rw [if_neg hpd, countState_setAll_other (Ne.symm hpd)
        (fun x hx => by rw [hin x hx]; simpa using Ne.symm hpi), Nat.add_zero]
  refine ⟨h.published, fun x => ?_, ?_, hheld.nodup, hheld.mem, ?_, ?_⟩
  · rw [← h.dom]
    exact setAll_eq_none (fun y hy => by simp [hin y hy]) _ x
  · rw [Ledger.settle, ← h.tags, filter_map]
    rfl
  · rw [hcount _ (.inl rfl), h.acked]
    rfl
  · rw [hcount _ (.inr rfl), h.retry]
    rfl

theorem Counted.retryAll (h : Counted l st n es) (hb : l.published < 2 ^ 32) {S : List Nat}
    (hnd : S.Nodup) (hS : ∀ x, x ∈ S ↔ st x = some .retry) :
    S.length % 2 ^ 32 = l.retry ∧
      Counted { l with retry := 0 } (setAll st S .sparseReady) n es := by
  have hlt : ∀ x ∈ S, x < n := fun x hx => h.lt ((hS x).mp hx)
  have hheld : Inflight (setAll st S .sparseReady) (es.map snd) :=
    h.held.other (fun x hx => by simp [(hS x).mp hx]) (by simp)
  refine ⟨?_, h.published, fun x => ?_, h.tags, hheld.nodup, hheld.mem, ?_, ?_⟩
  · have hle := length_le_of_lt hnd hlt
    rw [h.published] at hle
    rw [Nat.mod_eq_of_lt (by omega), ← h.retry, countState_of_list hnd hS hlt]
  · rw [← h.dom]
    exact setAll_eq_none (fun y hy => by simp [(hS y).mp hy]) _ x
  · rw [countState_setAll_other (by simp) (fun x hx => by simp [(hS x).mp hx]), h.acked]
  · exact countState_setAll_all (by simp) hS

theorem Ledger.next_ack (l : Ledger) (req : AckRequest) :
    l.next (.ack req) = ((l.next (.nack ⟨req.tag, req.mode, .reject⟩)).1,
      (l.next (.nack ⟨req.tag, req.mode, .reject⟩)).2.asAck) := by
  simp only [next, ack, nack]
  split <;> rfl

theorem HybridSide.next_ack (h : HybridSide) (req : AckRequest) :
    h.next (.ack req) = ((h.next (.nack ⟨req.tag, req.mode, .reject⟩)).1,
      (h.next (.nack ⟨req.tag, req.mode, .reject⟩)).2.asAck) := by
  rcases ack_drops h.session req h.queue with ⟨e, hack, hnack⟩ | ⟨s, q, r, ranges, hack, hnack⟩
  · rw [next, next, hack, hnack]
    rfl
  · rw [next, next, hack, hnack]
    rfl

theorem ModelSide.next_ack (m : ModelSide) (req : AckRequest) :
    m.next (.ack req) = ((m.next (.nack ⟨req.tag, req.mode, .reject⟩)).1,
      (m.next (.nack ⟨req.tag, req.mode, .reject⟩)).2.asAck) := by
  rw [next, next, model_ack_eq]
  cases m.session.nack ⟨req.tag, req.mode, .reject⟩ m.queue <;> rfl

/-! ## The hybrid side refines the ledger -/

/-- Session and queue as the ledger counts them. -/
structure HybridCounts (h : HybridSide) (l : Ledger) (st : Nat → Option MessageState) : Prop where
  owns : Owns h.queue st [h.session]
  exact : Exact h.session
  mode : h.session.credit.mode = l.prefetch
  nextTag : h.session.nextTag = l.nextTag
  counted : Counted l st h.queue.nextSeq h.session.entries
  bound : l.published < 2 ^ 32

/-- The relation of a live session. -/
def HybridRel (h : HybridSide) (l : Ledger) : Prop :=
  (∃ st, HybridCounts h l st) ∧ h.session.cancelled = false

section Hybrid

variable {h : HybridSide}

theorem HybridCounts.see (hc : HybridCounts h l st) (outcome : Outcome) :
    h.see outcome = l.see outcome := by
  have h1 := hc.exact.1
  have h2 := hc.exact.2
  rw [HybridSide.see, Ledger.see, unackedCount, inFlightCredit,
    h1, h2, hc.counted.length_tags, hc.counted.tags, hc.owns.denotes.debugCounts,
    hc.counted.counts]

/-- Any settlement is the ledger's. -/
theorem HybridCounts.settle (hc : HybridCounts h l st) (hdst : dst = .acked ∨ dst = .retry)
    {s' : ConsumerSession} {q' : HybridRangeBlockQueue}
    (hset : Settles take dst h.session h.queue st s' q') :
    ∃ st', HybridCounts ⟨s', q'⟩ (l.settle take dst) st' := by
  have hne : dst ≠ .inflight := by
    rcases hdst with rfl | rfl <;> simp
  have howns := (show Owns h.queue st ([] ++ h.session :: []) from hc.owns).settle hne hset
  refine ⟨_, howns, hset.exact hc.exact (hc.counted.length_lt hc.bound), hset.frame.1.trans hc.mode,
    hset.nextTag.trans hc.nextTag, ?_, hc.bound⟩
  dsimp only
  rw [hset.entries, hset.nextSeq]
  exact hc.counted.settle take hdst

theorem HybridRel.publish (hr : HybridRel h l) (count : UInt32)
    (hfits : l.published + count.toNat < 2 ^ 32) :
    HybridRel (h.next (.publish count)).1 (l.next (.publish count)).1 := by
  obtain ⟨⟨st, hc⟩, hlive⟩ := hr
  obtain ⟨-, hnext, -⟩ := hc.owns.denotes.publishContiguous count.toNat
  refine ⟨⟨_, hc.owns.publish count.toNat, hc.exact, hc.mode, hc.nextTag, ?_, hfits⟩, hlive⟩
  dsimp only [HybridSide.next]
  rw [hnext]
  exact hc.counted.publish fun _ => rfl

theorem HybridCounts.credit (hc : HybridCounts h l st) (max : UInt32) :
    min h.session.credit.available max.toNat = l.credit max.toNat := by
  have hmax : max.toNat < 2 ^ 32 := max.toNat_lt
  have hin := hc.exact.2
  have hlen := hc.counted.length_tags
  rw [ConsumerCredit.available, Ledger.credit, hc.mode]
  cases l.prefetch with
  | unlimited =>
    dsimp only [u32Max]
    omega
  | limited n =>
    dsimp only
    rw [hin, hlen, Nat.min_comm]

theorem HybridRel.deliver (hr : HybridRel h l) (max : UInt32) :
    HybridRel (h.next (.deliver max)).1 (l.next (.deliver max)).1 ∧
      (h.next (.deliver max)).2 = (l.next (.deliver max)).2 := by
  obtain ⟨⟨st, hc⟩, hlive⟩ := hr
  obtain ⟨S, s', q', out, n, heq, hd⟩ := deliverFromQueue_spec
    (hc.owns.ok _ (mem_singleton.mpr rfl)) hc.owns.denotes hlive max.toNat
  have howns := (show Owns h.queue st ([] ++ h.session :: []) from hc.owns).deliver hd
  obtain ⟨hlen, hcount⟩ := hc.counted.deliver
    ⟨hd.nodup, hd.available, hd.le, hd.exhausted⟩
  rw [hc.credit] at hlen
  have hgrant : l.grant max.toNat = S.length := hlen.symm
  rw [HybridSide.next, heq]
  dsimp only [HybridSide.after, Ledger.next]
  rw [hgrant, hd.count]
  refine ⟨⟨⟨_, howns, ?_, hd.frame.2.1.trans hc.mode, ?_, ?_, hc.bound⟩,
    hd.frame.1.trans hlive⟩, rfl⟩
  · refine hd.exact hc.exact ?_
    have h1 := howns.entries_length_le (s := s') (by simp)
    have h2 := hd.nextSeq
    have h3 := hc.counted.published
    have h4 := hc.bound
    omega
  · rw [hd.nextTag, hc.nextTag]
    rfl
  · dsimp only
    rw [hd.nextSeq, hd.entries, hc.nextTag]
    exact hcount

theorem target_cases (reason : NackReason) : target reason = .acked ∨ target reason = .retry := by
  cases reason <;> simp [target]

theorem HybridRel.nack (hr : HybridRel h l) (req : NackRequest) :
    HybridRel (h.next (.nack req)).1 (l.next (.nack req)).1 ∧
      (h.next (.nack req)).2 = (l.next (.nack req)).2 := by
  obtain ⟨⟨st, hc⟩, hlive⟩ := hr
  rcases hc.owns.nack_cases (mem_singleton.mpr rfl) req with
    ⟨s', q', heq, hset, hcan, hx⟩ | ⟨heq, hx⟩
  · rw [HybridSide.next, heq, Ledger.next, Ledger.nack, if_pos (hc.counted.mem_tags.mpr hx),
      hc.counted.hit_mod hc.bound]
    exact ⟨⟨hc.settle (target_cases req.reason) hset, hcan.trans hlive⟩, rfl⟩
  · rw [HybridSide.next, heq, Ledger.next, Ledger.nack,
      if_neg fun hm => not_exists.mpr hx (hc.counted.mem_tags.mp hm)]
    exact ⟨⟨⟨st, hc⟩, hlive⟩, rfl⟩

theorem HybridRel.retryAllNow (hr : HybridRel h l) :
    HybridRel (h.next .retryAllNow).1 (l.next .retryAllNow).1 ∧
      (h.next .retryAllNow).2 = (l.next .retryAllNow).2 := by
  obtain ⟨⟨st, hc⟩, hlive⟩ := hr
  obtain ⟨S, hq, hnd, hS, hmoved, hnext⟩ := hc.owns.denotes.retryAllNow
  obtain ⟨hlen, hcount⟩ := hc.counted.retryAll hc.bound hnd hS
  have hheld : Inflight (setAll st S .sparseReady) (holdings [h.session]) :=
    hc.owns.held.other (fun x hx => by simp [(hS x).mp hx]) (by simp)
  refine ⟨⟨⟨_, ⟨hq, hc.owns.ok, hheld.nodup, hheld.mem⟩,
    hc.exact, hc.mode, hc.nextTag, ?_, hc.bound⟩,
    hlive⟩, ?_⟩
  · dsimp only [HybridSide.next]
    rw [hnext]
    exact hcount
  · rw [HybridSide.next, hmoved, hlen]
    rfl

theorem HybridRel.step (hr : HybridRel h l) (op : SessionOp)
    (hfits : (l.next op).1.published < 2 ^ 32) :
    HybridRel (h.next op).1 (l.next op).1 ∧ (h.next op).2 = (l.next op).2 := by
  cases op with
  | publish count => exact ⟨hr.publish count hfits, rfl⟩
  | deliver max => exact hr.deliver max
  | ack req =>
    rw [HybridSide.next_ack, Ledger.next_ack]
    exact (hr.nack _).imp_right (congrArg Outcome.asAck)
  | nack req => exact hr.nack req
  | reject req => exact hr.nack ⟨req.tag, .one, req.reason⟩
  | retryAllNow => exact hr.retryAllNow

theorem cancel_target_cases (disp : CancelDisposition) :
    disp.target = .acked ∨ disp.target = .retry := by
  cases disp <;> simp [CancelDisposition.target]

theorem HybridRel.cancel (hr : HybridRel h l) (disp : CancelDisposition) :
    (h.cancel disp).1.see (h.cancel disp).2 = (l.cancel disp).1.see (l.cancel disp).2 := by
  obtain ⟨⟨st, hc⟩, -⟩ := hr
  obtain ⟨hset, -, hres⟩ := cancel_spec (hc.owns.ok _ (mem_singleton.mpr rfl))
    hc.owns.denotes (hc.owns.entries_inflight (mem_singleton.mpr rfl)) disp
  obtain ⟨st', hc'⟩ := hc.settle (cancel_target_cases disp) hset
  have hout : (h.cancel disp).2 = (l.cancel disp).2 := by
    refine congrArg Outcome.cancelled ?_
    rw [hres, Nat.mod_eq_of_lt (hc.counted.length_lt hc.bound), hc.counted.length_tags]
  rw [hout]
  exact hc'.see _

end Hybrid

/-! ## The model side refines the ledger -/

structure ModelRel (m : ModelSide) (l : Ledger) : Prop where
  owns : ModelOwns m.session m.queue
  mode : m.session.prefetch = l.prefetch
  nextTag : m.session.nextTag = l.nextTag
  counted : Counted l m.queue.stateOf m.queue.states.length m.session.entries
  bound : l.published < 2 ^ 32

section Model

variable {m : ModelSide}

theorem ModelRel.see (hr : ModelRel m l) (outcome : Outcome) : m.see outcome = l.see outcome := by
  have hlen : m.session.unacked.length = m.session.entries.length := by
    simp [ModelConsumerSession.entries]
  rw [ModelSide.see, Ledger.see, ModelConsumerSession.unackedCount,
    ModelConsumerSession.inFlightCount, hlen, Nat.mod_eq_of_lt (hr.counted.length_lt hr.bound),
    hr.owns.credit, hr.counted.length_tags, hr.counted.tags,
    counts_eq, hr.counted.counts]

theorem ModelRel.settle (hr : ModelRel m l) (hdst : dst = .acked ∨ dst = .retry)
    {s' : ModelConsumerSession} {q' : ModelQueue}
    (hset : ModelSettles take dst m.session m.queue s' q') :
    ModelRel ⟨s', q'⟩ (l.settle take dst) := by
  refine ⟨hset.owns, hset.frame.2.trans hr.mode, hset.frame.1.trans hr.nextTag, ?_, hr.bound⟩
  dsimp only
  rw [hset.entries, hset.length, hset.state]
  exact hr.counted.settle take hdst

theorem ModelRel.publish (hr : ModelRel m l) (count : UInt32)
    (hfits : l.published + count.toNat < 2 ^ 32) :
    ModelRel (m.next (.publish count)).1 (l.next (.publish count)).1 := by
  obtain ⟨hok, hlen, hst⟩ := publish_ok hr.owns.ok count.toNat
  have hcount := hr.counted.publish hst
  refine ⟨⟨hok, hr.owns.sorted, hr.owns.bounds, hr.owns.nodup, hcount.inflight, hr.owns.credit⟩,
    hr.mode, hr.nextTag, ?_, hfits⟩
  dsimp only [ModelSide.next, publishContiguous]
  rw [hlen]
  exact hcount

theorem ModelRel.deliver (hr : ModelRel m l) (max : UInt32) :
    ModelRel (m.next (.deliver max)).1 (l.next (.deliver max)).1 ∧
      (m.next (.deliver max)).2 = (l.next (.deliver max)).2 := by
  have hbound : m.queue.states.length < 2 ^ 32 := by
    rw [hr.counted.published]
    exact hr.bound
  obtain ⟨S, s', q', out, heq, hhand, howns, hst, hlen, hent, htag, hmode, hout⟩ :=
    model_deliver_spec hr.owns hbound max.toNat
  have hav : modelAvailable m.session max.toNat = l.credit max.toNat := by
    rw [modelAvailable, Ledger.credit, hr.mode]
    cases l.prefetch with
    | unlimited => rfl
    | limited n =>
      dsimp only
      rw [hr.owns.credit, hr.counted.length_tags]
  rw [hav] at hhand
  obtain ⟨hS, hcount⟩ := hr.counted.deliver hhand
  have hgrant : l.grant max.toNat = S.length := hS.symm
  dsimp only [ModelSide.next, Ledger.next]
  rw [heq, hgrant, hout]
  refine ⟨⟨howns, hmode.trans hr.mode, ?_, ?_, hr.bound⟩, rfl⟩
  · rw [htag, hr.nextTag]
    rfl
  · rw [hlen, hent, hst, hr.nextTag]
    exact hcount

theorem ModelRel.nack (hr : ModelRel m l) (req : NackRequest) :
    ModelRel (m.next (.nack req)).1 (l.next (.nack req)).1 ∧
      (m.next (.nack req)).2 = (l.next (.nack req)).2 := by
  obtain ⟨tag, mode, reason⟩ := req
  by_cases hx : ∃ x, (tag, x) ∈ m.session.entries
  · have hmem : tag ∈ l.tags := hr.counted.mem_tags.mpr hx
    obtain ⟨x, hx⟩ := hx
    obtain ⟨s', q', heq, hset⟩ := model_nack_ok hr.owns hx mode reason
    rw [ModelSide.next, heq, Ledger.next, Ledger.nack, if_pos hmem,
      hr.counted.hit_mod hr.bound]
    exact ⟨hr.settle (target_cases reason) hset, rfl⟩
  · have hmem : tag ∉ l.tags := fun hm => hx (hr.counted.mem_tags.mp hm)
    rw [ModelSide.next, model_nack_refused (not_exists.mp hx), Ledger.next, Ledger.nack,
      if_neg hmem]
    exact ⟨hr, rfl⟩

theorem ModelRel.retryAllNow (hr : ModelRel m l) :
    ModelRel (m.next .retryAllNow).1 (l.next .retryAllNow).1 ∧
      (m.next .retryAllNow).2 = (l.next .retryAllNow).2 := by
  obtain ⟨S, hok, hst, hnd, hS, hmoved, hlen⟩ := retryAllNow_ok hr.owns.ok
  obtain ⟨hSlen, hcount⟩ := hr.counted.retryAll hr.bound hnd hS
  rw [← hst] at hcount
  refine ⟨⟨⟨hok, hr.owns.sorted, hr.owns.bounds, hr.owns.nodup, hcount.inflight, hr.owns.credit⟩,
    hr.mode, hr.nextTag, ?_, hr.bound⟩, ?_⟩
  · dsimp only [ModelSide.next]
    rw [hlen]
    exact hcount
  · rw [ModelSide.next, hmoved, hSlen]
    rfl

theorem ModelRel.step (hr : ModelRel m l) (op : SessionOp)
    (hfits : (l.next op).1.published < 2 ^ 32) :
    ModelRel (m.next op).1 (l.next op).1 ∧ (m.next op).2 = (l.next op).2 := by
  cases op with
  | publish count => exact ⟨hr.publish count hfits, rfl⟩
  | deliver max => exact hr.deliver max
  | ack req =>
    rw [ModelSide.next_ack, Ledger.next_ack]
    exact (hr.nack _).imp_right (congrArg Outcome.asAck)
  | nack req => exact hr.nack req
  | reject req => exact hr.nack ⟨req.tag, .one, req.reason⟩
  | retryAllNow => exact hr.retryAllNow

theorem ModelRel.cancel (hr : ModelRel m l) (disp : CancelDisposition) :
    (m.cancel disp).1.see (m.cancel disp).2 = (l.cancel disp).1.see (l.cancel disp).2 := by
  obtain ⟨hset, hres⟩ := model_cancel_spec hr.owns (hr.counted.length_lt hr.bound) disp
  have hr' := hr.settle (cancel_target_cases disp) hset
  have hout : (m.cancel disp).2 = (l.cancel disp).2 := by
    refine congrArg Outcome.cancelled ?_
    rw [hres, Nat.mod_eq_of_lt (hr.counted.length_lt hr.bound), hr.counted.length_tags]
  rw [hout]
  exact hr'.see _

end Model

/-! ## Lockstep -/

/-- The messages an operation publishes. -/
def SessionOp.count : SessionOp → Nat
  | .publish count => count.toNat
  | _ => 0

theorem Ledger.published_next (l : Ledger) (op : SessionOp) :
    (l.next op).1.published = l.published + op.count := by
  cases op with
  | ack req => rw [next, ack]; split <;> rfl
  | nack req => rw [next, nack]; split <;> rfl
  | reject req => rw [next, nack]; split <;> rfl
  | _ => rfl

theorem Ledger.along (ops : List SessionOp) : ∀ l : Ledger,
    l.published + (ops.map SessionOp.count).sum < 2 ^ 32 →
    Ledger.machine.Along (fun l op => (l.next op).1.published < 2 ^ 32) l ops := by
  induction ops with
  | nil => exact fun _ _ => trivial
  | cons op ops ih =>
    intro l hlt
    rw [map_cons, sum_cons] at hlt
    refine ⟨?_, ih _ ?_⟩
    · change (l.next op).1.published < 2 ^ 32
      rw [Ledger.published_next]
      omega
    · change (l.next op).1.published + _ < _
      rw [Ledger.published_next]
      omega

theorem hybridRel_new (id channelId : Nat) (prefetch : PrefetchMode) :
    HybridRel (HybridSide.new id channelId prefetch) (Ledger.new prefetch) := by
  have howns : Owns HybridRangeBlockQueue.empty (fun _ => none) ([] ++ []) := owns_empty
  refine ⟨⟨_, howns.join (sessionOk_new id channelId prefetch) rfl, exact_new .., rfl, rfl, ?_,
    by simp [Ledger.new]⟩, rfl⟩
  exact ⟨rfl, by simp [HybridSide.new, HybridRangeBlockQueue.empty], rfl, nodup_nil,
    by simp [HybridSide.new, ConsumerSession.new, ConsumerSession.entries,
      SegmentDeliveryWindow.new], rfl, rfl⟩

theorem modelRel_new (prefetch : PrefetchMode) :
    ModelRel (ModelSide.new prefetch) (Ledger.new prefetch) :=
  ⟨modelOwns_new prefetch, rfl, rfl, ⟨rfl, fun _ => ModelQueue.stateOf_eq_none, rfl,
    nodup_nil, (modelOwns_new prefetch).inflight, rfl, rfl⟩, by simp [Ledger.new]⟩

/-- **Lockstep.** On any sequence of operations that publishes fewer than
`2^32` messages, with or without a cancel at the end, session and queue
show the same as the reference model after every operation. -/
theorem lockstep (id channelId : Nat) (prefetch : PrefetchMode) (ops : List SessionOp)
    (last : Option CancelDisposition) (hpub : (ops.map SessionOp.count).sum < 2 ^ 32) :
    HybridSide.machine.trace (HybridSide.new id channelId prefetch) ops last =
      ModelSide.machine.trace (ModelSide.new prefetch) ops last := by
  have hfits := Ledger.along ops (Ledger.new prefetch) (by simpa [Ledger.new] using hpub)
  have hhybrid := Machine.trace_eq (m := HybridSide.machine) (n := Ledger.machine)
    (R := HybridRel) (fun h l op hr hf => by
      obtain ⟨hr', hout⟩ := hr.step op hf
      refine ⟨hr', ?_⟩
      obtain ⟨⟨st, hc⟩, -⟩ := hr'
      change (h.next op).1.see (h.next op).2 = (l.next op).1.see (l.next op).2
      rw [hout]
      exact hc.see _) (fun h l disp hr => hr.cancel disp)
    ops _ _ last (hybridRel_new id channelId prefetch) hfits
  have hmodel := Machine.trace_eq (m := ModelSide.machine) (n := Ledger.machine)
    (R := ModelRel) (fun h l op hr hf => by
      obtain ⟨hr', hout⟩ := hr.step op hf
      refine ⟨hr', ?_⟩
      change (h.next op).1.see (h.next op).2 = (l.next op).1.see (l.next op).2
      rw [hout]
      exact hr'.see _) (fun h l disp hr => hr.cancel disp)
    ops _ _ last (modelRel_new prefetch) hfits
  rw [hhybrid, hmodel]

/-- A run in which a message is nacked, retried and redelivered before
the rest is dropped by a cancel. -/
theorem lockstep_retry_cancel :
    (([.publish 3, .deliver 2, .nack ⟨1, .one, .requeue⟩, .retryAllNow, .deliver 9,
      .ack ⟨3, .multiple⟩] : List SessionOp).map SessionOp.count).sum < 2 ^ 32 ∧
    HybridSide.machine.trace (HybridSide.new 7 1 (.limited 2))
        [.publish 3, .deliver 2, .nack ⟨1, .one, .requeue⟩, .retryAllNow, .deliver 9,
          .ack ⟨3, .multiple⟩] (some .dropUnacked) =
      ModelSide.machine.trace (ModelSide.new (.limited 2))
        [.publish 3, .deliver 2, .nack ⟨1, .one, .requeue⟩, .retryAllNow, .deliver 9,
          .ack ⟨3, .multiple⟩] (some .dropUnacked) :=
  ⟨by decide, lockstep 7 1 (.limited 2) _ _ (by decide)⟩

end Aurum.Consumer
