import Aurum.Broker.Safety
import Aurum.Broker.Settle

/-!
# Broker — the forms of a settlement

A settlement names its tags as one tag, as everything up to a tag, as a
range, or as a mask over a base tag. Two loops walk a mask: that of
`exec_nack_command` visits the tags of its set bits; that of
`exec_ack_command` clears the bits one by one and counts the rounds, so it
asks for as many tags as there are bits, from the base on. `Drops` says
which tags a command takes from its consumer, whatever its form, and the
meaning of a mask is compared with it.
-/

namespace Aurum.Broker

open Aurum.Bits Aurum.Queue Aurum.Consumer Aurum.Protocol InMemoryShardExecutor List AckMode

/-! ## The tags a mask loop asks for -/

/-- The ack loop counts its rounds. -/
theorem ackMaskTags_eq (base : Nat) : ∀ (rounds : Nat) (m : Word) (seq : Nat),
    countOnes m ≤ rounds →
      ackMaskTags base rounds m seq = List.range' (base + seq) (countOnes m) := by
  intro rounds
  induction rounds with
  | zero =>
    intro m seq hle
    obtain rfl : m = 0#64 := countOnes_eq_zero.mp (Nat.le_zero.mp hle)
    rfl
  | succ rounds ih =>
    intro m seq hle
    by_cases hm : m = 0#64
    · subst hm
      rfl
    · have hcount := countOnes_clearLowest hm
      rw [ackMaskTags, if_neg hm, ih _ _ (by omega), ← hcount, range'_succ, Nat.add_assoc]

/-- The nack loop visits the set bits. -/
theorem nackMaskTags_eq (base : Nat) : ∀ (rounds : Nat) (m : Word) (bitPos : Nat),
    countOnes m ≤ rounds →
      nackMaskTags base rounds m bitPos = (positions m).map (base + bitPos + ·) := by
  intro rounds
  induction rounds with
  | zero =>
    intro m bitPos hle
    obtain rfl : m = 0#64 := countOnes_eq_zero.mp (Nat.le_zero.mp hle)
    rfl
  | succ rounds ih =>
    intro m bitPos hle
    by_cases hm : m = 0#64
    · subst hm
      rfl
    · have hpos := positions_shiftOut hm
      have hcount := congrArg List.length hpos
      rw [length_cons, length_map, ← countOnes, ← countOnes] at hcount
      rw [nackMaskTags, if_neg hm, hpos, map_cons, map_map]
      dsimp only
      rw [ih _ _ (by omega)]
      refine congrArg₂ List.cons (by omega) (map_congr_left fun i _ => ?_)
      simp only [Function.comp_apply]
      omega

/-- A tag a mask names: the base tag plus a set bit. -/
def maskNames (base : Nat) (mask : Word) (tag : Nat) : Bool :=
  decide (base ≤ tag) && mask.getLsbD (tag - base)

theorem mem_nackMaskTags (base : Nat) (mask : Word) (tag : Nat) :
    tag ∈ nackMaskTags base 64 mask 0 ↔ maskNames base mask tag = true := by
  rw [nackMaskTags_eq _ _ _ _ (countOnes_le mask), mem_map, maskNames, Bool.and_eq_true,
    decide_eq_true_eq]
  constructor
  · rintro ⟨i, hi, rfl⟩
    rw [Nat.add_zero, Nat.add_sub_cancel_left]
    exact ⟨Nat.le_add_right _ _, mem_positions.mp hi⟩
  · rintro ⟨hle, hbit⟩
    exact ⟨tag - base, mem_positions.mpr hbit, by omega⟩

theorem mem_ackMaskTags (base : Nat) (mask : Word) (tag : Nat) :
    tag ∈ ackMaskTags base 64 mask 0 ↔ base ≤ tag ∧ tag < base + countOnes mask := by
  rw [ackMaskTags_eq _ _ _ _ (countOnes_le mask), mem_range'_1, Nat.add_zero]

/-! ## The mask loops -/

theorem target_ne_inflight (reason : NackReason) : target reason ≠ .inflight := by
  cases reason <;> simp [target]

/-- **A loop over tags** settles those of them that are outstanding, and
counts them. -/
theorem settles_requests {pre post : List ConsumerSession} {reason : NackReason} :
    ∀ (tags : List Nat) (s : ConsumerSession) (q : HybridRangeBlockQueue) (n : Nat)
      (st : Nat → Option MessageState) {s' : ConsumerSession}
      {q' : HybridRangeBlockQueue} {n' : Nat},
      Owns q st (pre ++ s :: post) → n < 2 ^ 32 →
      (tags.map (⟨·, .one⟩)).foldl (requestStep reason) (s, q, n) = (s', q', n') →
      Settles (fun t => decide (t ∈ tags)) (target reason) s q st s' q' ∧
        n' = (n + (taken (fun t => decide (t ∈ tags)) s.entries).length) % 2 ^ 32 := by
  intro tags
  induction tags with
  | nil =>
    intro s q n st s' q' n' howns hlt h
    obtain ⟨rfl, rfl, rfl⟩ : s = s' ∧ q = q' ∧ n = n' := by simpa using h
    refine ⟨settles_none (howns.ok s (by simp)) howns.denotes (by simp), ?_⟩
    simp [taken]
    omega
  | cons tag tags ih =>
    intro s q n st s' q' n' howns hlt h
    -- the round for the first tag
    obtain ⟨s₁, q₁, n₁, hstep, hset, hn₁⟩ : ∃ s₁ q₁ n₁,
        requestStep reason (s, q, n) ⟨tag, .one⟩ = (s₁, q₁, n₁) ∧
        Settles (one.takes tag) (target reason) s q st s₁ q₁ ∧
        n₁ = (n + (taken (one.takes tag) s.entries).length) % 2 ^ 32 := by
      rcases howns.nack_cases (s := s) (by simp) ⟨tag, .one, reason⟩ with
        ⟨s₁, q₁, heq, hset, -⟩ | ⟨heq, hx⟩
      · refine ⟨s₁, q₁, _, ?_, hset, rfl⟩
        simp only [requestStep, heq, nackResult_nacked, Nat.add_mod_mod]
      · have hno : ∀ e ∈ s.entries, one.takes tag e.1 = false := by
          intro e he
          rw [takes, beq_eq_false_iff_ne]
          exact fun htag => hx e.2 (htag ▸ he)
        refine ⟨s, q, n, by simp only [requestStep, heq],
          settles_none (howns.ok s (by simp)) howns.denotes hno, ?_⟩
        rw [taken, filter_eq_nil_iff.mpr fun e he => by simp [hno e he], length_nil,
          Nat.add_zero, Nat.mod_eq_of_lt hlt]
    rw [map_cons, foldl_cons, hstep] at h
    obtain ⟨hset', hn'⟩ := ih s₁ q₁ n₁ _ (howns.settle (target_ne_inflight reason) hset)
      (by rw [hn₁]; exact Nat.mod_lt _ (by decide)) h
    have hor : ∀ t, decide (t ∈ tag :: tags) =
        (one.takes tag t || decide (t ∈ tags)) := by
      intro t
      rw [Bool.eq_iff_iff]
      simp [takes]
    refine ⟨(hset.trans hset').congr hor, ?_⟩
    rw [hn', hn₁, hset.entries, funext hor, length_taken_or, Nat.mod_add_mod, Nat.add_assoc]

/-! ## What a command takes from its consumer -/

section Commands

variable {σ : Type} {s s' : InMemoryShardExecutor σ} {c : Nat} {takes : Nat → Bool}
  {dst : MessageState}

/-- The tags outstanding at a consumer. -/
def heldTags (s : InMemoryShardExecutor σ) (c : Nat) : List Nat :=
  ((s.consumers c).map fun state => state.session.entries.map Prod.fst).getD []

variable {state : ConsumerRuntimeState} {takes' : Nat → Bool} {session : ConsumerSession}
  (store : ShardStorage σ)

theorem heldTags_of (hc : s.consumers c = some state) :
    heldTags s c = state.session.entries.map Prod.fst := by
  rw [heldTags, hc]
  rfl

theorem mem_heldTags {t : Nat} : t ∈ heldTags s c ↔ ∃ q x, s.Holds c q t x := by
  rw [heldTags]
  cases hc : s.consumers c with
  | none => simp [InMemoryShardExecutor.Holds, hc]
  | some state => simp [InMemoryShardExecutor.Holds, hc]

/-- Which tags a consumer loses can be read off. -/
theorem Drops.takes_eq {dst' : MessageState} (h : Drops c takes dst s s')
    (h' : Drops c takes' dst' s s') {t : Nat} (ht : t ∈ heldTags s c) : takes t = takes' t := by
  obtain ⟨q, x, hx⟩ := mem_heldTags.mp ht
  rw [Bool.eq_iff_iff]
  constructor
  · intro hin
    by_contra hno
    exact ((h.holds c q t x).mp ((h'.holds c q t x).mpr ⟨hx, fun hc => hno hc.2⟩)).2 ⟨rfl, hin⟩
  · intro hin
    by_contra hno
    exact ((h'.holds c q t x).mp ((h.holds c q t x).mpr ⟨hx, fun hc => hno hc.2⟩)).2 ⟨rfl, hin⟩

/-- Only what is said about outstanding tags matters. -/
theorem Drops.congr (h : Drops c takes dst s s') (ht : ∀ t ∈ heldTags s c, takes' t = takes t) :
    Drops c takes' dst s s' where
  holds := by
    intro c' q t x
    rw [h.holds]
    refine and_congr_right fun hx => not_congr (and_congr_right fun hcc => ?_)
    rw [ht t (mem_heldTags.mpr ⟨q, x, hcc ▸ hx⟩)]
  settled := fun q t x hx hin => h.settled q t x hx (by
    rw [← ht t (mem_heldTags.mpr ⟨q, x, hx⟩)]
    exact hin)
  kept := fun q x hno => h.kept q x fun t hx => by
    rw [← ht t (mem_heldTags.mpr ⟨q, x, hx⟩)]
    exact hno t hx

/-- The store, if there is one, takes the ranges the command acked. -/
def StoreTakes (s : InMemoryShardExecutor σ) (c : Nat) (cmd : AckCommand) : Prop :=
  ∀ state queue d session q r, s.consumers c = some state →
    s.queues state.queueId = some queue → s.durable = some d →
    ackSession state.session queue.queue cmd = .ok (session, q, r) →
    (store.appendAckRanges d state.queueId r.ranges).2 = true

/-- What an ack command that is not refused does and answers. -/
theorem ackItem_of (store : ShardStorage σ) {queue : QueueState} {st : Nat → Option MessageState}
    {q : HybridRangeBlockQueue} {cmd : AckCommand} {r : AckApplyResult}
    (hc : s.consumers c = some state) (hq : s.queues state.queueId = some queue)
    (hd : queue.queue.Denotes st)
    (hack : ackSession state.session queue.queue cmd = .ok (session, q, r))
    (hset : Settles takes .acked state.session queue.queue st session q) :
    Drops c takes .acked s (ackItem store c s cmd).1 ∧
      (∀ n, (ackItem store c s cmd).2 = .ok n ↔ n = r.acked ∧ StoreTakes store s c cmd) := by
  have hdrops := drops_putBack hc hq hd hset
  have htakes : StoreTakes store s c cmd ↔
      ∀ d, s.durable = some d → (store.appendAckRanges d state.queueId r.ranges).2 = true := by
    constructor
    · intro h d hdur
      exact h state queue d session q r hc hq hdur hack
    · intro h state' queue' d session' q' r' hc' hq' hdur hack'
      obtain rfl := Option.some.inj (hc.symm.trans hc')
      obtain rfl := Option.some.inj (hq.symm.trans hq')
      rw [hack, Except.ok.injEq] at hack'
      obtain ⟨rfl, rfl, rfl⟩ : session = session' ∧ q = q' ∧ r = r' := by simpa using hack'
      exact h d hdur
  simp only [htakes, ackItem, execAckCommand, hc, hq, hack]
  cases hdur : (s.putBack c state queue session q).durable with
  | none =>
    have hnone : s.durable = none := hdur
    refine ⟨hdrops, fun n => ⟨fun heq => ⟨(Except.ok.inj heq).symm, ?_⟩, fun hn => ?_⟩⟩
    · intro d hd
      rw [hnone] at hd
      cases hd
    · rw [hn.1]
      rfl
  | some d =>
    have hsome : s.durable = some d := hdur
    refine ⟨⟨hdrops.holds, hdrops.settled, hdrops.kept⟩, fun n => ?_⟩
    simp only [hsome, Option.some.injEq, forall_eq']
    by_cases hok : (store.appendAckRanges d state.queueId r.ranges).2 = true
    · rw [if_pos hok]
      exact ⟨fun heq => ⟨(Except.ok.inj heq).symm, hok⟩, fun hn => by rw [hn.1]; rfl⟩
    · rw [if_neg hok]
      exact ⟨fun heq => (by cases heq), fun hn => absurd hn.2 hok⟩

/-- The tags of a session are distinct, so a settlement takes at most as
many entries as it names tags. -/
theorem length_taken_le (hs : SessionOk session) (tags : List Nat) :
    (taken (fun t => decide (t ∈ tags)) session.entries).length ≤ tags.length := by
  have hnodup : ((taken (fun t => decide (t ∈ tags)) session.entries).map Prod.fst).Nodup := by
    have hsorted : session.entries.Pairwise (·.1 < ·.1) := hs.ordered.entries_sorted
    exact pairwise_map.mpr ((hsorted.filter _).imp fun h => Nat.ne_of_lt h)
  have hsub : (taken (fun t => decide (t ∈ tags)) session.entries).map Prod.fst ⊆ tags := by
    intro t ht
    obtain ⟨e, he, rfl⟩ := mem_map.mp ht
    simpa using (mem_filter.mp he).2
  simpa using (subperm_of_subset hnodup hsub).length_le

theorem countP_heldTags (hc : s.consumers c = some state) (p : Nat → Bool) :
    (heldTags s c).countP p = (taken p state.session.entries).length := by
  rw [heldTags_of hc, countP_map, countP_eq_length_filter]
  rfl

/-! ## The meaning of a mask -/

/-- What a mask means: exactly the outstanding tags it names are settled,
with their messages in state `dst`, and their number is reported. -/
structure MaskMeans (c base : Nat) (mask : Word) (dst : MessageState)
    (s : InMemoryShardExecutor σ) (res : InMemoryShardExecutor σ × Except CommandError Nat) :
    Prop where
  drops : Drops c (maskNames base mask) dst s res.1
  reports : res.2 = .ok ((heldTags s c).countP (maskNames base mask))

/-- **A nack mask means its bits.** -/
theorem nackMask_means (h : Coherent s) (hc : s.consumers c = some state) (base : Nat)
    (mask : Word) (disposition : NackDisposition) :
    MaskMeans c base mask (target (toReason disposition)) s
      (s.execNackCommand c (.mask base mask disposition)) := by
  obtain ⟨queue, st, pre, post, hq, -, howns⟩ := h.owns_of hc
  obtain ⟨session, q, n, hsession⟩ : ∃ session q n,
      nackSession state.session queue.queue (.mask base mask disposition) = .ok (session, q, n) :=
    ⟨_, _, _, rfl⟩
  obtain ⟨hset, hcount⟩ := settles_requests (nackMaskTags base 64 mask 0) state.session queue.queue
    0 st howns (by decide) (nackSession_requests hsession)
  have hnames : ∀ t, maskNames base mask t = decide (t ∈ nackMaskTags base 64 mask 0) := by
    intro t
    rw [Bool.eq_iff_iff, decide_eq_true_eq, mem_nackMaskTags]
  have hsmall := length_taken_le (howns.ok state.session (by simp)) (nackMaskTags base 64 mask 0)
  have hlen : (nackMaskTags base 64 mask 0).length = countOnes mask := by
    rw [nackMaskTags_eq _ _ _ _ (countOnes_le mask), length_map, countOnes]
  have hle := countOnes_le mask
  simp only [execNackCommand, execWith, hc, hq, hsession]
  refine ⟨drops_putBack hc hq howns.denotes (hset.congr hnames), ?_⟩
  dsimp only
  rw [hcount, countP_heldTags hc, funext hnames, Nat.zero_add, Nat.mod_eq_of_lt (by omega)]

/-- What an ack mask does: the loop asks for as many tags as the mask has
bits, from the base on. -/
theorem ackMask_drops (h : Coherent s) (hc : s.consumers c = some state)
    (base : Nat) (mask : Word) :
    Drops c (fun t => decide (base ≤ t ∧ t < base + countOnes mask)) .acked s
        (ackItem store c s (.mask base mask)).1 ∧
      ∀ n, (ackItem store c s (.mask base mask)).2 = .ok n ↔
        n = (heldTags s c).countP (fun t => decide (base ≤ t ∧ t < base + countOnes mask)) ∧
          StoreTakes store s c (.mask base mask) := by
  obtain ⟨queue, st, pre, post, hq, -, howns⟩ := h.owns_of hc
  obtain ⟨session, q, r, hsession⟩ : ∃ session q r,
      ackSession state.session queue.queue (.mask base mask) = .ok (session, q, r) :=
    ⟨_, _, _, rfl⟩
  obtain ⟨hset, hcount⟩ := settles_requests (ackMaskTags base 64 mask 0) state.session queue.queue
    0 st howns (by decide) (ackSession_requests hsession)
  have hnames : ∀ t, decide (base ≤ t ∧ t < base + countOnes mask) =
      decide (t ∈ ackMaskTags base 64 mask 0) := by
    intro t
    rw [Bool.eq_iff_iff, decide_eq_true_eq, decide_eq_true_eq, mem_ackMaskTags]
  have hsmall := length_taken_le (howns.ok state.session (by simp)) (ackMaskTags base 64 mask 0)
  have hle := countOnes_le mask
  have hlen : (ackMaskTags base 64 mask 0).length = countOnes mask := by
    rw [ackMaskTags_eq _ _ _ _ hle, length_range']
  obtain ⟨hdrops, hanswer⟩ := ackItem_of store hc hq howns.denotes hsession (hset.congr hnames)
  refine ⟨hdrops, fun n => ?_⟩
  rw [hanswer, hcount, countP_heldTags hc, funext hnames, Nat.zero_add,
    Nat.mod_eq_of_lt (by omega)]

/-! ## The meaning of a range -/

/-- Only tags of the range are settled, and all of them if all of them
are outstanding. -/
structure RangeMeans (c start last : Nat) (dst : MessageState) (s s' : InMemoryShardExecutor σ) :
    Prop where
  only : ∀ q t x, s.Holds c q t x → t < start ∨ last < t → s'.Holds c q t x
  all : (∀ t, start ≤ t → t ≤ last → t ∈ heldTags s c) →
    ∀ q t x, s.Holds c q t x → start ≤ t → t ≤ last →
      ¬ s'.Holds c q t x ∧ s'.stateOf q x = some dst

/-- What a range does: everything up to its last tag, if that is
outstanding, and nothing otherwise. -/
def UpTo (c last : Nat) (dst : MessageState) (s s' : InMemoryShardExecutor σ) : Prop :=
  (last ∈ heldTags s c → Drops c (fun t => decide (t ≤ last)) dst s s') ∧
    (last ∉ heldTags s c → s' = s)

theorem ackRange_upTo (h : Coherent s) (hc : s.consumers c = some state)
    (start last : Nat) : UpTo c last .acked s (ackItem store c s (.range start last)).1 := by
  obtain ⟨queue, st, pre, post, hq, -, howns⟩ := h.owns_of hc
  rw [UpTo, heldTags_of hc]
  constructor
  · intro hlast
    obtain ⟨⟨_, x⟩, hx, rfl⟩ := mem_map.mp hlast
    obtain ⟨session, q, ranges, heq, hset, -⟩ := ack_ok (howns.ok state.session (by simp))
      howns.denotes (howns.entries_inflight (by simp)) hx .multiple
    exact (@ackItem_of _ _ _ _ _ _ store _ _ _ (.range start _) _ hc hq howns.denotes heq hset).1
  · intro hlast
    have hno : ∀ x, (last, x) ∉ state.session.entries := fun x hx =>
      hlast (mem_map.mpr ⟨(last, x), hx, rfl⟩)
    simp only [ackItem, execAckCommand, hc, hq, ackSession, ack_refused hno]

theorem nackRange_upTo (h : Coherent s) (hc : s.consumers c = some state) (start last : Nat)
    (disposition : NackDisposition) :
    UpTo c last (target (toReason disposition)) s
      (s.execNackCommand c (.range start last disposition)).1 := by
  obtain ⟨queue, st, pre, post, hq, -, howns⟩ := h.owns_of hc
  rw [UpTo, heldTags_of hc]
  constructor
  · intro hlast
    obtain ⟨⟨_, x⟩, hx, rfl⟩ := mem_map.mp hlast
    obtain ⟨session, q, heq, hset, -⟩ := nack_ok (howns.ok state.session (by simp))
      howns.denotes (howns.entries_inflight (by simp)) hx .multiple (toReason disposition)
    simp only [execNackCommand, execWith, hc, hq, nackSession, heq]
    exact drops_putBack hc hq howns.denotes hset
  · intro hlast
    have hno : ∀ x, (last, x) ∉ state.session.entries := fun x hx =>
      hlast (mem_map.mpr ⟨(last, x), hx, rfl⟩)
    simp only [execNackCommand, execWith, hc, hq, nackSession, nack_refused hno]
    rfl

/-- Settling everything up to the last tag is settling the range exactly
when nothing below the range is outstanding. -/
theorem UpTo.rangeMeans_iff {start last : Nat} (h : UpTo c last dst s s') (hle : start ≤ last) :
    RangeMeans c start last dst s s' ↔
      (last ∈ heldTags s c → ∀ t ∈ heldTags s c, start ≤ t) := by
  constructor
  · intro hmeans hlast t ht
    by_contra hlt
    obtain ⟨q, x, hx⟩ := mem_heldTags.mp ht
    have hkept := hmeans.only q t x hx (.inl (by omega))
    exact (((h.1 hlast).holds c q t x).mp hkept).2 ⟨rfl, by simp; omega⟩
  · intro hfirst
    by_cases hlast : last ∈ heldTags s c
    · have hdrops := h.1 hlast
      constructor
      · intro q t x hx hout
        refine (hdrops.holds c q t x).mpr ⟨hx, fun htake => ?_⟩
        have hst := hfirst hlast t (mem_heldTags.mpr ⟨q, x, hx⟩)
        have htl : t ≤ last := by simpa using htake.2
        omega
      · intro _ q t x hx _ htl
        have htake : decide (t ≤ last) = true := by simpa using htl
        exact ⟨fun hkept => ((hdrops.holds c q t x).mp hkept).2 ⟨rfl, htake⟩,
          hdrops.settled q t x hx htake⟩
    · rw [h.2 hlast]
      exact ⟨fun q t x hx _ => hx, fun hall => absurd (hall last hle (Nat.le_refl _)) hlast⟩

end Commands

/-- **Settlement masks.** In every executor state that batches lead to, a
nack mask means its bits. An ack mask does if and only if its bits cannot
be told from as many contiguous ones: an outstanding tag `base + i` has
its bit set exactly when `i` is below the number of set bits (and the
store, if there is one, takes the ranges). -/
theorem mask_means_its_bits {σ : Type} (store : ShardStorage σ) (shardId : Nat)
    (durable : Option σ) (batches : List ShardCommandBatch) (c base : Nat) (mask : Word)
    (hc : ((new shardId durable).run store batches).consumers c ≠ none)
    (_hbase : base + 63 < 2 ^ 64) :
    (MaskMeans c base mask .acked ((new shardId durable).run store batches)
        (ackItem store c ((new shardId durable).run store batches) (.mask base mask)) ∧
      ∀ disposition, MaskMeans c base mask (target (toReason disposition))
        ((new shardId durable).run store batches)
        (((new shardId durable).run store batches).execNackCommand c
          (.mask base mask disposition))) ↔
    (∀ i < 64, base + i ∈ heldTags ((new shardId durable).run store batches) c →
      (mask.getLsbD i = true ↔ i < countOnes mask)) ∧
      StoreTakes store ((new shardId durable).run store batches) c (.mask base mask) := by
  obtain ⟨state, hc⟩ := Option.ne_none_iff_exists'.mp hc
  have h := coherent_run store shardId durable batches
  obtain ⟨hdrops, hanswer⟩ := ackMask_drops store h hc base mask
  have hle := countOnes_le mask
  -- what the mask says and what the loop takes, on one outstanding tag
  have hbit : ∀ t, (maskNames base mask t = decide (base ≤ t ∧ t < base + countOnes mask)) ↔
      (base ≤ t → (mask.getLsbD (t - base) = true ↔ t - base < countOnes mask)) := by
    intro t
    rw [Bool.eq_iff_iff, maskNames, Bool.and_eq_true, decide_eq_true_eq, decide_eq_true_eq]
    constructor
    · intro hiff hbt
      constructor
      · intro hset
        have := hiff.mp ⟨hbt, hset⟩
        omega
      · intro hlt
        exact (hiff.mpr ⟨hbt, by omega⟩).2
    · intro hiff
      refine and_congr_right fun hbt => (hiff hbt).trans ?_
      omega
  constructor
  · rintro ⟨hack, -⟩
    refine ⟨fun i hi hheld => ?_, ((hanswer _).mp hack.reports).2⟩
    have heq := hack.drops.takes_eq hdrops hheld
    simpa using (hbit (base + i)).mp heq (Nat.le_add_right _ _)
  · rintro ⟨hbits, hstore⟩
    have heq : ∀ t ∈ heldTags ((new shardId durable).run store batches) c,
        maskNames base mask t = decide (base ≤ t ∧ t < base + countOnes mask) := by
      intro t ht
      refine (hbit t).mpr fun hbt => ?_
      by_cases hi : t - base < 64
      · exact hbits (t - base) hi (by rwa [Nat.add_sub_cancel' hbt])
      · rw [BitVec.getLsbD_of_ge _ _ (by omega)]
        simp
        omega
    refine ⟨⟨hdrops.congr heq, (hanswer _).mpr ⟨countP_congr fun t ht => by
      rw [heq t ht], hstore⟩⟩, fun disposition => nackMask_means h hc base mask disposition⟩

/-- Three messages are outstanding at consumer 1 under the tags 1, 2, 3. -/
def threeDelivered : List ShardCommandBatch :=
  [.declare [0], .publish (.contiguous 0 3), .consume [⟨1, 1, 0, 0⟩]]

/-- Contiguous bits mean what they say. -/
theorem low_bits_acked : MaskMeans 1 1 3#64 .acked ((new 0 none).run .null threeDelivered)
      (ackItem .null 1 ((new 0 none).run .null threeDelivered) (.mask 1 3#64)) := by
  refine ((mask_means_its_bits .null 0 none threeDelivered 1 1 3#64 (by decide +kernel)
    (by decide)).mpr ⟨?_, fun _ _ _ _ _ _ _ _ _ _ => rfl⟩).1
  decide +kernel

/-- **The mask `0b101` over tag 1 acks the tags 1 and 2**, not 1 and 3. -/
theorem sparse_mask_acks_neighbour :
    heldTags ((new 0 none).run .null threeDelivered) 1 = [1, 2, 3] ∧
      heldTags (ackItem .null 1 ((new 0 none).run .null threeDelivered) (.mask 1 5#64)).1 1 =
        [3] ∧
      (ackItem .null 1 ((new 0 none).run .null threeDelivered) (.mask 1 5#64)).1.stateOf 0 1 =
        some .acked ∧
      ¬ MaskMeans 1 1 5#64 .acked ((new 0 none).run .null threeDelivered)
        (ackItem .null 1 ((new 0 none).run .null threeDelivered) (.mask 1 5#64)) := by
  refine ⟨by decide +kernel, by decide +kernel, by decide +kernel, fun hmeans => ?_⟩
  have hheld := (hmeans.drops.holds 1 0 3 2).mp (by decide +kernel)
  exact hheld.2 ⟨rfl, by decide⟩

end Aurum.Broker
