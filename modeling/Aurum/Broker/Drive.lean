import Aurum.Broker.Effects

/-!
# Broker — driving a queue

`drive_queue` asks every attached consumer in turn to take what it can,
and each one takes until its credit or the queue is empty. So after a
single pass either nothing is ready any more or no attached consumer has
credit; the later passes find nothing to do. The 16-pass limit and the
order of the consumers play no part in it.
-/

namespace Aurum.Broker

open Aurum.Bits Aurum.Queue Aurum.Consumer Aurum.Protocol InMemoryShardExecutor List Function Option

variable {σ : Type}

/-- No message of the queue waits for delivery. -/
def NoReady (s : InMemoryShardExecutor σ) (queueId : Nat) : Prop :=
  ∀ x, s.stateOf queueId x ≠ some .ready ∧ s.stateOf queueId x ≠ some .sparseReady

/-- The consumer has no credit left. -/
def Spent (s : InMemoryShardExecutor σ) (c : Nat) : Prop :=
  ∀ state, s.consumers c = some state → state.session.credit.available = 0

/-- **The queue is driven**: nothing waits, or nobody can take it. -/
def Driven (s : InMemoryShardExecutor σ) (queueId : Nat) : Prop :=
  NoReady s queueId ∨
    ∀ c state, s.consumers c = some state → state.queueId = queueId →
      state.session.credit.available = 0

variable {s s' s'' : InMemoryShardExecutor σ} {c queueId : Nat}

/-- What deliveries to consumer `c` of the queue change. -/
structure Feeds (c queueId : Nat) (s s' : InMemoryShardExecutor σ) : Prop where
  coherent : Coherent s'
  durable : s'.durable = s.durable
  others : ∀ k, k ≠ c → s'.consumers k = s.consumers k
  elsewhere : ∀ k, k ≠ queueId → s'.queues k = s.queues k
  self : ∃ state, s'.consumers c = some state ∧ state.queueId = queueId
  ready : NoReady s queueId → NoReady s' queueId
  spent : Spent s c → s'.consumers c = s.consumers c

theorem Feeds.trans (h : Feeds c queueId s s') (h' : Feeds c queueId s' s'') :
    Feeds c queueId s s'' where
  coherent := h'.coherent
  durable := h'.durable.trans h.durable
  others := fun k hk => (h'.others k hk).trans (h.others k hk)
  elsewhere := fun k hk => (h'.elsewhere k hk).trans (h.elsewhere k hk)
  self := h'.self
  ready := fun hr => h'.ready (h.ready hr)
  spent := fun hs => by
    have hsame := h.spent hs
    exact (h'.spent fun state hc => hs state (hsame ▸ hc)).trans hsame

theorem Feeds.keeps_spent (h : Feeds c queueId s s') {k : Nat} (hs : Spent s k) : Spent s' k := by
  intro state hk
  by_cases hkc : k = c
  · subst hkc
    exact hs state (h.spent hs ▸ hk)
  · exact hs state (h.others k hkc ▸ hk)

/-- A driven queue stays driven. -/
theorem Feeds.driven (h : Feeds c queueId s s')
    (hc : ∃ state, s.consumers c = some state ∧ state.queueId = queueId)
    (hd : Driven s queueId) : Driven s' queueId := by
  rcases hd with hr | hall
  · exact .inl (h.ready hr)
  · refine .inr fun k state hk hid => ?_
    obtain ⟨state₀, hc₀, hid₀⟩ := hc
    have hspent : Spent s c := fun st hst => by
      obtain rfl : state₀ = st := some.inj (hc₀.symm.trans hst)
      exact hall c state₀ hc₀ hid₀
    by_cases hkc : k = c
    · subst hkc
      rw [h.spent hspent] at hk
      exact hall k state hk hid
    · rw [h.others k hkc] at hk
      exact hall k state hk hid

/-! ## One consumer -/

variable {state : ConsumerRuntimeState} {queue : QueueState} {ids : List Nat}

/-- One round: what it changes, and what is known when it delivers
nothing; otherwise the consumer holds more messages of the same queue. -/
theorem deliverRound_feeds (h : Coherent s) (hc : s.consumers c = some state)
    (hq : s.queues state.queueId = some queue) :
    ∃ s' n state' queue', s.deliverRound state.queueId c = (s', n) ∧
      Feeds c state.queueId s s' ∧ (n = 0 → Spent s' c ∨ NoReady s' state.queueId) ∧
      s'.consumers c = some state' ∧ s'.queues state.queueId = some queue' ∧
      state'.queueId = state.queueId ∧ queue'.queue.nextSeq = queue.queue.nextSeq ∧
      state'.session.entries.length = state.session.entries.length + n := by
  obtain ⟨queue', st, S, session, q, out, n, hq', hst, hdel, heq⟩ := deliverRound_spec h hc
  obtain rfl := some.inj (hq.symm.trans hq')
  have hcoh := (hasEffect_deliver h c false).1
  simp only [act, hc] at hcoh
  obtain ⟨s', n', hround⟩ : ∃ s' n', s.deliverRound state.queueId c = (s', n') := ⟨_, _, rfl⟩
  rw [hround] at heq hcoh
  obtain ⟨hs', rfl⟩ := Prod.mk.inj heq
  -- the registries and the message states after the round
  have hcons : s'.consumers =
      Function.update s.consumers c (some { state with session := session }) := by rw [hs']; rfl
  have hqueues : s'.queues =
      Function.update s.queues state.queueId (some { queue with queue := q }) := by rw [hs']; rfl
  have hstateOf : ∀ x, s'.stateOf state.queueId x = setAll st S .inflight x := by
    intro x
    simp only [stateOf, hqueues, update_self, bind_some]
    exact hdel.denotes.debugStateOf x
  have hbefore : ∀ x, s.stateOf state.queueId x = st x := fun x => by
    simp only [stateOf, hq, bind_some]
    exact hst.owns.denotes.debugStateOf x
  refine ⟨s', n', { state with session := session }, { queue with queue := q }, hround,
    ⟨hcoh, by rw [hs']; rfl, fun k hk => ?_, fun k hk => ?_, ⟨{ state with session := session }, by
      rw [hcons, update_self], rfl⟩, fun hr x => ?_, fun hs => ?_⟩, fun h0 => ?_,
    by rw [hcons, update_self], by rw [hqueues, update_self], rfl, hdel.nextSeq, ?_⟩
  · rw [hcons, update_of_ne hk]
  · rw [hqueues, update_of_ne hk]
  · rw [hstateOf]
    by_cases hx : x ∈ S
    · simp [setAll_of_mem hx]
    · rw [setAll_of_not_mem hx, ← hbefore]
      exact hr x
  · -- without credit nothing is asked for
    have h0 : n' = 0 := by
      have hle := hdel.le
      rw [hs state hc, Nat.zero_min] at hle
      rw [hdel.count]
      omega
    rw [hcons, hdel.idle h0, hc, ← hc, update_eq_self]
  · have hS : S = [] := eq_nil_of_length_eq_zero (by rw [← hdel.count, h0])
    by_cases hcredit : state.session.credit.available = 0
    · refine .inl fun state' hc' => ?_
      rw [hcons, update_self] at hc'
      obtain rfl := some.inj hc'
      simp only [hdel.idle h0, hcredit]
    · refine .inr fun x => ?_
      rw [hstateOf, hS, setAll_nil]
      exact hdel.exhausted (by rw [hS]; simp only [length_nil]; omega) x (by simp [hS])
  · simp only [hdel.entries, length_append, length_tagged, hdel.count]

/-- A consumer holds at most the messages of its queue. -/
theorem Coherent.entries_le (h : Coherent s) (hc : s.consumers c = some state)
    (hq : s.queues state.queueId = some queue) :
    state.session.entries.length ≤ queue.queue.nextSeq := by
  obtain ⟨queue', st, pre, post, hq', -, howns⟩ := h.owns_of hc
  obtain rfl := some.inj (hq.symm.trans hq')
  exact howns.entries_length_le (s := state.session) (by simp)

/-- **The loop of `deliver_consumer`** ends because the consumer has no
credit or the queue nothing to deliver; with `len() + 1` rounds it never
runs out of rounds. -/
theorem deliverLoop_feeds : ∀ (rounds : Nat) (s : InMemoryShardExecutor σ) (total : Nat)
    {state : ConsumerRuntimeState} {queue : QueueState}, Coherent s →
    s.consumers c = some state → state.queueId = queueId → s.queues queueId = some queue →
    queue.queue.nextSeq < state.session.entries.length + rounds →
    Feeds c queueId s (deliverLoop queueId c rounds s total).1 ∧
      (Spent (deliverLoop queueId c rounds s total).1 c ∨
        NoReady (deliverLoop queueId c rounds s total).1 queueId) := by
  intro rounds
  induction rounds with
  | zero =>
    intro s total state queue h hc hid hq hlt
    subst hid
    exact absurd (h.entries_le hc hq) (by omega)
  | succ rounds ih =>
    intro s total state queue h hc hid hq hlt
    subst hid
    obtain ⟨s', n, state', queue', hround, hfeeds, hdone, hc', hq', hid', hnext, hlen⟩ :=
      deliverRound_feeds h hc hq
    rw [deliverLoop, hround]
    dsimp only
    split
    · next h0 => exact ⟨hfeeds, hdone h0⟩
    · next hn =>
      obtain ⟨h1, h2⟩ := ih s' ((total + n) % 2 ^ 32) hfeeds.coherent hc' hid' hq' (by omega)
      exact ⟨hfeeds.trans h1, h2⟩

/-- More rounds change nothing. -/
theorem deliverLoop_enough (extra : Nat) : ∀ (rounds : Nat) (s : InMemoryShardExecutor σ)
    (total : Nat) {state : ConsumerRuntimeState} {queue : QueueState}, Coherent s →
    s.consumers c = some state → state.queueId = queueId → s.queues queueId = some queue →
    queue.queue.nextSeq < state.session.entries.length + rounds →
    deliverLoop queueId c (rounds + extra) s total = deliverLoop queueId c rounds s total := by
  intro rounds
  induction rounds with
  | zero =>
    intro s total state queue h hc hid hq hlt
    subst hid
    exact absurd (h.entries_le hc hq) (by omega)
  | succ rounds ih =>
    intro s total state queue h hc hid hq hlt
    subst hid
    obtain ⟨s', n, state', queue', hround, hfeeds, -, hc', hq', hid', hnext, hlen⟩ :=
      deliverRound_feeds h hc hq
    rw [Nat.add_right_comm, deliverLoop, deliverLoop, hround]
    dsimp only
    split
    · rfl
    · exact ih _ _ hfeeds.coherent hc' hid' hq' (by omega)

theorem deliverConsumer_feeds (h : Coherent s) (hc : s.consumers c = some state)
    (hid : state.queueId = queueId) :
    Feeds c queueId s (s.deliverConsumer c).1 ∧
      (Spent (s.deliverConsumer c).1 c ∨ NoReady (s.deliverConsumer c).1 queueId) := by
  subst hid
  obtain ⟨-, queue, hq⟩ := h.consumer c state hc
  simp only [deliverConsumer, hc, hq, map_some, getD_some]
  exact deliverLoop_feeds _ s 0 h hc rfl hq (by omega)

/-! ## One pass -/

/-- The consumers of `ids` are attached to the queue. -/
def Attached (s : InMemoryShardExecutor σ) (ids : List Nat) (queueId : Nat) : Prop :=
  ∀ c ∈ ids, ∃ state, s.consumers c = some state ∧ state.queueId = queueId

theorem Feeds.attached (h : Feeds c queueId s s') (ha : Attached s ids queueId) :
    Attached s' ids queueId := by
  intro k hk
  by_cases hkc : k = c
  · subst hkc
    exact h.self
  · rw [h.others k hkc]
    exact ha k hk

/-- Deliveries to any consumers of `ids`. -/
structure Sweeps (ids : List Nat) (queueId : Nat) (s s' : InMemoryShardExecutor σ) : Prop where
  coherent : Coherent s'
  durable : s'.durable = s.durable
  attached : Attached s' ids queueId
  registered : ∀ k, k ∉ ids → s'.consumers k = s.consumers k
  elsewhere : ∀ k, k ≠ queueId → s'.queues k = s.queues k
  ready : NoReady s queueId → NoReady s' queueId
  spent : ∀ k, Spent s k → Spent s' k
  driven : Driven s queueId → Driven s' queueId

theorem Sweeps.refl (h : Coherent s) (ha : Attached s ids queueId) : Sweeps ids queueId s s :=
  ⟨h, rfl, ha, fun _ _ => rfl, fun _ _ => rfl, id, fun _ h => h, id⟩

theorem Sweeps.trans (h : Sweeps ids queueId s s') (h' : Sweeps ids queueId s' s'') :
    Sweeps ids queueId s s'' where
  coherent := h'.coherent
  durable := h'.durable.trans h.durable
  attached := h'.attached
  registered := fun k hk => (h'.registered k hk).trans (h.registered k hk)
  elsewhere := fun k hk => (h'.elsewhere k hk).trans (h.elsewhere k hk)
  ready := fun hr => h'.ready (h.ready hr)
  spent := fun k hs => h'.spent k (h.spent k hs)
  driven := fun hd => h'.driven (h.driven hd)

theorem Feeds.sweeps (h : Feeds c queueId s s') (hc : c ∈ ids) (ha : Attached s ids queueId) :
    Sweeps ids queueId s s' where
  coherent := h.coherent
  durable := h.durable
  attached := h.attached ha
  registered := fun k hk => h.others k fun hkc => hk (hkc ▸ hc)
  elsewhere := h.elsewhere
  ready := h.ready
  spent := fun _ hs => h.keeps_spent hs
  driven := h.driven (ha c hc)

theorem driveOne_sweeps (queueId start i : Nat) (acc : InMemoryShardExecutor σ × Nat)
    (h : Coherent acc.1) (ha : Attached acc.1 ids queueId) :
    Sweeps ids queueId acc.1 (driveOne ids start acc i).1 ∧
      ∀ k, ids[(start + i) % ids.length]? = some k →
        Spent (driveOne ids start acc i).1 k ∨ NoReady (driveOne ids start acc i).1 queueId := by
  unfold driveOne
  cases hk : ids[(start + i) % ids.length]? with
  | none => exact ⟨.refl h ha, fun _ hc => (nomatch hc)⟩
  | some k =>
    have hmem : k ∈ ids := mem_of_getElem? hk
    obtain ⟨state, hc, hid⟩ := ha k hmem
    obtain ⟨hfeeds, hdone⟩ := deliverConsumer_feeds h hc hid
    refine ⟨hfeeds.sweeps hmem ha, fun k' hk' => ?_⟩
    obtain rfl := some.inj hk'
    exact hdone

/-- The consumers visited so far are spent, or nothing is ready. -/
theorem driveFold_sweeps (queueId start : Nat) :
    ∀ (is : List Nat) (acc : InMemoryShardExecutor σ × Nat), Coherent acc.1 →
      Attached acc.1 ids queueId →
      Sweeps ids queueId acc.1 (is.foldl (driveOne ids start) acc).1 ∧
        ∀ i ∈ is, ∀ k, ids[(start + i) % ids.length]? = some k →
          Spent (is.foldl (driveOne ids start) acc).1 k ∨
            NoReady (is.foldl (driveOne ids start) acc).1 queueId := by
  intro is
  induction is with
  | nil => exact fun acc h ha => ⟨.refl h ha, by simp⟩
  | cons i is ih =>
    intro acc h ha
    obtain ⟨h1, hdone⟩ := driveOne_sweeps queueId start i acc h ha
    obtain ⟨h2, hrest⟩ := ih (driveOne ids start acc i) h1.coherent h1.attached
    refine ⟨h1.trans h2, fun j hj k hk => ?_⟩
    rcases mem_cons.mp hj with rfl | hj
    · rcases hdone k hk with hs | hr
      · exact .inl (h2.spent k hs)
      · exact .inr (h2.ready hr)
    · exact hrest j hj k hk

/-- Starting anywhere, a pass visits every consumer. -/
theorem exists_visit (start : Nat) {k : Nat} (hk : k ∈ ids) :
    ∃ i < ids.length, ids[(start + i) % ids.length]? = some k := by
  obtain ⟨j, hj, hget⟩ := mem_iff_getElem.mp hk
  have hpos : 0 < ids.length := by omega
  have hmod : start % ids.length < ids.length := Nat.mod_lt _ hpos
  refine ⟨(j + (ids.length - start % ids.length)) % ids.length, Nat.mod_lt _ hpos, ?_⟩
  have hidx : (start + (j + (ids.length - start % ids.length)) % ids.length) % ids.length = j := by
    rw [Nat.add_mod_mod, ← Nat.mod_add_mod,
      show start % ids.length + (j + (ids.length - start % ids.length)) = j + ids.length by omega,
      Nat.add_mod_right, Nat.mod_eq_of_lt hj]
  rw [hidx, getElem?_eq_getElem hj, hget]

/-- **A pass drives the queue.** -/
theorem drivePass_sweeps (start : Nat) (h : Coherent s) (ha : Attached s ids queueId)
    (hids : ∀ c state, s.consumers c = some state → state.queueId = queueId → c ∈ ids) :
    Sweeps ids queueId s (drivePass ids start s).1 ∧
      Driven (drivePass ids start s).1 queueId := by
  obtain ⟨hsweep, hdone⟩ := driveFold_sweeps queueId start
    (List.range ids.length) (s, 0) h ha
  refine ⟨hsweep, ?_⟩
  by_cases hr : NoReady (drivePass ids start s).1 queueId
  · exact .inl hr
  · refine .inr fun k state hk hid => ?_
    have hmem : k ∈ ids := by
      by_contra hnot
      rw [show (drivePass ids start s).1.consumers k = s.consumers k from
        hsweep.registered k hnot] at hk
      exact hnot (hids k state hk hid)
    obtain ⟨i, hi, hvisit⟩ := exists_visit start hmem
    rcases hdone i (mem_range.mpr hi) k hvisit with hs | hr'
    · exact hs state hk
    · exact absurd hr' hr

/-! ## Passes -/

/-- Turning the start index changes neither messages nor consumers. -/
theorem rotate_sweeps (index : Nat) (h : Coherent s) (ha : Attached s ids queueId) :
    Sweeps ids queueId s (s.act (.rotate queueId index)) := by
  obtain ⟨hcoh, -⟩ := hasEffect_rotate h queueId index false
  cases hq : s.queues queueId with
  | none =>
    simp only [act, hq]
    exact .refl h ha
  | some queue =>
    simp only [act, hq] at hcoh ⊢
    have hstate : (s.setQueue queueId { queue with nextConsumerIndex := index }).stateOf queueId =
        s.stateOf queueId := by
      funext x
      simp [stateOf, InMemoryShardExecutor.setQueue, hq]
    exact ⟨hcoh, rfl, ha, fun _ _ => rfl, fun k hk => update_of_ne hk ..,
      fun hr x => hstate ▸ hr x, fun _ hs => hs, Or.imp_left fun hr x => hstate ▸ hr x⟩

theorem Sweeps.listed (h : Sweeps ids queueId s s')
    (hids : ∀ c state, s.consumers c = some state → state.queueId = queueId → c ∈ ids) :
    ∀ c state, s'.consumers c = some state → state.queueId = queueId → c ∈ ids := by
  intro c state hc hid
  by_contra hnot
  rw [h.registered c hnot] at hc
  exact hnot (hids c state hc hid)

/-- A step of the loop of `drive_queue` is a pass and a turn. -/
theorem driveLoop_succ (queueId : Nat) (ids : List Nat) (passes : Nat)
    (s : InMemoryShardExecutor σ) :
    ∃ start index, driveLoop queueId ids (passes + 1) s =
      if (drivePass ids start s).2 = 0 then (drivePass ids start s).1
      else driveLoop queueId ids passes ((drivePass ids start s).1.act (.rotate queueId index)) :=
  ⟨((s.queues queueId).map QueueState.nextConsumerIndex).getD 0, _, rfl⟩

/-- Further passes keep a driven queue driven. -/
theorem driveLoop_keeps :
    ∀ (passes : Nat) (s : InMemoryShardExecutor σ), Coherent s → Attached s ids queueId →
      (∀ c state, s.consumers c = some state → state.queueId = queueId → c ∈ ids) →
      Sweeps ids queueId s (driveLoop queueId ids passes s) := by
  intro passes
  induction passes with
  | zero => exact fun s h ha _ => .refl h ha
  | succ passes ih =>
    intro s h ha hids
    obtain ⟨start, index, heq⟩ := driveLoop_succ queueId ids passes s
    obtain ⟨hpass, -⟩ := drivePass_sweeps start h ha hids
    rw [heq]
    split
    · exact hpass
    · have hrot := rotate_sweeps index hpass.coherent hpass.attached
      have hboth := hpass.trans hrot
      exact hboth.trans (ih _ hboth.coherent hboth.attached (hboth.listed hids))

/-- The consumers attached to a queue are those listed at it. -/
theorem Coherent.attached (h : Coherent s) (hq : s.queues queueId = some queue) :
    Attached s queue.consumers queueId ∧
      ∀ c state, s.consumers c = some state → state.queueId = queueId → c ∈ queue.consumers := by
  obtain ⟨st, hst⟩ := h.queue _ queue hq
  refine ⟨fun c hc => ?_, fun c state hc hid => (hst.attached c).mpr (by rw [hc, ← hid]; rfl)⟩
  obtain ⟨state, hstate, hid⟩ := map_eq_some_iff.mp ((hst.attached c).mp hc)
  exact ⟨state, hstate, hid⟩

/-- **`drive_queue`**: afterwards nothing waits, or nobody can take it. -/
theorem driveQueue_driven (h : Coherent s) (queueId : Nat) :
    Driven (s.driveQueue queueId) queueId := by
  unfold driveQueue
  split
  · next hq => exact .inl fun x => by simp [stateOf, hq]
  · next queue hq =>
    obtain ⟨ha, hids⟩ := h.attached hq
    split
    · next hnil =>
      refine .inr fun c state hc hid => ?_
      have hmem := hids c state hc hid
      rw [hnil] at hmem
      cases hmem
    · -- the first pass drives the queue, the others keep it so
      obtain ⟨start, index, heq⟩ := driveLoop_succ queueId queue.consumers 15 s
      obtain ⟨hpass, hdriven⟩ := drivePass_sweeps start h ha hids
      rw [show maxDeliveryPasses = 15 + 1 from rfl, heq]
      split
      · exact hdriven
      · have hrot := rotate_sweeps index hpass.coherent hpass.attached
        have hboth := hpass.trans hrot
        exact (driveLoop_keeps 15 _ hboth.coherent hboth.attached (hboth.listed hids)).driven
          (hrot.driven hdriven)

/-- What `drive_queue` leaves alone: other queues and their consumers. -/
theorem driveQueue_frame (h : Coherent s) (queueId : Nat) :
    Coherent (s.driveQueue queueId) ∧ (s.driveQueue queueId).durable = s.durable ∧
      (∀ k, k ≠ queueId → (s.driveQueue queueId).queues k = s.queues k) ∧
      (∀ c, (s.consumers c).map ConsumerRuntimeState.queueId ≠ some queueId →
        (s.driveQueue queueId).consumers c = s.consumers c) ∧
      ∀ c, ((s.driveQueue queueId).consumers c).map ConsumerRuntimeState.queueId =
        (s.consumers c).map ConsumerRuntimeState.queueId := by
  unfold driveQueue
  split
  · exact ⟨h, rfl, fun _ _ => rfl, fun _ _ => rfl, fun _ => rfl⟩
  · next queue hq =>
    obtain ⟨ha, hids⟩ := h.attached hq
    split
    · exact ⟨h, rfl, fun _ _ => rfl, fun _ _ => rfl, fun _ => rfl⟩
    · have hsweep := driveLoop_keeps maxDeliveryPasses s h ha hids
      have hother : ∀ c, c ∉ queue.consumers →
          (driveLoop queueId queue.consumers maxDeliveryPasses s).consumers c = s.consumers c :=
        hsweep.registered
      refine ⟨hsweep.coherent, hsweep.durable, hsweep.elsewhere,
        fun c hc => hother c fun hmem => ?_, fun c => ?_⟩
      · obtain ⟨state, hstate, hid⟩ := ha c hmem
        exact hc (by rw [hstate, ← hid]; rfl)
      · by_cases hmem : c ∈ queue.consumers
        · obtain ⟨state, hstate, hid⟩ := ha c hmem
          obtain ⟨state', hstate', hid'⟩ := hsweep.attached c hmem
          rw [hstate, hstate', map_some, map_some, hid, hid']
        · rw [hother c hmem]

end Aurum.Broker
