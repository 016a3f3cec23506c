import Aurum.Broker.Actions
import Aurum.Consumer.Ownership

/-!
# Broker — the registries agree

The executor keeps two registries that refer to each other: a queue lists
the consumers attached to it, a consumer names its queue. `Coherent` says
that the references agree and that the sessions of the attached consumers
own the inflight messages of the queue. Every action keeps it.
-/

namespace Aurum.Broker

open Aurum.Bits Aurum.Queue Aurum.Consumer Aurum.Protocol List Function Option QueueState

def sessions (consumers : Nat → Option ConsumerRuntimeState) (ids : List Nat) :
    List ConsumerSession :=
  ids.filterMap fun c => (consumers c).map ConsumerRuntimeState.session

theorem sessions_append (consumers : Nat → Option ConsumerRuntimeState) (ids ids' : List Nat) :
    sessions consumers (ids ++ ids') = sessions consumers ids ++ sessions consumers ids' :=
  filterMap_append

variable {consumers : Nat → Option ConsumerRuntimeState} {c queueId : Nat}
  {state : ConsumerRuntimeState} {ids : List Nat} {session : ConsumerSession}
  {queue : QueueState}

theorem sessions_cons (hc : consumers c = some state) (ids : List Nat) :
    sessions consumers (c :: ids) = state.session :: sessions consumers ids := by
  simp [sessions, hc]

theorem sessions_update (hc : c ∉ ids) (entry : Option ConsumerRuntimeState) :
    sessions (Function.update consumers c entry) ids = sessions consumers ids := by
  refine filterMap_congr fun k hk => ?_
  rw [update_of_ne]
  rintro rfl
  exact hc hk

theorem mem_sessions : session ∈ sessions consumers ids ↔
      ∃ c ∈ ids, ∃ state, consumers c = some state ∧ state.session = session := by
  simp [sessions]

/-- A queue, the consumers attached to it and the state `st` of its
messages. -/
structure QueueOk (consumers : Nat → Option ConsumerRuntimeState) (queueId : Nat)
    (queue : QueueState) (st : Nat → Option MessageState) : Prop where
  owns : Owns queue.queue st (sessions consumers queue.consumers)
  nodup : queue.consumers.Nodup
  attached : ∀ c, c ∈ queue.consumers ↔
    (consumers c).map ConsumerRuntimeState.queueId = some queueId

/-- A registered consumer is live and has nothing left to announce. -/
structure ConsumerOk (state : ConsumerRuntimeState) : Prop where
  session : state.session.cancelled = false
  live : state.cancelled = false
  out : state.out = []

/-- **The registries agree.** -/
structure Coherent {σ : Type} (s : InMemoryShardExecutor σ) : Prop where
  queue : ∀ queueId queue, s.queues queueId = some queue →
    ∃ st, QueueOk s.consumers queueId queue st
  consumer : ∀ c state, s.consumers c = some state →
    ConsumerOk state ∧ ∃ queue, s.queues state.queueId = some queue

open InMemoryShardExecutor

variable {σ : Type} {s s' : InMemoryShardExecutor σ}

theorem coherent_new (shardId : Nat) (durable : Option σ) : Coherent (new shardId durable) :=
  ⟨fun _ _ h => (nomatch h), fun _ _ h => (nomatch h)⟩

/-- Only the registries matter. -/
theorem Coherent.congr (h : Coherent s) (hq : s'.queues = s.queues)
    (hc : s'.consumers = s.consumers) : Coherent s' :=
  ⟨by rw [hq, hc]; exact h.queue, by rw [hq, hc]; exact h.consumer⟩

/-- **Changes at one queue.** The entry of queue `k` is replaced, and the
consumers whose entries change are attached to `k` before and after. -/
theorem Coherent.replace (h : Coherent s) {k : Nat}
    (hqueues : s'.queues = Function.update s.queues k (some queue))
    (hqueue : ∃ st, QueueOk s'.consumers k queue st) (hframe : ∀ c, s'.consumers c = s.consumers c ∨
      (∀ state, s.consumers c = some state → state.queueId = k) ∧
        ∀ state, s'.consumers c = some state → ConsumerOk state ∧ state.queueId = k) :
    Coherent s' where
  queue := by
    intro j entry hj
    rw [hqueues, update_apply] at hj
    split at hj
    · next hjk =>
      subst hjk
      obtain rfl := some.inj hj
      exact hqueue
    · next hjk =>
      obtain ⟨st, hst⟩ := h.queue j entry hj
      -- what changed is not attached to `j`
      have hsame : ∀ c, (s.consumers c).map ConsumerRuntimeState.queueId = some j ∨
          (s'.consumers c).map ConsumerRuntimeState.queueId = some j →
          s'.consumers c = s.consumers c := by
        intro c hc
        refine (hframe c).resolve_right fun hk => ?_
        rcases hc with hc | hc <;> obtain ⟨state, hstate, hid⟩ := map_eq_some_iff.mp hc
        · exact hjk (hid.symm.trans (hk.1 state hstate))
        · exact hjk (hid.symm.trans (hk.2 state hstate).2)
      refine ⟨st, ?_, hst.nodup, fun c => (hst.attached c).trans ?_⟩
      · rw [show sessions s'.consumers entry.consumers = sessions s.consumers entry.consumers from
          filterMap_congr fun c hc => by rw [hsame c (.inl ((hst.attached c).mp hc))]]
        exact hst.owns
      · exact ⟨fun hc => hsame c (.inl hc) ▸ hc, fun hc => hsame c (.inr hc) ▸ hc⟩
  consumer := by
    intro c state hc
    rw [hqueues, update_apply]
    rcases hframe c with hsame | hk
    · obtain ⟨hok, entry, hentry⟩ := h.consumer c state (hsame ▸ hc)
      refine ⟨hok, ?_⟩
      split
      · exact ⟨queue, rfl⟩
      · exact ⟨entry, hentry⟩
    · exact ⟨(hk.2 state hc).1, queue, if_pos (hk.2 state hc).2⟩

/-- A new queue has no consumers. -/
theorem Coherent.declare (h : Coherent s) (hq : s.queues queueId = none) :
    Coherent (s.setQueue queueId empty) := by
  refine h.replace rfl ⟨_, owns_empty, by simp [empty], fun c => ?_⟩ fun _ => .inl rfl
  -- a consumer of the new queue would have a queue that does not exist
  simp only [empty, not_mem_nil, false_iff, setQueue]
  intro hc
  obtain ⟨state, hstate, rfl⟩ := map_eq_some_iff.mp hc
  obtain ⟨-, q, hq'⟩ := h.consumer c state hstate
  rw [hq] at hq'
  cases hq'

/-- The entry of a queue may be replaced by one with the same consumers
and an owned queue. -/
theorem Coherent.setQueue (h : Coherent s) (hq : s.queues queueId = some queue)
    {queue' : QueueState} (hids : queue'.consumers = queue.consumers)
    (howns : ∀ st ss, Owns queue.queue st ss → ∃ st', Owns queue'.queue st' ss) :
    Coherent (s.setQueue queueId queue') := by
  obtain ⟨st, hst⟩ := h.queue queueId queue hq
  obtain ⟨st', hst'⟩ := howns st _ hst.owns
  refine h.replace rfl ⟨st', ?_, hids ▸ hst.nodup, hids ▸ hst.attached⟩ fun _ => .inl rfl
  rw [hids]
  exact hst'

/-- The consumer among the sessions of its queue. -/
theorem QueueOk.split {st : Nat → Option MessageState} (h : QueueOk consumers queueId queue st)
    (hc : consumers c = some state) (hid : state.queueId = queueId) :
    ∃ pre post, queue.consumers = pre ++ c :: post ∧ c ∉ pre ∧ c ∉ post ∧
      Owns queue.queue st (sessions consumers pre ++ state.session :: sessions consumers post) := by
  have hmem : c ∈ queue.consumers := (h.attached c).mpr (by rw [hc, ← hid]; rfl)
  obtain ⟨pre, post, heq⟩ := append_of_mem hmem
  have hnd := h.nodup
  rw [heq] at hnd
  have hnot : c ∉ pre ++ post := (nodup_middle.mp hnd).notMem
  rw [mem_append, not_or] at hnot
  refine ⟨pre, post, heq, hnot.1, hnot.2, ?_⟩
  have howns := h.owns
  rwa [heq, sessions_append, sessions_cons hc] at howns

/-- A consumer, its queue, and its session among those that own the queue. -/
theorem Coherent.owns_of (h : Coherent s) (hc : s.consumers c = some state) :
    ∃ queue st pre post, s.queues state.queueId = some queue ∧
      QueueOk s.consumers state.queueId queue st ∧
      Owns queue.queue st (pre ++ state.session :: post) := by
  obtain ⟨-, queue, hq⟩ := h.consumer c state hc
  obtain ⟨st, hst⟩ := h.queue _ queue hq
  obtain ⟨pre, post, -, -, -, howns⟩ := hst.split hc rfl
  exact ⟨queue, st, _, _, hq, hst, howns⟩

/-- **A call on one session.** A session operation that keeps ownership
keeps the registries coherent. -/
theorem Coherent.putBack (h : Coherent s) (hc : s.consumers c = some state)
    (hq : s.queues state.queueId = some queue) {q : HybridRangeBlockQueue}
    (hlive : session.cancelled = false)
    (hstep : ∀ st pre post, Owns queue.queue st (pre ++ state.session :: post) →
      ∃ st', Owns q st' (pre ++ session :: post)) :
    Coherent (s.putBack c state queue session q) := by
  obtain ⟨st, hst⟩ := h.queue _ queue hq
  obtain ⟨pre, post, heq, hpre, hpost, howns⟩ := hst.split hc rfl
  obtain ⟨st', hst'⟩ := hstep st _ _ howns
  refine h.replace rfl ⟨st', ?_, hst.nodup, fun k => ?_⟩ fun k => ?_
  · dsimp only
    rw [heq, putBack_consumers, sessions_append, sessions_update hpre,
      sessions_cons (update_self c _ _), sessions_update hpost]
    exact hst'
  · rw [hst.attached, putBack_consumers, update_apply]
    split
    · next hk => rw [hk, hc]; rfl
    · rfl
  · rw [putBack_consumers, update_apply]
    split
    · next hk =>
      subst hk
      obtain ⟨hok, -⟩ := h.consumer k state hc
      exact .inr ⟨fun _ hk => some.inj (hc.symm.trans hk) ▸ rfl,
        fun _ hk => some.inj hk ▸ ⟨⟨hlive, hok.live, hok.out⟩, rfl⟩⟩
    · exact .inl rfl

/-- **A consumer starts** with an empty session. -/
theorem Coherent.start (h : Coherent s) {cmd : ConsumeStart}
    (hq : s.queues cmd.queueId = some queue) (hc : s.consumers cmd.consumerId = none) :
    Coherent ((s.setConsumer cmd.consumerId (startState cmd)).setQueue cmd.queueId
      (queue.attach cmd.consumerId)) := by
  obtain ⟨st, hst⟩ := h.queue _ queue hq
  have hnot : cmd.consumerId ∉ queue.consumers := by
    rw [hst.attached, hc]
    simp
  have hattach : queue.attach cmd.consumerId =
      { queue with consumers := queue.consumers ++ [cmd.consumerId] } := by
    rw [QueueState.attach, if_neg hnot]
  refine h.replace rfl ⟨st, ?_, ?_, fun k => ?_⟩ fun k => ?_
  · have howns : Owns queue.queue st (sessions s.consumers queue.consumers ++ []) := by
      rw [List.append_nil]
      exact hst.owns
    rw [hattach]
    simp only [InMemoryShardExecutor.setQueue, setConsumer]
    rw [sessions_append, sessions_update hnot, sessions_cons (update_self cmd.consumerId _ _)]
    exact howns.join (sessionOk_new cmd.consumerId cmd.channelId (prefetchMode cmd.prefetch)) rfl
  · rw [hattach]
    exact nodup_append_comm.mp (nodup_cons.mpr ⟨hnot, hst.nodup⟩)
  · rw [hattach, mem_append, mem_singleton, hst.attached]
    simp only [InMemoryShardExecutor.setQueue, setConsumer, update_apply]
    split
    · next hk => simp [hk, startState]
    · next hk => simp [hk]
  · simp only [InMemoryShardExecutor.setQueue, setConsumer, update_apply]
    split
    · next hk =>
      subst hk
      exact .inr ⟨fun _ hk => (by cases hc.symm.trans hk),
        fun _ hk => some.inj hk ▸ ⟨⟨rfl, rfl, rfl⟩, rfl⟩⟩
    · exact .inl rfl

/-- **A consumer leaves** after its session was drained. -/
theorem Coherent.remove (h : Coherent s) (hc : s.consumers c = some state)
    (hq : s.queues state.queueId = some queue) {disp : CancelDisposition}
    (hstep : ∀ st pre post, Owns queue.queue st (pre ++ state.session :: post) →
      ∃ st', Owns (state.session.cancel disp queue.queue).2.1 st' (pre ++ post)) :
    Coherent (s.removeConsumer c state queue disp) := by
  obtain ⟨st, hst⟩ := h.queue _ queue hq
  obtain ⟨pre, post, heq, hpre, hpost, howns⟩ := hst.split hc rfl
  obtain ⟨st', hst'⟩ := hstep st _ _ howns
  have hids : queue.consumers.filter (· ≠ c) = pre ++ post := by
    rw [heq, filter_append, filter_cons_of_neg (by simp),
      filter_eq_self.mpr fun a ha => by simpa using fun h : a = c => hpre (h ▸ ha),
      filter_eq_self.mpr fun a ha => by simpa using fun h : a = c => hpost (h ▸ ha)]
  have hcons : (s.removeConsumer c state queue disp).consumers =
      Function.update s.consumers c none := rfl
  refine h.replace rfl ⟨st', ?_, hst.nodup.filter _, fun k => ?_⟩ fun k => ?_
  · change Owns _ st' (sessions _ (queue.consumers.filter (· ≠ c)))
    rw [hids, hcons, sessions_append, sessions_update hpre, sessions_update hpost]
    exact hst'
  · change k ∈ queue.consumers.filter (· ≠ c) ↔ _
    rw [mem_filter, hst.attached, hcons, update_apply]
    split
    · next hk => simp [hk]
    · next hk => simp [hk]
  · rw [hcons, update_apply]
    split
    · next hk =>
      subst hk
      exact .inr ⟨fun _ hk => some.inj (hc.symm.trans hk) ▸ rfl, fun _ hk => (nomatch hk)⟩
    · exact .inl rfl

end Aurum.Broker
