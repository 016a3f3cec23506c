import Aurum.Broker.Effects

/-!
# Broker — what a settlement batch changes

Ack, nack and reject batches run one loop over their items, add up in a
`u32` what the items settled, and drive the queue if the sum is not 0.
`Settled` says what such a call changes and that the count is the number
of messages that left the consumer, so that a count of 0 means that
nothing happened. It is exact as long as the consumer holds fewer than
`2^32` messages.
-/

namespace Aurum.Broker

open Aurum.Bits Aurum.Queue Aurum.Consumer Aurum.Protocol InMemoryShardExecutor List

variable {σ : Type} {s s' s'' : InMemoryShardExecutor σ} {c : Nat}

/-- The number of messages outstanding at a consumer. -/
def heldCount (s : InMemoryShardExecutor σ) (c : Nat) : Nat :=
  ((s.consumers c).map fun state => state.session.entries.length).getD 0

/-- **`n` messages left consumer `c`**, and nothing else changed. -/
structure Settled (c : Nat) (s s' : InMemoryShardExecutor σ) (n : Nat) : Prop where
  coherent : Coherent s'
  queueId : (s'.consumers c).map ConsumerRuntimeState.queueId =
    (s.consumers c).map ConsumerRuntimeState.queueId
  consumers : ∀ k, k ≠ c → s'.consumers k = s.consumers k
  queues : ∀ k, (s.consumers c).map ConsumerRuntimeState.queueId ≠ some k →
    s'.queues k = s.queues k
  durable : s'.durable = s.durable
  states : ∀ q x, s'.stateOf q x = s.stateOf q x ∨
    (s.stateOf q x = some .inflight ∧
      (s'.stateOf q x = some .retry ∨ s'.stateOf q x = some .acked))
  count : n + heldCount s' c = heldCount s c
  same : n = 0 → s' = s

/-- An unknown consumer settles nothing. -/
theorem Settled.registered {n : Nat} (hset : Settled c s s' n) (hpos : 0 < n) :
    ∃ state, s'.consumers c = some state := by
  cases hc : s'.consumers c with
  | some state => exact ⟨state, rfl⟩
  | none =>
    have hid := hset.queueId
    have hcount := hset.count
    rw [hc, Option.map_none] at hid
    simp only [heldCount, Option.map_eq_none_iff.mp hid.symm, Option.map_none,
      Option.getD_none] at hcount
    omega

theorem Settled.refl (h : Coherent s) (c : Nat) : Settled c s s 0 :=
  ⟨h, rfl, fun _ _ => rfl, fun _ _ => rfl, rfl, fun _ _ => .inl rfl, Nat.zero_add _, fun _ => rfl⟩

theorem Settled.trans {n m : Nat} (h : Settled c s s' n) (h' : Settled c s' s'' m) :
    Settled c s s'' (n + m) where
  coherent := h'.coherent
  queueId := h'.queueId.trans h.queueId
  consumers := fun k hk => (h'.consumers k hk).trans (h.consumers k hk)
  queues := fun k hk => (h'.queues k (h.queueId ▸ hk)).trans (h.queues k hk)
  durable := h'.durable.trans h.durable
  states := by
    intro q x
    rcases h'.states q x with heq' | ⟨hin', hout'⟩
    · rw [heq']
      exact h.states q x
    · -- what leaves now was inflight before, so it did not leave earlier
      refine .inr ⟨?_, hout'⟩
      rcases h.states q x with heq | ⟨hin, -⟩
      · rwa [← heq]
      · exact hin
  count := by
    have := h.count
    have := h'.count
    omega
  same := fun hnm => by
    rw [h'.same (by omega), h.same (by omega)]

/-! ## One call on the session -/

section

variable {state : ConsumerRuntimeState} {queue : QueueState} {session : ConsumerSession}
  {q : HybridRangeBlockQueue} {st : Nat → Option MessageState} {tag x : Nat} {mode : AckMode}
  {dst : MessageState}

/-- The messages a request takes, and no others, change their state. -/
theorem settled_putBack (hcoh : Coherent (s.putBack c state queue session q))
    (hc : s.consumers c = some state) (hq : s.queues state.queueId = some queue)
    (hd : queue.queue.Denotes st) (hin : ∀ e ∈ state.session.entries, st e.2 = some .inflight)
    (hset : Settles (mode.takes tag) dst state.session queue.queue st session q)
    (hdst : dst = .retry ∨ dst = .acked) (hx : (tag, x) ∈ state.session.entries) :
    Settled c s (s.putBack c state queue session q)
      (taken (mode.takes tag) state.session.entries).length := by
  have hmem : (tag, x) ∈ taken (mode.takes tag) state.session.entries :=
    mem_filter.mpr ⟨hx, by cases mode <;> simp [AckMode.takes]⟩
  refine ⟨hcoh, by simp [hc], fun k hk => ?_, fun k hk => ?_, rfl, fun k y => ?_, ?_, fun h0 => ?_⟩
  · rw [putBack_consumers, Function.update_of_ne hk]
  · rw [putBack_queues, Function.update_of_ne]
    rintro rfl
    exact hk (by rw [hc]; rfl)
  · rw [stateOf_putBack c state queue session hset.denotes]
    split
    · next hk =>
      subst hk
      have hsty : s.stateOf state.queueId y = st y := congrFun (view_state_of hq hd) y
      by_cases hy : y ∈ (taken (mode.takes tag) state.session.entries).map Prod.snd
      · rw [setAll_of_mem hy]
        obtain ⟨e, he, rfl⟩ := mem_map.mp hy
        refine .inr ⟨hsty.trans (hin e (mem_filter.mp he).1), ?_⟩
        simpa using hdst
      · rw [setAll_of_not_mem hy]
        exact .inl hsty.symm
    · exact .inl rfl
  · have hsum := taken_length_add (mode.takes tag) state.session.entries
    simpa [heldCount, hc, hset.entries] using hsum
  · -- the named message is among those taken
    exact absurd (length_pos_of_mem hmem) (by omega)

theorem target_cases (reason : NackReason) : target reason = .retry ∨ target reason = .acked := by
  cases reason <;> simp [target]

theorem nackResult_nacked (reason : NackReason) (n : Nat) : (nackResult reason n).nacked = n := by
  cases reason <;> rfl

/-- **One call of `nack`** that is not refused. -/
theorem settled_nack (h : Coherent s) (hc : s.consumers c = some state)
    (hq : s.queues state.queueId = some queue) (hlt : heldCount s c < 2 ^ 32)
    {req : NackRequest} {r : NackApplyResult}
    (hnack : state.session.nack req queue.queue = .ok (session, q, r)) :
    Settled c s (s.putBack c state queue session q) r.nacked := by
  obtain ⟨st, hst⟩ := h.queue _ queue hq
  obtain ⟨pre, post, -, -, -, howns⟩ := hst.split hc rfl
  have hcoh := (hasEffect_nack h c req).1
  rw [act, onSession_eq hc hq, hnack] at hcoh
  rcases howns.nack_cases (s := state.session) (by simp) req with
    ⟨session', q', heq, hset, -, x, hx⟩ | ⟨heq, -⟩
  · rw [heq, Except.ok.injEq] at hnack
    obtain ⟨rfl, rfl, rfl⟩ : session' = session ∧ q' = q ∧ _ = r := by simpa using hnack
    have hput := settled_putBack hcoh hc hq howns.denotes (howns.entries_inflight (by simp)) hset
      (target_cases req.reason) hx
    have hbound := hput.count
    rw [nackResult_nacked, Nat.mod_eq_of_lt (by omega)]
    exact hput
  · cases heq.symm.trans hnack

/-- **Requests in a row.** The sum stays below the messages held before, so
it does not wrap. -/
theorem settled_requests (h : Coherent s) (hc : s.consumers c = some state)
    (hq : s.queues state.queueId = some queue) (hlt : heldCount s c < 2 ^ 32)
    {reason : NackReason} {reqs : List AckRequest} {n : Nat}
    (hreqs : reqs.foldl (requestStep reason) (state.session, queue.queue, 0) = (session, q, n)) :
    Settled c s (s.putBack c state queue session q) n := by
  have hall := @List.foldlRecOn _ _ (fun acc => Settled c s (s.putBack c state queue acc.1 acc.2.1)
    acc.2.2) reqs (requestStep reason) (state.session, queue.queue, 0)
    (by rw [putBack_self hc hq]; exact .refl h c) fun acc hacc req _ => ?_
  · rwa [hreqs] at hall
  · have hle := hacc.count
    rw [requestStep]
    split
    · exact hacc
    · next session q r hnack =>
      have hone := @settled_nack _ _ c { state with session := acc.1 }
        { queue with queue := acc.2.1 } _ _ hacc.coherent (by simp) (by simp) (by omega) _ _ hnack
      rw [putBack_putBack] at hone
      have hsum := hacc.trans hone
      have hbound := hsum.count
      dsimp only
      rw [Nat.mod_eq_of_lt (by omega)]
      exact hsum

end

/-! ## Commands -/

/-- What an item of a settlement batch may do: settle what it counts, or
be refused and change nothing. -/
def SettlesItem (c : Nat) (s : InMemoryShardExecutor σ)
    (res : InMemoryShardExecutor σ × Except CommandError Nat) : Prop :=
  (∃ n, res.2 = .ok n ∧ Settled c s res.1 n) ∨ ∃ e, res = (s, .error e)

theorem settlesItem_execWith {call : ConsumerSession → HybridRangeBlockQueue →
      Except ConsumerError (ConsumerSession × HybridRangeBlockQueue × Nat)}
    (hcall : ∀ state queue session q n, s.consumers c = some state →
      s.queues state.queueId = some queue →
      call state.session queue.queue = .ok (session, q, n) →
      Settled c s (s.putBack c state queue session q) n) :
    SettlesItem c s (s.execWith c call) := by
  unfold execWith
  split
  · exact .inr ⟨_, rfl⟩
  · next state hc =>
    split
    · exact .inr ⟨_, rfl⟩
    · next queue hq =>
      split
      · exact .inr ⟨_, rfl⟩
      · next session q n h => exact .inl ⟨n, rfl, hcall state queue session q n hc hq h⟩

theorem settlesItem_nack (h : Coherent s) (hlt : heldCount s c < 2 ^ 32) (cmd : NackCommand) :
    SettlesItem c s (s.execNackCommand c cmd) :=
  settlesItem_execWith fun _ _ _ _ _ hc hq hcall =>
    settled_requests h hc hq hlt (nackSession_requests hcall)

/-- A reject is the nack of one tag. -/
theorem settlesItem_reject (h : Coherent s) (hlt : heldCount s c < 2 ^ 32) (cmd : RejectCommand) :
    SettlesItem c s (s.execRejectCommand c cmd) :=
  settlesItem_execWith fun _ _ _ _ _ hc hq hcall =>
    settled_requests h hc hq hlt
      (@nackSession_requests (.tag cmd.tag .one cmd.disposition) _ _ _ _ _ hcall)

theorem settlesItem_ack (store : ShardStorage σ) (h : Coherent s) (hdur : s.durable = none)
    (hlt : heldCount s c < 2 ^ 32) (cmd : AckCommand) :
    SettlesItem c s (ackItem store c s cmd) := by
  cases hc : s.consumers c with
  | none => exact .inr ⟨_, by simp only [ackItem, execAckCommand, hc]; rfl⟩
  | some state =>
    obtain ⟨-, queue, hq⟩ := h.consumer c state hc
    cases hack : ackSession state.session queue.queue cmd with
    | error e => exact .inr ⟨_, by simp only [ackItem, execAckCommand, hc, hq, hack]; rfl⟩
    | ok res =>
      obtain ⟨session, q, r⟩ := res
      have hnone : (s.putBack c state queue session q).durable = none := hdur
      have hitem : ackItem store c s cmd =
          (s.putBack c state queue session q, .ok r.acked) := by
        simp only [ackItem, execAckCommand, hc, hq, hack, hnone]
        rfl
      rw [hitem]
      exact .inl ⟨r.acked, rfl, settled_requests h hc hq hlt (ackSession_requests hack)⟩

/-- **The items of a settlement batch.** -/
theorem settled_items {α : Type} {d : Option σ}
    {exec : InMemoryShardExecutor σ → α → InMemoryShardExecutor σ × Except CommandError Nat}
    (hexec : ∀ s cmd, Coherent s → s.durable = d → heldCount s c < 2 ^ 32 →
      SettlesItem c s (exec s cmd)) :
    ∀ (items : List α) (s : InMemoryShardExecutor σ) (settled : Nat) (errs : List CommandError),
      Coherent s → s.durable = d → settled + heldCount s c < 2 ^ 32 →
      ∃ n, (settleItems exec items s settled errs).2.1 = settled + n ∧
        Settled c s (settleItems exec items s settled errs).1 n := by
  intro items
  induction items with
  | nil => exact fun s settled errs h _ _ => ⟨0, rfl, .refl h c⟩
  | cons cmd items ih =>
    intro s settled errs h hd hlt
    rw [settleItems]
    rcases hexec s cmd h hd (by omega) with ⟨n, hok, hn⟩ | ⟨e, herr⟩
    · have hcount := hn.count
      obtain ⟨m, hm, hrest⟩ := ih (exec s cmd).1 (settled + n) errs hn.coherent
        (hn.durable.trans hd) (by omega)
      rw [show exec s cmd = ((exec s cmd).1, .ok n) from Prod.ext rfl hok]
      dsimp only
      rw [Nat.mod_eq_of_lt (show settled + n < 2 ^ 32 by omega)]
      exact ⟨n + m, by omega, hn.trans hrest⟩
    · rw [herr]
      exact ih s settled _ h hd hlt

end Aurum.Broker
