import Aurum.Broker.Effects

/-!
# Broker — delivery safety

What a sink sees of the messages: every message that becomes inflight is
announced once, to the one consumer that then holds it, under the next
tag of that consumer; no message is announced while another consumer
holds it or after it was settled.

The statements are about single actions and the states between them.
`delivery_safety` puts them together along the actions of any run.
-/

namespace Aurum.Broker

open Aurum.Bits Aurum.Queue Aurum.Consumer Aurum.Protocol InMemoryShardExecutor List Function View

/-- One message announced to one consumer. -/
structure Announcement where
  consumerId : Nat
  queueId : Nat
  tag : Nat
  seq : Nat
deriving DecidableEq, Repr

def announcements : Event → List Announcement
  | .delivery batch =>
    batch.entries.map fun e => ⟨batch.consumerId, batch.queueId, e.1, e.2⟩
  | _ => []

/-- The announcements of a sequence of events, in order. -/
def announced (es : List Event) : List Announcement := es.flatMap announcements

variable {es es' : List Event} {v v' : View} {c q t x : Nat} {seat : Seat} {S : List Nat}
  {batch : DeliveryEventBatch} {requeues : Bool} {n : Announcement}

theorem announced_quiet (h : ∀ e ∈ es, e.Quiet) : announced es = [] := by
  refine flatMap_eq_nil_iff.mpr fun e he => ?_
  have hquiet := h e he
  cases e with
  | delivery batch => exact absurd hquiet id
  | consumer c kind => exact absurd hquiet id
  | settlement batch => rfl
  | confirm batch => rfl
  | error errors => rfl

/-- The message `x` of queue `q` is outstanding at `c` under tag `t`. -/
def View.Holds (v : View) (c q t x : Nat) : Prop :=
  ∃ seat, v.seat c = some seat ∧ seat.queueId = q ∧ (t, x) ∈ seat.entries

/-- Exactly the inflight messages are outstanding, each at one consumer
under one tag. -/
structure View.Owned (v : View) : Prop where
  inflight : ∀ q x, v.state q x = some .inflight ↔ ∃ c t, v.Holds c q t x
  unique : ∀ {c c' q t t' x}, v.Holds c q t x → v.Holds c' q t' x → c' = c ∧ t' = t

/-! ## One action -/

/-- **What one action does to announced messages**, `es` being the events
it sends. -/
structure SafeStep (v : View) (requeues : Bool) (es : List Event) (v' : View) : Prop where
  /-- what becomes inflight is announced, and nothing else is -/
  announces : ∀ q x, (v.state q x ≠ some .inflight ∧ v'.state q x = some .inflight) ↔
    ∃ n ∈ announced es, n.queueId = q ∧ n.seq = x
  /-- once -/
  once : ((announced es).map fun n => (n.queueId, n.seq)).Nodup
  /-- to the consumer that then holds it -/
  holder : ∀ n ∈ announced es, v'.Holds n.consumerId n.queueId n.tag n.seq
  /-- which is the only one -/
  only : ∀ {c c' q t t' x}, v'.Holds c q t x → v'.Holds c' q t' x → c' = c ∧ t' = t
  /-- while it stays inflight it stays there -/
  stays : ∀ {c q t x}, v.Holds c q t x → v'.state q x = some .inflight → v'.Holds c q t x
  /-- nothing outstanding is announced -/
  free : ∀ n ∈ announced es, ∀ c t, ¬ v.Holds c n.queueId t n.seq
  /-- what leaves a consumer is requeued or settled for good -/
  leaves : ∀ {c q t x}, v.Holds c q t x → ¬ v'.Holds c q t x →
    v'.state q x = some (outcome requeues)
  /-- what is settled stays settled and is not announced -/
  final : ∀ q x, v.state q x = some .acked → v'.state q x = some .acked ∧
    ∀ n ∈ announced es, ¬ (n.queueId = q ∧ n.seq = x)

/-- An action that announces nothing and after which messages may have
left their consumers. -/
theorem SafeStep.silent (h : v.Owned) (h' : v'.Owned) (hes : announced es = [])
    (hholds : ∀ {c q t x}, v'.Holds c q t x → v.Holds c q t x)
    (hleaves : ∀ {c q t x}, v.Holds c q t x → ¬ v'.Holds c q t x →
      v'.state q x = some (outcome requeues))
    (hacked : ∀ q x, v.state q x = some .acked → v'.state q x = some .acked) :
    SafeStep v requeues es v' where
  announces := by
    intro q x
    rw [hes]
    simp only [not_mem_nil, false_and, exists_false, iff_false, not_and]
    intro hnot hin
    -- inflight messages are held, and whoever holds one now held it before
    obtain ⟨c, t, hx⟩ := (h'.inflight q x).mp hin
    exact hnot ((h.inflight q x).mpr ⟨c, t, hholds hx⟩)
  once := by simp [hes]
  holder := by simp [hes]
  only := h'.unique
  stays := by
    intro c q t x hx hin
    obtain ⟨c', t', hx'⟩ := (h'.inflight q x).mp hin
    obtain ⟨rfl, rfl⟩ := h.unique hx (hholds hx')
    exact hx'
  free := by simp [hes]
  leaves := hleaves
  final := fun q x hx => ⟨hacked q x hx, by simp [hes]⟩

theorem holds_congr (hseat : v'.seat = v.seat) : v'.Holds c q t x ↔ v.Holds c q t x := by
  simp only [Holds, hseat]

/-- An action that only changes message states. -/
theorem SafeStep.states (h : v.Owned) (h' : v'.Owned) (hes : announced es = [])
    (hseat : v'.seat = v.seat)
    (hacked : ∀ q x, v.state q x = some .acked → v'.state q x = some .acked) :
    SafeStep v requeues es v' :=
  .silent h h' hes (holds_congr hseat).mp
    (fun hx hnot => absurd ((holds_congr hseat).mpr hx) hnot) hacked

/-- The seat of one consumer changed. -/
theorem holds_update {c' : Nat} {st : Nat → Nat → Option MessageState} :
    (mk st (update v.seat c (some seat))).Holds c' q t x ↔
      if c' = c then seat.queueId = q ∧ (t, x) ∈ seat.entries else v.Holds c' q t x := by
  simp only [Holds, update_apply]
  split
  · simp
  · rfl

theorem holds_remove {c' : Nat} {st : Nat → Nat → Option MessageState} :
    (mk st (update v.seat c none)).Holds c' q t x ↔
      c' ≠ c ∧ v.Holds c' q t x := by
  simp only [Holds, update_apply]
  split
  · next hc => simp [hc]
  · next hc => simp [hc]

theorem holds_seat (hc : v.seat c = some seat) :
    v.Holds c q t x ↔ seat.queueId = q ∧ (t, x) ∈ seat.entries := by
  simp only [Holds, hc, Option.some.injEq]
  constructor
  · rintro ⟨_, rfl, h⟩
    exact h
  · exact fun h => ⟨seat, rfl, h⟩

/-- Messages of one queue leave for a state other than acked: the acked
ones were not among them. -/
theorem acked_setAll {p : MessageState} (hS : ∀ x ∈ S, v.state q x ≠ some .acked) :
    ∀ k x, v.state k x = some .acked →
      update v.state q (setAll (v.state q) S p) k x = some .acked := by
  intro k x hx
  rw [update_apply]
  split
  · next hk =>
    subst hk
    rw [setAll_of_not_mem fun hmem => hS x hmem hx]
    exact hx
  · exact hx

theorem announced_delivery (batch : DeliveryEventBatch) : announced [.delivery batch] =
      batch.entries.map fun e => ⟨batch.consumerId, batch.queueId, e.1, e.2⟩ := by
  simp [announced, announcements]

/-- A delivery announces what it hands out. -/
theorem SafeStep.delivered (h : v.Owned) (hc : v.seat c = some seat) (hnodup : S.Nodup)
    (havail : ∀ x ∈ S, v.state seat.queueId x = some .ready ∨
      v.state seat.queueId x = some .sparseReady)
    (hbatch : batch.consumerId = c ∧ batch.queueId = seat.queueId ∧
      batch.entries = tagged seat.nextTag S) (h' : (v.deliver c seat S).Owned) :
    SafeStep v requeues [.delivery batch] (v.deliver c seat S) := by
  obtain ⟨hb1, hb2, hb3⟩ := hbatch
  have hann : announced [.delivery batch] =
      (tagged seat.nextTag S).map fun e => ⟨c, seat.queueId, e.1, e.2⟩ := by
    rw [announced_delivery, hb1, hb2, hb3]
  have hmem : ∀ n ∈ announced [.delivery batch], n.consumerId = c ∧ n.queueId = seat.queueId ∧
      (n.tag, n.seq) ∈ tagged seat.nextTag S := by
    intro n hn
    rw [hann, mem_map] at hn
    obtain ⟨e, he, rfl⟩ := hn
    exact ⟨rfl, rfl, he⟩
  have hseq : ∀ n ∈ announced [.delivery batch], n.seq ∈ S := fun n hn =>
    (mem_tagged (hmem n hn).2.2).2.2
  have hkeep : ∀ {c' q t x}, v.Holds c' q t x → (v.deliver c seat S).Holds c' q t x := by
    intro c' q t x hx
    rw [deliver, holds_update]
    split
    · next hcc =>
      rw [hcc, holds_seat hc] at hx
      exact ⟨hx.1, mem_append_left _ hx.2⟩
    · exact hx
  refine ⟨fun q x => ?_, ?_, fun n hn => ?_, h'.unique, fun hx _ => hkeep hx,
    fun n hn c' t hx => ?_,
    fun hx hnot => absurd (hkeep hx) hnot, fun q x hx => ⟨?_, fun n hn => ?_⟩⟩
  · -- in the queue of the seat exactly `S` becomes inflight
    simp only [deliver, update_apply]
    constructor
    · rintro ⟨hnot, hin⟩
      split at hin
      · next hq =>
        subst hq
        by_cases hx : x ∈ S
        · obtain ⟨e, he, rfl⟩ : ∃ e ∈ tagged seat.nextTag S, e.2 = x := by
            rw [← map_snd_tagged seat.nextTag S, mem_map] at hx
            exact hx
          exact ⟨⟨c, seat.queueId, e.1, e.2⟩, by rw [hann]; exact mem_map.mpr ⟨e, he, rfl⟩,
            rfl, rfl⟩
        · rw [setAll_of_not_mem hx] at hin
          exact absurd hin hnot
      · exact absurd hin hnot
    · rintro ⟨n, hn, rfl, rfl⟩
      rw [(hmem n hn).2.1, if_pos rfl, setAll_of_mem (hseq n hn)]
      refine ⟨fun hc' => ?_, rfl⟩
      have := havail n.seq (hseq n hn)
      rw [hc'] at this
      simp at this
  · rw [hann, map_map]
    have hinj : ((tagged seat.nextTag S).map Prod.snd).Nodup := by
      rw [map_snd_tagged]
      exact hnodup
    refine List.Nodup.map_on ?_ (List.Nodup.of_map _ hinj)
    intro e he e' he' heq
    exact inj_on_of_nodup_map hinj he he' (Prod.mk.inj heq).2
  · obtain ⟨h1, h2, h3⟩ := hmem n hn
    rw [deliver, holds_update, if_pos h1]
    exact ⟨h2.symm, mem_append_right _ h3⟩
  · have hin := (h.inflight n.queueId n.seq).mpr ⟨c', t, hx⟩
    have hav := havail n.seq (hseq n hn)
    rw [(hmem n hn).2.1] at hin
    rw [hin] at hav
    simp at hav
  · refine acked_setAll (fun y hy hc' => ?_) q x hx
    have hav := havail y hy
    rw [hc'] at hav
    simp at hav
  · rintro ⟨rfl, rfl⟩
    have hav := havail n.seq (hseq n hn)
    rw [(hmem n hn).2.1] at hx
    rw [hx] at hav
    simp at hav

/-- Messages that leave a consumer were not acked. -/
theorem ne_acked_of_held {entries l : List (Nat × Nat)} (hl : ∀ e ∈ l, e ∈ entries)
    (hin : ∀ e ∈ entries, v.state q e.2 = some .inflight) :
    ∀ x ∈ l.map Prod.snd, v.state q x ≠ some .acked := by
  intro x hx
  obtain ⟨e, he, rfl⟩ := mem_map.mp hx
  rw [hin e (hl e he)]
  simp

/-- **Every effect is safe.** -/
theorem Effect.safe (h : v.Owned) (h' : v'.Owned) (heff : Effect v requeues es v') :
    SafeStep v requeues es v' := by
  cases heff with
  | quiet hes => exact .states h h' (announced_quiet hes) rfl fun q x hx => hx
  | published q next count hnext =>
    refine .states h h' rfl rfl fun k x hx => ?_
    dsimp only
    rw [update_apply]
    split
    · next hk =>
      subst hk
      rw [HybridRangeBlockQueue.publishAll, if_neg fun hn => ?_]
      · exact hx
      · rw [(hnext x).mpr hn.1] at hx
        cases hx
    · exact hx
  | started c q hc =>
    have hsame : ∀ {c' q' t x}, (mk v.state
        (update v.seat c (some ⟨q, 1, []⟩))).Holds c' q' t x ↔ v.Holds c' q' t x := by
      intro c' q' t x
      rw [holds_update]
      split
      · next hcc => simp [Holds, hcc, hc]
      · rfl
    exact .silent h h' rfl hsame.mp (fun hx hnot => absurd (hsame.mpr hx) hnot)
      fun q x hx => hx
  | delivered c seat S batch hc hnodup havail hbatch =>
    exact .delivered h hc hnodup havail hbatch h'
  | settled c seat take hc hin =>
    refine .silent h h' rfl (fun hx => ?_) (fun {c' q t x} hx hnot => ?_)
      (acked_setAll (ne_acked_of_held (fun e he => (mem_filter.mp he).1) hin))
    · rw [holds_update] at hx
      split at hx
      · next hcc =>
        rw [hcc, holds_seat hc]
        exact ⟨hx.1, (mem_filter.mp hx.2).1⟩
      · exact hx
    · -- what left was held by `c` under a tag that was taken
      rw [holds_update] at hnot
      split at hnot
      · next hcc =>
        rw [hcc, holds_seat hc] at hx
        obtain ⟨rfl, hmem⟩ := hx
        have htake : take t = true := by
          by_contra hf
          exact hnot ⟨rfl, mem_filter.mpr ⟨hmem, by simpa using hf⟩⟩
        dsimp only
        rw [update_self, setAll_of_mem]
        exact mem_map.mpr ⟨(t, x), mem_filter.mpr ⟨hmem, htake⟩, rfl⟩
      · exact absurd hx hnot
  | retried q S hS =>
    refine .states h h' rfl rfl (acked_setAll fun x hx hc => ?_)
    rw [(hS x).mp hx] at hc
    cases hc
  | cancelled c seat hc hin =>
    refine .silent h h' rfl (fun hx => (holds_remove.mp hx).2) (fun {c' q t x} hx hnot => ?_)
      (acked_setAll (ne_acked_of_held (fun e he => he) hin))
    rw [holds_remove, not_and_or, not_not] at hnot
    rcases hnot with hcc | hnot
    · rw [hcc, holds_seat hc] at hx
      obtain ⟨rfl, hmem⟩ := hx
      dsimp only
      rw [update_self, setAll_of_mem (mem_map.mpr ⟨(t, x), hmem, rfl⟩)]
    · exact absurd hx hnot

/-! ## Who holds a message -/

variable {σ : Type} {s : InMemoryShardExecutor σ}

/-- The message `x` of queue `q` is outstanding at consumer `c` under tag
`t`. -/
def InMemoryShardExecutor.Holds (s : InMemoryShardExecutor σ) (c q t x : Nat) : Prop :=
  ∃ state, s.consumers c = some state ∧ state.queueId = q ∧ (t, x) ∈ state.session.entries

instance (s : InMemoryShardExecutor σ) (c q t x : Nat) : Decidable (s.Holds c q t x) :=
  match hc : s.consumers c with
  | none => .isFalse fun ⟨_, h, _⟩ => (nomatch hc.symm.trans h)
  | some state => decidable_of_iff (state.queueId = q ∧ (t, x) ∈ state.session.entries)
      ⟨fun h => ⟨state, hc, h⟩, fun ⟨_, h, h'⟩ => Option.some.inj (hc.symm.trans h) ▸ h'⟩

theorem holds_view : s.view.Holds c q t x ↔ s.Holds c q t x := by
  constructor
  · rintro ⟨seat, hseat, hq, hx⟩
    obtain ⟨state, hc, rfl⟩ := Option.map_eq_some_iff.mp hseat
    exact ⟨state, hc, hq, hx⟩
  · rintro ⟨state, hc, hq, hx⟩
    exact ⟨state.seat, view_seat_of hc, hq, hx⟩

/-- In a coherent executor the consumers own the inflight messages. -/
theorem Coherent.owned (h : Coherent s) : s.view.Owned where
  inflight := by
    intro q x
    simp only [holds_view]
    cases hq : s.queues q with
    | none =>
      -- no consumer is attached to a queue that does not exist
      simp only [view, stateOf, hq, Option.bind_none]
      refine ⟨fun hc => (by cases hc), ?_⟩
      rintro ⟨c, t, state, hc, rfl, -⟩
      obtain ⟨-, queue, hq'⟩ := h.consumer c state hc
      rw [hq] at hq'
      cases hq'
    | some queue =>
      obtain ⟨st, hst⟩ := h.queue q queue hq
      rw [view_state_of hq hst.owns.denotes, hst.owns.inflight, mem_holdings]
      constructor
      · rintro ⟨session, hmem, t, hx⟩
        obtain ⟨c, hcmem, state, hc, rfl⟩ := mem_sessions.mp hmem
        have hid := (hst.attached c).mp hcmem
        rw [hc] at hid
        exact ⟨c, t, state, hc, Option.some.inj hid, hx⟩
      · rintro ⟨c, t, state, hc, hid, hx⟩
        have hcmem : c ∈ queue.consumers := (hst.attached c).mpr (by rw [hc, ← hid]; rfl)
        exact ⟨state.session, mem_sessions.mpr ⟨c, hcmem, state, hc, rfl⟩, t, hx⟩
  unique := by
    intro c c' q t t' x hx hx'
    rw [holds_view] at hx hx'
    obtain ⟨state, hc, rfl, hmem⟩ := hx
    obtain ⟨state', hc', hid', hmem'⟩ := hx'
    obtain ⟨-, queue, hq⟩ := h.consumer c state hc
    obtain ⟨st, hst⟩ := h.queue _ queue hq
    obtain ⟨pre, post, heq, hpre, hpost, howns⟩ := hst.split hc rfl
    have hnd := (holdings_perm _ _ _).nodup_iff.mp howns.nodup
    obtain ⟨hnd1, -, hdisj⟩ := nodup_append.mp hnd
    have hin : x ∈ state.session.entries.map Prod.snd := mem_map.mpr ⟨_, hmem, rfl⟩
    by_cases hcc : c' = c
    · subst hcc
      obtain rfl : state = state' := Option.some.inj (hc.symm.trans hc')
      have hpair := inj_on_of_nodup_map hnd1 hmem hmem' rfl
      exact ⟨rfl, (Prod.mk.inj hpair).1.symm⟩
    · -- another consumer of the queue would hold the message a second time
      have hc'mem : c' ∈ queue.consumers := (hst.attached c').mpr (by rw [hc', ← hid']; rfl)
      rw [heq, mem_append, mem_cons] at hc'mem
      refine absurd rfl (hdisj x hin x ?_)
      rw [mem_append]
      rcases hc'mem with hm | hm | hm
      · exact .inl (mem_holdings.mpr ⟨_, mem_sessions.mpr ⟨c', hm, state', hc', rfl⟩, t', hmem'⟩)
      · exact absurd hm hcc
      · exact .inr (mem_holdings.mpr ⟨_, mem_sessions.mpr ⟨c', hm, state', hc', rfl⟩, t', hmem'⟩)

/-! ## Incarnations of a consumer -/

/-- One event read for consumer `c`: a start opens an incarnation, a
delivery to `c` belongs to the latest one. -/
def trackIncarnation (c : Nat) (acc : List (List Announcement)) (e : Event) :
    List (List Announcement) :=
  match e with
  | .consumer k .started => if k = c then [] :: acc else acc
  | .delivery batch =>
    if batch.consumerId = c then (acc.headD [] ++ announcements e) :: acc.tail else acc
  | _ => acc

/-- The announcements to `c` in each of its incarnations, latest first. -/
def incarnations (c : Nat) (es : List Event) : List (List Announcement) :=
  es.foldl (trackIncarnation c) []

theorem incarnations_append (c : Nat) (es es' : List Event) :
    incarnations c (es ++ es') = es'.foldl (trackIncarnation c) (incarnations c es) :=
  foldl_append

theorem foldl_track_quiet (c : Nat) : ∀ (es : List Event) (acc : List (List Announcement)),
    (∀ e ∈ es, e.Quiet) → es.foldl (trackIncarnation c) acc = acc := by
  intro es
  induction es with
  | nil => exact fun _ _ => rfl
  | cons e es ih =>
    intro acc h
    have hquiet := h e (by simp)
    have hstep : trackIncarnation c acc e = acc := by
      cases e with
      | delivery batch => exact absurd hquiet id
      | consumer k kind => exact absurd hquiet id
      | settlement batch => rfl
      | confirm batch => rfl
      | error errors => rfl
    rw [foldl_cons, hstep]
    exact ih acc fun e he => h e (by simp [he])

/-- In every incarnation the announced tags are 1, 2, 3, …; what is
outstanding at a consumer was announced in its latest incarnation. -/
structure Logged (v : View) (es : List Event) : Prop where
  tags : ∀ c, ∀ inc ∈ incarnations c es, inc.map Announcement.tag = List.range' 1 inc.length
  latest : ∀ c seat, v.seat c = some seat → ∃ cur rest, incarnations c es = cur :: rest ∧
    cur.length + 1 = seat.nextTag ∧
    ∀ e ∈ seat.entries, Announcement.mk c seat.queueId e.1 e.2 ∈ cur

theorem logged_new (shardId : Nat) (durable : Option σ) :
    Logged (new shardId durable).view (new shardId durable).sink :=
  ⟨by simp [new, incarnations], by simp [new, view]⟩

/-- Events that leave the incarnations alone, and seats that only lose
entries. -/
theorem Logged.mono (h : Logged v es) (hes : ∀ c, incarnations c (es ++ es') = incarnations c es)
    (hseat : ∀ c seat', v'.seat c = some seat' → ∃ seat, v.seat c = some seat ∧
      seat'.queueId = seat.queueId ∧ seat'.nextTag = seat.nextTag ∧
      ∀ e ∈ seat'.entries, e ∈ seat.entries) : Logged v' (es ++ es') where
  tags := fun c => by rw [hes]; exact h.tags c
  latest := by
    intro c seat' hc'
    obtain ⟨seat, hc, hq, hnext, hsub⟩ := hseat c seat' hc'
    obtain ⟨cur, rest, heq, hlen, hmem⟩ := h.latest c seat hc
    rw [hes, hq, hnext]
    exact ⟨cur, rest, heq, hlen, fun e he => hmem e (hsub e he)⟩

theorem Logged.deliver (h : Logged v es) (hc : v.seat c = some seat)
    (hbatch : batch.consumerId = c ∧ batch.queueId = seat.queueId ∧
      batch.entries = tagged seat.nextTag S) :
    Logged (v.deliver c seat S) (es ++ [.delivery batch]) := by
  obtain ⟨hb1, hb2, hb3⟩ := hbatch
  have hann : announcements (.delivery batch) =
      (tagged seat.nextTag S).map fun e => ⟨c, seat.queueId, e.1, e.2⟩ := by
    simp only [announcements, hb1, hb2, hb3]
  obtain ⟨cur, rest, heq, hlen, hmem⟩ := h.latest c seat hc
  have hother : ∀ k, k ≠ c → incarnations k (es ++ [.delivery batch]) = incarnations k es := by
    intro k hk
    rw [incarnations_append, foldl_cons, foldl_nil]
    simp only [trackIncarnation, hb1]
    exact if_neg fun heq => hk heq.symm
  have hself : incarnations c (es ++ [.delivery batch]) =
      (cur ++ announcements (.delivery batch)) :: rest := by
    rw [incarnations_append, heq, foldl_cons, foldl_nil]
    simp only [trackIncarnation, hb1]
    rfl
  refine ⟨fun k inc hinc => ?_, fun k seat' hk => ?_⟩
  · by_cases hkc : k = c
    · subst hkc
      rw [hself, mem_cons] at hinc
      rcases hinc with rfl | hinc
      · -- the tags of the delivery continue those announced so far
        have hcur := h.tags k cur (by rw [heq]; exact mem_cons_self)
        have hnew : (announcements (.delivery batch)).map Announcement.tag =
            List.range' (1 + cur.length) S.length := by
          rw [hann, map_map, Nat.add_comm 1, hlen]
          exact map_fst_tagged seat.nextTag S
        have hnewlen : (announcements (.delivery batch)).length = S.length := by simp [hann]
        rw [map_append, hcur, hnew, length_append, hnewlen, range'_append_1]
      · exact h.tags k inc (by rw [heq]; exact mem_cons_of_mem _ hinc)
    · rw [hother k hkc] at hinc
      exact h.tags k inc hinc
  · simp only [View.deliver, update_apply] at hk
    split at hk
    · next hkc =>
      subst hkc
      obtain rfl := Option.some.inj hk
      refine ⟨_, rest, hself, ?_, fun e he => ?_⟩
      · simp only [hann, length_append, length_map, length_tagged]
        omega
      · rw [mem_append] at he ⊢
        rcases he with he | he
        · exact .inl (hmem e he)
        · exact .inr (by rw [hann]; exact mem_map.mpr ⟨e, he, rfl⟩)
    · next hkc =>
      rw [hother k hkc]
      exact h.latest k seat' hk

/-- **Every effect keeps the log in order.** -/
theorem Effect.logged (h : Logged v es) (heff : Effect v requeues es' v') :
    Logged v' (es ++ es') := by
  have hnil : ∀ c, incarnations c (es ++ []) = incarnations c es := by simp
  have hself : ∀ c seat, v.seat c = some seat → ∃ seat', v.seat c = some seat' ∧
      seat.queueId = seat'.queueId ∧ seat.nextTag = seat'.nextTag ∧
      ∀ e ∈ seat.entries, e ∈ seat'.entries := fun c seat hc => ⟨seat, hc, rfl, rfl, fun _ he => he⟩
  cases heff with
  | quiet hes =>
    refine h.mono (fun c => ?_) hself
    rw [incarnations_append, foldl_track_quiet c es' _ hes]
  | published q next count hnext => exact h.mono hnil hself
  | retried q S hS => exact h.mono hnil hself
  | delivered c seat S batch hc hnodup havail hbatch => exact h.deliver hc hbatch
  | started c q hc =>
    have htrack : ∀ k, incarnations k (es ++ [.consumer c .started]) =
        if c = k then [] :: incarnations k es else incarnations k es := fun k => by
      rw [incarnations_append]
      rfl
    refine ⟨fun k inc hinc => ?_, fun k seat hk => ?_⟩
    · rw [htrack] at hinc
      split at hinc
      · rcases mem_cons.mp hinc with rfl | hinc
        · rfl
        · exact h.tags k inc hinc
      · exact h.tags k inc hinc
    · dsimp only at hk
      rw [update_apply] at hk
      rw [htrack]
      split at hk
      · next hkc =>
        obtain rfl := Option.some.inj hk
        rw [if_pos hkc.symm]
        exact ⟨[], _, rfl, rfl, by simp⟩
      · next hkc =>
        rw [if_neg fun heq => hkc heq.symm]
        exact h.latest k seat hk
  | settled c seat take hc hin =>
    refine h.mono hnil fun k seat' hk => ?_
    dsimp only at hk
    rw [update_apply] at hk
    split at hk
    · next hkc =>
      obtain rfl := Option.some.inj hk
      exact ⟨seat, hkc ▸ hc, rfl, rfl, fun e he => (mem_filter.mp he).1⟩
    · exact hself k seat' hk
  | cancelled c seat hc hin =>
    refine h.mono (fun k => ?_) fun k seat' hk => ?_
    · rw [incarnations_append]
      rfl
    · dsimp only at hk
      rw [update_apply] at hk
      split at hk
      · cases hk
      · exact hself k seat' hk

/-! ## Acknowledging an announced tag -/

/-- Consumer `c` gives up the message `x` of queue `q` that it holds under
tag `t`, and nothing else changes. -/
structure GivesUp (c q t x : Nat) (requeues : Bool) (s s' : InMemoryShardExecutor σ) : Prop where
  state : ∀ k y, s'.stateOf k y = if k = q ∧ y = x then some (outcome requeues) else s.stateOf k y
  holds : ∀ c' q' t' y, s'.Holds c' q' t' y ↔ s.Holds c' q' t' y ∧ ¬ (c' = c ∧ t' = t)

section

variable {s' : InMemoryShardExecutor σ} {takes : Nat → Bool} {dst : MessageState}

/-- **A consumer loses the tags `takes` accepts**: their messages end in
state `dst`, and every other tag and message stays as it was. -/
structure Drops (c : Nat) (takes : Nat → Bool) (dst : MessageState)
    (s s' : InMemoryShardExecutor σ) : Prop where
  holds : ∀ c' q t x, s'.Holds c' q t x ↔ s.Holds c' q t x ∧ ¬ (c' = c ∧ takes t = true)
  settled : ∀ q t x, s.Holds c q t x → takes t = true → s'.stateOf q x = some dst
  kept : ∀ q x, (∀ t, s.Holds c q t x → takes t = false) → s'.stateOf q x = s.stateOf q x

/-- **A settlement written back.** -/
theorem drops_putBack {state : ConsumerRuntimeState} {queue : QueueState}
    {st : Nat → Option MessageState} {session : ConsumerSession} {q : HybridRangeBlockQueue}
    (hc : s.consumers c = some state) (hq : s.queues state.queueId = some queue)
    (hd : queue.queue.Denotes st)
    (hset : Settles takes dst state.session queue.queue st session q) :
    Drops c takes dst s (s.putBack c state queue session q) := by
  constructor
  · intro c' q' t x
    rw [← holds_view, ← holds_view, view_putBack c state queue session hset.denotes,
      hset.nextTag, hset.entries, holds_update]
    split
    · next hcc =>
      subst hcc
      rw [holds_seat (view_seat_of hc)]
      simp only [taken, mem_filter, ConsumerRuntimeState.seat]
      simp [and_assoc]
    · next hcc => simp [View.Holds, hcc]
  · rintro k t x ⟨state', hc', rfl, hmem⟩ hin
    obtain rfl := Option.some.inj (hc.symm.trans hc')
    rw [stateOf_putBack c _ queue session hset.denotes, if_pos rfl]
    exact setAll_of_mem (mem_map.mpr ⟨(t, x), mem_filter.mpr ⟨hmem, hin⟩, rfl⟩)
  · intro k x hno
    rw [stateOf_putBack c state queue session hset.denotes]
    split
    · next hk =>
      subst hk
      have hold : s.stateOf state.queueId x = st x := congrFun (view_state_of hq hd) x
      rw [hold]
      refine setAll_of_not_mem fun hin => ?_
      obtain ⟨e, he, rfl⟩ := mem_map.mp hin
      obtain ⟨hmem, htake⟩ := mem_filter.mp he
      rw [hno e.1 ⟨state, hc, rfl, hmem⟩] at htake
      cases htake
    · rfl

/-- Losing one outstanding tag is giving up its message. -/
theorem Drops.givesUp (hdrops : Drops c (AckMode.one.takes t) (outcome requeues) s s')
    (h : Coherent s) (hx : s.Holds c q t x) : GivesUp c q t x requeues s s' where
  state := by
    intro k y
    split
    · next hky =>
      rw [hky.1, hky.2]
      exact hdrops.settled q t x hx (by simp [AckMode.takes])
    · next hky =>
      refine hdrops.kept k y fun t' hy => beq_eq_false_iff_ne.mpr ?_
      rintro rfl
      obtain ⟨state, hc, hq, hmem⟩ := hx
      obtain ⟨state', hc', hk, hmem'⟩ := hy
      obtain rfl := Option.some.inj (hc.symm.trans hc')
      obtain ⟨queue, st, pre, post, -, -, howns⟩ := h.owns_of hc
      have hone := howns.ok state.session (by simp)
      have heq := (taken_one hone hmem).symm.trans (taken_one hone hmem')
      exact hky ⟨hk.symm.trans hq, by simpa using heq.symm⟩
  holds := by simpa [AckMode.takes] using hdrops.holds

end

/-- **`exec_ack_command`** for one outstanding tag. -/
theorem execAckCommand_givesUp (store : ShardStorage σ) (h : Coherent s) (hx : s.Holds c q t x) :
    GivesUp c q t x false s (execAckCommand store s c (.tag t .one)).1 ∧
    (s.durable = none → ∃ r, (execAckCommand store s c (.tag t .one)).2 = .ok r ∧ r.acked = 1) := by
  obtain ⟨state, hc, rfl, hmem⟩ := hx
  obtain ⟨queue, st, pre, post, hq, -, howns⟩ := h.owns_of hc
  have hok := howns.ok state.session (by simp)
  obtain ⟨session, q', ranges, heq, hset, -⟩ := ack_ok hok howns.denotes
    (howns.entries_inflight (by simp)) hmem .one
  have hgives := @Drops.givesUp _ _ t x false _ _ _ (drops_putBack hc hq howns.denotes hset) h
    ⟨state, hc, rfl, hmem⟩
  simp only [execAckCommand, hc, hq, ackSession, heq]
  refine ⟨?_, fun hdur => ?_⟩
  · -- the store is no part of the view
    split
    · exact hgives
    · exact ⟨hgives.state, hgives.holds⟩
  · have hdur' : (s.putBack c state queue session q').durable = none := hdur
    simp only [hdur']
    exact ⟨_, rfl, by simp [taken_one hok hmem]⟩

/-- **`exec_nack_command`** for one outstanding tag. -/
theorem execNackCommand_givesUp (h : Coherent s) (hx : s.Holds c q t x) (disp : NackDisposition) :
    GivesUp c q t x (decide (toReason disp = .requeue)) s
      (s.execNackCommand c (.tag t .one disp)).1 := by
  obtain ⟨state, hc, rfl, hmem⟩ := hx
  obtain ⟨queue, st, pre, post, hq, -, howns⟩ := h.owns_of hc
  obtain ⟨session, q', heq, hset, -⟩ := nack_ok (howns.ok state.session (by simp))
    howns.denotes (howns.entries_inflight (by simp)) hmem .one (toReason disp)
  rw [target_eq_outcome] at hset
  have hgives := (drops_putBack hc hq howns.denotes hset).givesUp h ⟨state, hc, rfl, hmem⟩
  have hsession : nackSession state.session queue.queue (.tag t .one disp) =
      .ok (session, q', (nackResult (toReason disp)
        ((taken (AckMode.one.takes t) state.session.entries).length % 2 ^ 32)).nacked) := by
    simp only [nackSession, heq]
    rfl
  simp only [execNackCommand, execWith, hc, hq, hsession]
  exact hgives

theorem settleItems_singleton {α : Type}
    (exec : InMemoryShardExecutor σ → α → InMemoryShardExecutor σ × Except CommandError Nat)
    (cmd : α) : (settleItems exec [cmd] s 0 []).1 = (exec s cmd).1 := by
  simp only [settleItems]
  split <;> next heq => rw [heq]

/-- **An ack batch for one outstanding tag**: the message is settled, and
what follows are deliveries and reports. -/
theorem execute_ack_one (store : ShardStorage σ) (h : Coherent s) (hx : s.Holds c q t x) :
    ∃ s', GivesUp c q t x false s s' ∧
      Reaches (fun a => a.plain = true) s' (s.execute store (.ack c [.tag t .one])) := by
  have hreport := reaches_ackReport (P := fun a : Action σ => a.plain = true) (fun _ ha => ha)
    store s c [.tag t .one]
  rw [settleItems_singleton] at hreport
  exact ⟨_, (execAckCommand_givesUp store h hx).1, hreport⟩

/-- **A nack batch for one outstanding tag.** -/
theorem execute_nack_one (store : ShardStorage σ) (h : Coherent s) (hx : s.Holds c q t x)
    (disp : NackDisposition) :
    ∃ s', GivesUp c q t x (decide (toReason disp = .requeue)) s s' ∧
      Reaches (fun a => a.plain = true) s' (s.execute store (.nack c [.tag t .one disp])) := by
  have hreport := reaches_nackReport (P := fun a : Action σ => a.plain = true) (fun _ ha => ha)
    s c [.tag t .one disp]
  rw [settleItems_singleton] at hreport
  exact ⟨_, execNackCommand_givesUp h hx disp, hreport⟩

/-! ## Runs -/

theorem logged_foldl (h : Coherent s) (hlog : Logged s.view s.sink) (actions : List (Action σ)) :
    Logged (actions.foldl act s).view (actions.foldl act s).sink := by
  induction actions generalizing s with
  | nil => exact hlog
  | cons a actions ih =>
    obtain ⟨h', es, hsink, heff⟩ := act_effect h a
    exact ih h' (hsink ▸ heff.logged hlog)

end Aurum.Broker
