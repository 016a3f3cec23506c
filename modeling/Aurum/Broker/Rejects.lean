import Aurum.Broker.Calls
import Aurum.Broker.Forms
import Aurum.Broker.Requeue

/-!
# Broker — reject against nack

A reject is the nack of one tag, and the items of both batches do the same.
The handlers differ behind the items: that of nack retries and reports the
errors, that of reject does neither. So the two batches agree if and only
if there is nothing to retry and nothing to report. Driving the queue never
reads the sink, so the kind in the settlement event makes no
other difference.
-/

namespace Aurum.Broker

open Aurum.Bits Aurum.Queue Aurum.Consumer Aurum.Protocol InMemoryShardExecutor List RejectCommand
open AckMode
open ConsumerRuntimeState

variable {σ : Type} {s s' : InMemoryShardExecutor σ} {c : Nat}

/-! ## Driving a queue does not read the sink -/

/-- The executor with other events received so far. -/
def InMemoryShardExecutor.withSink (s : InMemoryShardExecutor σ) (es : List Event) :
    InMemoryShardExecutor σ :=
  { s with sink := es }

/-- The executor with the events `es` received before its own. -/
def InMemoryShardExecutor.behind (es : List Event) (s : InMemoryShardExecutor σ) :
    InMemoryShardExecutor σ :=
  s.withSink (es ++ s.sink)

section

variable (es : List Event)

theorem emitDelivery_behind (s : InMemoryShardExecutor σ) (c q : Nat) :
    (s.behind es).emitDelivery c q = (s.emitDelivery c q).behind es := by
  simp only [emitDelivery, behind, withSink]
  split
  · rfl
  · split
    · rfl
    · simp only [emit, setConsumer, List.append_assoc]

theorem deliverRound_behind (s : InMemoryShardExecutor σ) (q c : Nat) :
    (s.behind es).deliverRound q c =
      ((s.deliverRound q c).1.behind es, (s.deliverRound q c).2) := by
  unfold deliverRound
  have hqueues : (s.behind es).queues = s.queues := rfl
  have hconsumers : (s.behind es).consumers = s.consumers := rfl
  rw [hqueues, hconsumers]
  split
  · split
    · rfl
    · dsimp only
      split
      · rfl
      · dsimp only
        rw [← emitDelivery_behind]
        rfl
  · rfl

theorem deliverLoop_behind (q c : Nat) :
    ∀ (rounds : Nat) (s : InMemoryShardExecutor σ) (total : Nat),
    deliverLoop q c rounds (s.behind es) total =
      ((deliverLoop q c rounds s total).1.behind es, (deliverLoop q c rounds s total).2) := by
  intro rounds
  induction rounds with
  | zero => exact fun s total => rfl
  | succ rounds ih =>
    intro s total
    rw [deliverLoop, deliverLoop, deliverRound_behind]
    dsimp only
    split
    · rfl
    · exact ih _ _

theorem deliverConsumer_behind (s : InMemoryShardExecutor σ) (c : Nat) :
    (s.behind es).deliverConsumer c =
      ((s.deliverConsumer c).1.behind es, (s.deliverConsumer c).2) := by
  unfold deliverConsumer
  have hconsumers : (s.behind es).consumers = s.consumers := rfl
  rw [hconsumers]
  split
  · rfl
  · exact deliverLoop_behind es _ c _ s 0

theorem driveFold_behind (ids : List Nat) (start : Nat) :
    ∀ (is : List Nat) (s : InMemoryShardExecutor σ) (n : Nat),
      is.foldl (driveOne ids start) (s.behind es, n) =
        ((is.foldl (driveOne ids start) (s, n)).1.behind es,
          (is.foldl (driveOne ids start) (s, n)).2) := by
  intro is
  induction is with
  | nil => exact fun s n => rfl
  | cons i is ih =>
    intro s n
    have hone : driveOne ids start (s.behind es, n) i =
        ((driveOne ids start (s, n) i).1.behind es, (driveOne ids start (s, n) i).2) := by
      unfold driveOne
      split
      · rfl
      · rw [deliverConsumer_behind]
    rw [foldl_cons, foldl_cons, hone]
    exact ih _ _

theorem driveLoop_behind (q : Nat) (ids : List Nat) :
    ∀ (passes : Nat) (s : InMemoryShardExecutor σ),
      driveLoop q ids passes (s.behind es) = (driveLoop q ids passes s).behind es := by
  intro passes
  induction passes with
  | zero => exact fun s => rfl
  | succ passes ih =>
    intro s
    have hqueues : ∀ s : InMemoryShardExecutor σ, (s.behind es).queues = s.queues := fun _ => rfl
    rw [driveLoop, driveLoop, drivePass, drivePass, hqueues, driveFold_behind]
    dsimp only
    split
    · rfl
    · rw [← ih, hqueues]
      split <;> rfl

/-- **Driving a queue does not read the sink.** -/
theorem driveQueue_behind (s : InMemoryShardExecutor σ) (q : Nat) :
    (s.behind es).driveQueue q = (s.driveQueue q).behind es := by
  unfold driveQueue
  have hqueues : (s.behind es).queues = s.queues := rfl
  rw [hqueues]
  split
  · rfl
  · split
    · rfl
    · exact driveLoop_behind es q _ _ s

end

/-! ## Messages in Retry wait for a retry -/

variable {q x : Nat} {cmd : RejectCommand} {items : List RejectCommand}

/-- Driving a queue delivers what is ready and nothing else. -/
theorem act_retry {a : Action σ} (h : Coherent s) (ha : a.Drives)
    (hx : s.stateOf q x = some .retry) : (s.act a).stateOf q x = some .retry := by
  cases a with
  | rotate k i =>
    simp only [act]
    split
    · exact hx
    · next queue hk =>
      simp only [stateOf, setQueue, Function.update_apply]
      split
      · next hqk =>
        rw [stateOf, hqk, hk] at hx
        exact hx
      · exact hx
  | deliver c =>
    simp only [act]
    split
    · exact hx
    · next state hc =>
      obtain ⟨queue, st, S, session, q', out, n, hq, hst, hdel, heq⟩ := deliverRound_spec h hc
      rw [heq]
      change (s.putBack c state queue session q').stateOf q x = _
      rw [stateOf_putBack c state queue session hdel.denotes]
      split
      · next hqq =>
        subst hqq
        have hstx : st x = some .retry := (congrFun (view_state_of hq hst.owns.denotes) x) ▸ hx
        have hnot : x ∉ S := by
          intro hin
          have havail := hdel.available x hin
          rw [hstx] at havail
          simp at havail
        rw [setAll_of_not_mem hnot, hstx]
      · exact hx
  | _ => exact absurd ha id

theorem retry_driveQueue (h : Coherent s) (k : Nat) (hx : s.stateOf q x = some .retry) :
    (s.driveQueue k).stateOf q x = some .retry := by
  obtain ⟨actions, hall, heq⟩ := drives_driveQueue s k
  rw [← heq]
  clear heq
  induction actions generalizing s with
  | nil => exact hx
  | cons a actions ih =>
    exact ih (act_effect h a).1 (act_retry h (hall a mem_cons_self) hx)
      fun b hb => hall b (mem_cons_of_mem a hb)

/-! ## The items -/

/-- A reject item as a nack item. -/
def RejectCommand.asNack (cmd : RejectCommand) : NackCommand := .tag cmd.tag .one cmd.disposition

/-- **The items of both batches do the same.** -/
theorem settleItems_asNack (items : List RejectCommand) :
    ∀ (s : InMemoryShardExecutor σ) (settled : Nat) (errs : List CommandError),
      settleItems (fun s => s.execNackCommand c) (items.map RejectCommand.asNack) s settled errs =
        settleItems (fun s => s.execRejectCommand c) items s settled errs := by
  induction items with
  | nil => exact fun _ _ _ => rfl
  | cons cmd items ih =>
    intro s settled errs
    have hcmd : s.execNackCommand c (RejectCommand.asNack cmd) = s.execRejectCommand c cmd := rfl
    rw [map_cons, settleItems, settleItems, hcmd]
    split <;> exact ih _ _ _

/-- A reject of an outstanding tag settles that tag. -/
theorem execRejectCommand_held (h : Coherent s) (hheld : cmd.tag ∈ heldTags s c) :
    (s.execRejectCommand c cmd).2 = .ok 1 ∧
      Coherent (s.execRejectCommand c cmd).1 ∧
      (s.execRejectCommand c cmd).1.sink = s.sink ∧
      ((s.execRejectCommand c cmd).1.consumers c).map queueId =
        (s.consumers c).map queueId ∧
      Drops c (one.takes cmd.tag) (target (toReason cmd.disposition)) s
        (s.execRejectCommand c cmd).1 := by
  obtain ⟨q, x, state, hc, rfl, hx⟩ := mem_heldTags.mp hheld
  obtain ⟨queue, st, pre, post, hq, -, howns⟩ := h.owns_of hc
  have hok := howns.ok state.session (by simp)
  obtain ⟨session, q, heq, hset, -⟩ := nack_ok hok howns.denotes
    (howns.entries_inflight (by simp)) hx .one (toReason cmd.disposition)
  have hexec : s.execRejectCommand c cmd = (s.putBack c state queue session q, .ok 1) := by
    simp only [execRejectCommand, execWith, hc, hq, rejectSession, heq]
    simp [bind, Except.bind, nackResult_nacked, taken_one hok hx]
  have hcoh := (hasEffect_nack h c ⟨cmd.tag, .one, toReason cmd.disposition⟩).1
  rw [act, onSession_eq hc hq, heq] at hcoh
  rw [hexec]
  exact ⟨rfl, hcoh, rfl, by simp [hc], drops_putBack hc hq howns.denotes hset⟩

/-- A reject of any other tag is refused. -/
theorem execRejectCommand_unheld (hheld : cmd.tag ∉ heldTags s c) :
    ∃ e, s.execRejectCommand c cmd = (s, .error e) := by
  have hnone : ∀ q x, ¬ s.Holds c q cmd.tag x := fun q x hx =>
    hheld (mem_heldTags.mpr ⟨q, x, hx⟩)
  simp only [execRejectCommand, execWith]
  cases hc : s.consumers c with
  | none => exact ⟨_, rfl⟩
  | some state =>
    dsimp only
    cases hq : s.queues state.queueId with
    | none => exact ⟨_, rfl⟩
    | some queue =>
      have hno : ∀ x, (cmd.tag, x) ∉ state.session.entries := fun x hx =>
        hnone state.queueId x ⟨state, hc, rfl, hx⟩
      exact ⟨_, by dsimp only; rw [rejectSession, nack_refused hno]; rfl⟩

/-- **The items of a reject batch**, each of which names an outstanding
tag of its own: exactly what is requeued joins the messages in Retry. -/
structure Rejected (c : Nat) (items : List RejectCommand) (s s' : InMemoryShardExecutor σ) :
    Prop where
  coherent : Coherent s'
  sink : s'.sink = s.sink
  queueId : (s'.consumers c).map queueId =
    (s.consumers c).map queueId
  retry : ∀ q x, s'.stateOf q x = some .retry ↔ s.stateOf q x = some .retry ∨
    ∃ cmd ∈ items, cmd.disposition = .requeue ∧ s.Holds c q cmd.tag x

theorem target_toReason {disposition : NackDisposition} :
    target (toReason disposition) = .retry ↔ disposition = .requeue := by
  cases disposition <;> simp [target, toReason]

/-- One more item in front. -/
theorem Rejected.cons (h : Coherent s) (hheld : cmd.tag ∈ heldTags s c)
    (hne : cmd.tag ∉ items.map tag)
    (hrest : Rejected c items (s.execRejectCommand c cmd).1 s') :
    Rejected c (cmd :: items) s s' := by
  obtain ⟨-, hcoh, hsink, hid, hdrops⟩ := execRejectCommand_held h hheld
  obtain ⟨k, y, hy⟩ := mem_heldTags.mp hheld
  refine ⟨hrest.coherent, hrest.sink.trans hsink, hrest.queueId.trans hid, fun q x => ?_⟩
  -- a later item names another tag, so it holds its message before and after this one
  have hlater : ∀ cmd' ∈ items, (s.execRejectCommand c cmd).1.Holds c q cmd'.tag x ↔
      s.Holds c q cmd'.tag x := by
    intro cmd' hmem
    rw [hdrops.holds]
    refine and_iff_left fun htake => hne ?_
    have htag : cmd'.tag = cmd.tag := by simpa [takes] using htake.2
    exact htag ▸ mem_map_of_mem hmem
  have hone : (s.execRejectCommand c cmd).1.stateOf q x = some .retry ↔
      s.stateOf q x = some .retry ∨ cmd.disposition = .requeue ∧ s.Holds c q cmd.tag x := by
    by_cases hx : s.Holds c q cmd.tag x
    · have hin : s.stateOf q x = some .inflight :=
        (h.owned.inflight q x).mpr ⟨c, cmd.tag, holds_view.mpr hx⟩
      rw [hdrops.settled q cmd.tag x hx (by simp [takes]), hin, Option.some.injEq,
        target_toReason]
      simp [hx]
    · rw [hdrops.kept q x fun t ht => ?_]
      · simp [hx]
      · rw [Bool.eq_false_iff]
        intro htake
        have htag : t = cmd.tag := by simpa [takes] using htake
        exact hx (htag ▸ ht)
  rw [hrest.retry, hone]
  simp only [mem_cons, exists_eq_or_imp, or_assoc]
  refine or_congr_right (or_congr_right (exists_congr fun cmd' => and_congr_right fun hmem => ?_))
  rw [hlater cmd' hmem]

/-- Every item names an outstanding tag of its own. -/
def AllHeld (s : InMemoryShardExecutor σ) (c : Nat) (items : List RejectCommand) : Prop :=
  (items.map tag).Nodup ∧ ∀ cmd ∈ items, cmd.tag ∈ heldTags s c

instance (s : InMemoryShardExecutor σ) (c : Nat) (items : List RejectCommand) :
    Decidable (AllHeld s c items) :=
  inferInstanceAs (Decidable (_ ∧ _))

theorem allHeld_cons : AllHeld s c (cmd :: items) ↔ cmd.tag ∈ heldTags s c ∧
      cmd.tag ∉ items.map tag ∧ AllHeld s c items := by
  simp only [AllHeld, map_cons, nodup_cons, forall_mem_cons]
  tauto

/-- After an item, the other tags are outstanding as before. -/
theorem allHeld_step (h : Coherent s) (hheld : cmd.tag ∈ heldTags s c) :
    AllHeld (s.execRejectCommand c cmd).1 c items ↔ cmd.tag ∉ items.map tag ∧
      AllHeld s c items := by
  obtain ⟨-, -, -, -, hdrops⟩ := execRejectCommand_held h hheld
  have hmem : ∀ t, t ∈ heldTags (s.execRejectCommand c cmd).1 c ↔
      t ∈ heldTags s c ∧ t ≠ cmd.tag := by
    intro t
    simp only [mem_heldTags, hdrops.holds, takes, true_and, beq_iff_eq, exists_and_right]
  simp only [AllHeld, hmem, mem_map, not_exists, not_and]
  constructor
  · rintro ⟨hnodup, hall⟩
    exact ⟨fun cmd' hin => (hall cmd' hin).2, hnodup, fun cmd' hin => (hall cmd' hin).1⟩
  · rintro ⟨hne, hnodup, hall⟩
    exact ⟨hnodup, fun cmd' hin => ⟨hall cmd' hin, hne cmd' hin⟩⟩

/-- **The loop over the items** reports an error unless every item names
an outstanding tag of its own. -/
theorem settleItems_reject (items : List RejectCommand) :
    ∀ (s : InMemoryShardExecutor σ) (settled : Nat) (errs : List CommandError), Coherent s →
      settled < 2 ^ 32 →
      ∃ s' settled' more,
        settleItems (fun s => s.execRejectCommand c) items s settled errs =
          (s', settled', errs ++ more) ∧ Coherent s' ∧ (more = [] ↔ AllHeld s c items) ∧
        (AllHeld s c items → Rejected c items s s' ∧
          settled' = (settled + items.length) % 2 ^ 32) := by
  induction items with
  | nil =>
    intro s settled errs h hlt
    refine ⟨s, settled, [], by simp [settleItems], h, by simp [AllHeld], fun _ =>
      ⟨⟨h, rfl, rfl, fun q x => by simp⟩, (Nat.mod_eq_of_lt hlt).symm⟩⟩
  | cons cmd items ih =>
    intro s settled errs h hlt
    rw [settleItems]
    by_cases hheld : cmd.tag ∈ heldTags s c
    · obtain ⟨hok, hcoh, -⟩ := execRejectCommand_held h hheld
      have hcall : s.execRejectCommand c cmd = ((s.execRejectCommand c cmd).1, .ok 1) :=
        Prod.ext rfl hok
      obtain ⟨s', settled', more, heq, hcoh', hmore, hall⟩ := ih (s.execRejectCommand c cmd).1
        ((settled + 1) % 2 ^ 32) errs hcoh (Nat.mod_lt _ (by decide))
      rw [hcall]
      have hsplit : AllHeld s c (cmd :: items) ↔
          AllHeld (s.execRejectCommand c cmd).1 c items := by
        rw [allHeld_cons, allHeld_step h hheld]
        exact and_iff_right hheld
      refine ⟨s', settled', more, heq, hcoh', hmore.trans hsplit.symm, fun hitems => ?_⟩
      obtain ⟨hrej, hcount⟩ := hall (hsplit.mp hitems)
      refine ⟨hrej.cons h hheld (allHeld_cons.mp hitems).2.1, ?_⟩
      rw [hcount, length_cons]
      omega
    · -- the refused item leaves its error
      obtain ⟨e, hrefused⟩ := execRejectCommand_unheld hheld
      obtain ⟨s', settled', more, heq, hcoh', -⟩ := ih s settled (errs ++ [e]) h hlt
      have hno : ¬ AllHeld s c (cmd :: items) := fun hitems =>
        hheld (allHeld_cons.mp hitems).1
      rw [hrefused]
      refine ⟨s', settled', e :: more, by simpa using heq, hcoh', by simp [hno], fun hitems =>
        absurd hitems hno⟩

/-! ## The handlers -/

/-- An event with the kind of settlement left out. -/
def Event.sansKind : Event → Event
  | .settlement batch => .settlement { batch with kind := .nack }
  | e => e

/-- **Two executors agree** in everything but the kind of a settlement. -/
structure Agree (s s' : InMemoryShardExecutor σ) : Prop where
  states : s.withSink [] = s'.withSink []
  events : s.sink.map Event.sansKind = s'.sink.map Event.sansKind

/-- An error report. -/
def Event.isError : Event → Bool
  | .error _ => true
  | _ => false

theorem Agree.errors (h : Agree s s') :
    s.sink.countP Event.isError = s'.sink.countP Event.isError := by
  have hcount : ∀ es : List Event,
      (es.map Event.sansKind).countP Event.isError = es.countP Event.isError := by
    intro es
    rw [countP_map]
    refine countP_congr fun e _ => ?_
    cases e <;> rfl
  rw [← hcount, h.events, hcount]

theorem Agree.stateOf (h : Agree s s') (q x : Nat) : s.stateOf q x = s'.stateOf q x := by
  have hqueues : s.queues = s'.queues := congrArg (fun s => s.queues) h.states
  rw [InMemoryShardExecutor.stateOf, hqueues]
  rfl

/-- Driving a queue reports no error. -/
theorem driveQueue_errors (s : InMemoryShardExecutor σ) (q : Nat) :
    (s.driveQueue q).sink.countP Event.isError = s.sink.countP Event.isError := by
  obtain ⟨actions, hall, heq⟩ := drives_driveQueue s q
  rw [← heq]
  refine @List.foldlRecOn _ _ (fun s' => s'.sink.countP Event.isError = s.sink.countP Event.isError)
    actions act s rfl fun s' h a ha => ?_
  obtain ⟨es, hes, -, hdrives⟩ := (act_writes s' a).events
  have hnone : es.countP Event.isError = 0 := by
    refine countP_eq_zero.mpr fun e he => ?_
    obtain ⟨batch, rfl⟩ := hdrives (hall a ha) e he
    simp [Event.isError]
  rw [hes, countP_append, hnone, Nat.add_zero, h]

/-- The event in front makes no difference to what driving a queue does. -/
theorem agree_driveQueue (s : InMemoryShardExecutor σ) (q n : Nat) (kind kind' : SettlementKind) :
    Agree ((s.emit (.settlement ⟨c, kind, n⟩)).driveQueue q)
      ((s.emit (.settlement ⟨c, kind', n⟩)).driveQueue q) := by
  have hdrive : ∀ kind, (s.emit (.settlement ⟨c, kind, n⟩)).driveQueue q =
      ((s.withSink []).driveQueue q).behind (s.sink ++ [.settlement ⟨c, kind, n⟩]) := by
    intro kind
    rw [← driveQueue_behind, behind, withSink, withSink, List.append_nil]
    rfl
  rw [hdrive, hdrive]
  exact ⟨rfl, by simp [behind, withSink, Event.sansKind]⟩

/-- With nothing in Retry there is nothing to move. -/
theorem retryQueue_none (h : Coherent s) (hno : ∀ x, s.stateOf q x ≠ some .retry) :
    s.retryQueue q = s := by
  unfold retryQueue
  split
  · rfl
  · next queue hq =>
    obtain ⟨st, hst⟩ := h.queue q queue hq
    have hnone : ∀ x, st x ≠ some .retry := fun x => by
      rw [← congrFun (view_state_of hq hst.owns.denotes) x]
      exact hno x
    rw [hst.owns.denotes.retryAllNow_none hnone]
    simp [setQueue, ← hq]

theorem afterItems_errors {kind : SettlementKind}
    {first : InMemoryShardExecutor σ → Nat → InMemoryShardExecutor σ}
    (hfirst : ∀ s q, (first s q).sink = s.sink) (c n : Nat) (s : InMemoryShardExecutor σ) :
    (afterItems kind first c n s).sink.countP Event.isError = s.sink.countP Event.isError := by
  have hemit : (s.emit (.settlement ⟨c, kind, n⟩)).sink.countP Event.isError =
      s.sink.countP Event.isError := by
    simp [emit, countP_append, Event.isError]
  unfold afterItems
  split
  · dsimp only
    split
    · exact hemit
    · rw [driveQueue_errors, hfirst, hemit]
  · rfl

variable (s)

theorem retryQueue_sink (q : Nat) : (s.retryQueue q).sink = s.sink := by
  unfold retryQueue
  split <;> rfl

/-- No message of the consumer's queue is in Retry. -/
def NoRetry (c : Nat) : Prop :=
  ∀ q x, (s.consumers c).map queueId = some q → s.stateOf q x ≠ some .retry

variable {s}

/-- **Behind the items**: with no error to report, the handlers agree if
and only if nothing was settled or nothing waits for a retry. -/
theorem agree_after_iff (h : Coherent s) {n : Nat} (hc : 0 < n → s.consumers c ≠ none) :
    Agree (afterItems .reject (fun s _ => s) c n s) (afterItems .nack retryQueue c n s) ↔
       n = 0 ∨ NoRetry s c := by
  rcases Nat.eq_zero_or_pos n with rfl | hn
  · exact iff_of_true ⟨rfl, rfl⟩ (.inl rfl)
  obtain ⟨state, hc⟩ := Option.ne_none_iff_exists'.mp (hc hn)
  have hcoh : ∀ kind, Coherent (s.emit (.settlement ⟨c, kind, n⟩)) := fun kind =>
    h.congr rfl rfl
  have hreject : afterItems .reject (fun s _ => s) c n s =
      (s.emit (.settlement ⟨c, .reject, n⟩)).driveQueue state.queueId := by
    simp only [afterItems, if_pos hn, emit, hc]
  have hnack : afterItems .nack retryQueue c n s =
      ((s.emit (.settlement ⟨c, .nack, n⟩)).retryQueue state.queueId).driveQueue
        state.queueId := by
    simp only [afterItems, if_pos hn, emit, hc]
  rw [hreject, hnack]
  constructor
  · intro hagree
    refine .inr fun q x hq hx => ?_
    obtain rfl : state.queueId = q := by simpa [hc] using hq
    -- a reject leaves the message where it is, a nack takes it out of Retry
    have hstays := retry_driveQueue (hcoh .reject) state.queueId hx
    rw [hagree.stateOf] at hstays
    have hretried := (@calmStep_act _ _ (.retry state.queueId) rfl (hcoh .nack)).1
    have hadv := (calmStep_driveQueue _ state.queueId hretried).2 state.queueId x
    change Advances _ (stateOf _ state.queueId x) at hadv
    rw [act, hstays] at hadv
    exact (stateOf_retryQueue (hcoh .nack) state.queueId).1 x hadv.of_retry
  · rintro (h0 | hno)
    · omega
    · rw [retryQueue_none (hcoh .nack) fun x => hno _ x (by rw [hc]; rfl)]
      exact agree_driveQueue s state.queueId n .reject .nack

theorem queueId_of_holds {t : Nat} (h : s.Holds c q t x) :
    (s.consumers c).map queueId = some q := by
  obtain ⟨state, hc, rfl, -⟩ := h
  rw [hc]
  rfl

/-- After the items nothing waits for a retry if nothing did before and
none of them requeues. -/
theorem Rejected.noRetry_iff (h : Rejected c items s s') (hitems : AllHeld s c items) :
    NoRetry s' c ↔ (∀ cmd ∈ items, cmd.disposition ≠ .requeue) ∧ NoRetry s c := by
  simp only [NoRetry, h.queueId, ne_eq, h.retry]
  constructor
  · intro hno
    refine ⟨fun cmd hmem hd => ?_, fun q x hq hx => hno q x hq (.inl hx)⟩
    obtain ⟨q, x, hx⟩ := mem_heldTags.mp (hitems.2 cmd hmem)
    exact hno q x (queueId_of_holds hx) (.inr ⟨cmd, hmem, hd, hx⟩)
  · rintro ⟨hkeep, hno⟩ q x hq (hx | ⟨cmd, hmem, hd, -⟩)
    · exact hno q x hq hx
    · exact hkeep cmd hmem hd

/-- **Reject and nack.** In every executor state that batches lead to, a
reject batch does what the nack batch of its items does if and only if
every item names an outstanding tag of its own, none of them requeues and
nothing of the queue is in Retry; or the number of items is 0 in a `u32`, so
that neither handler notices that anything was settled. -/
theorem reject_agrees_with_nack {σ : Type} (store : ShardStorage σ) (shardId : Nat)
    (durable : Option σ) (batches : List ShardCommandBatch) (c : Nat)
    (items : List RejectCommand) :
    Agree (((new shardId durable).run store batches).execute store (.reject c items))
        (((new shardId durable).run store batches).execute store
          (.nack c (items.map RejectCommand.asNack))) ↔
      AllHeld ((new shardId durable).run store batches) c items ∧
        (items.length % 2 ^ 32 = 0 ∨ (∀ cmd ∈ items, cmd.disposition ≠ .requeue) ∧
          NoRetry ((new shardId durable).run store batches) c) := by
  have h := coherent_run store shardId durable batches
  generalize (new shardId durable).run store batches = s at h ⊢
  obtain ⟨s', n, errs, hloop, hcoh, herrs, hall⟩ := settleItems_reject items s 0 [] h (by decide)
  rw [nil_append] at hloop
  change Agree (s.execRejectBatch c items) (s.execNackBatch c (items.map RejectCommand.asNack)) ↔ _
  rw [execRejectBatch_eq s hloop,
    execNackBatch_eq s ((settleItems_asNack items s 0 []).trans hloop)]
  by_cases hitems : AllHeld s c items
  · obtain ⟨hrej, hn⟩ := hall hitems
    rw [herrs.mpr hitems, reportErrors, if_pos rfl, agree_after_iff hcoh, hn, Nat.zero_add,
      hrej.noRetry_iff hitems]
    · exact (and_iff_right hitems).symm
    · -- an item that was executed names a tag of an attached consumer
      intro hpos
      cases items with
      | nil =>
        rw [hn] at hpos
        exact absurd hpos (by simp)
      | cons cmd items =>
        obtain ⟨q, x, hx⟩ := mem_heldTags.mp (hitems.2 cmd mem_cons_self)
        have hid := hrej.queueId.trans (queueId_of_holds hx)
        intro hnone
        rw [hnone] at hid
        cases hid
  · refine iff_of_false (fun hagree => ?_) fun hcond => hitems hcond.1
    -- the error is in one sink and not in the other
    have hcount := hagree.errors
    rw [reportErrors, if_neg (fun h0 => hitems (herrs.mp h0)), emit, countP_append,
      afterItems_errors (fun _ _ => rfl), afterItems_errors retryQueue_sink] at hcount
    simp [Event.isError] at hcount

/-- A reject that requeues leaves its message in Retry, a nack delivers it
again. A reject of an unknown tag is silent. -/
theorem rejected_message_stays : let s := (new 0 none).run .null threeDelivered
    (s.execute .null (.reject 1 [⟨2, .requeue⟩])).stateOf 0 1 = some .retry ∧
      (s.execute .null (.nack 1 [.tag 2 .one .requeue])).stateOf 0 1 = some .inflight ∧
      (s.execute .null (.reject 1 [⟨9, .drop⟩])).sink.countP Event.isError = 0 ∧
      (s.execute .null (.nack 1 [.tag 9 .one .drop])).sink.countP Event.isError = 1 ∧
      ¬ Agree (s.execute .null (.reject 1 [⟨2, .requeue⟩]))
        (s.execute .null (.nack 1 [.tag 2 .one .requeue])) := by
  refine ⟨by decide +kernel, by decide +kernel, by decide +kernel, by decide +kernel,
    fun hagree => ?_⟩
  have hstate := hagree.stateOf 0 1
  exact absurd hstate (by decide +kernel)

end Aurum.Broker
