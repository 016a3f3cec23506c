import Aurum.Broker.Safety
import Aurum.Broker.Drive
import Aurum.Broker.Settle

/-!
# Broker — requeued messages

A requeued message goes to the Retry state; `retry_all_now` moves it back
to ready. Of the three handlers that can requeue, `exec_nack_batch` calls
it before driving the queue, `exec_reject_batch` and `exec_cancel` do
not: what they requeue stays in Retry, where no delivery finds it, until
some later nack on the same queue.

Runs in which rejects and cancels requeue nothing never leave a message
in Retry, and a message that a nack gave back is delivered again at once
unless no attached consumer has credit.
-/

namespace Aurum.Broker

open Aurum.Bits Aurum.Queue Aurum.Consumer Aurum.Protocol InMemoryShardExecutor Function List

/-! ## Messages advance -/

/-- How far a message got. -/
def stage : Option MessageState → Nat
  | none | some .retry => 0
  | some .ready | some .sparseReady => 1
  | some .inflight => 2
  | some .acked => 3

/-- The message stayed or moved on. -/
def Advances (p p' : Option MessageState) : Prop := p = p' ∨ stage p < stage p'

theorem Advances.refl (p : Option MessageState) : Advances p p := .inl rfl

variable {p : Option MessageState} {v : View}

theorem Advances.trans {p' p'' : Option MessageState} (h : Advances p p') (h' : Advances p' p'') :
    Advances p p'' := by
  rcases h with rfl | h
  · exact h'
  · rcases h' with rfl | h'
    · exact .inr h
    · exact .inr (by omega)

theorem Advances.of_retry (h : Advances p (some .retry)) : p = some .retry := by
  rcases h with rfl | h
  · rfl
  · simp [stage] at h

theorem Advances.of_inflight (h : Advances (some .inflight) p) :
    p = some .inflight ∨ p = some .acked := by
  rcases h with rfl | h
  · exact .inl rfl
  · cases p with
    | none => simp [stage] at h
    | some p => cases p <;> simp_all [stage]

theorem Advances.of_acked (h : Advances (some .acked) p) : p = some .acked := by
  rcases h with rfl | h
  · rfl
  · cases p with
    | none => simp [stage] at h
    | some p => cases p <;> simp [stage] at h

/-- In every queue every message stayed or moved on. -/
def Calm (v v' : View) : Prop := ∀ q x, Advances (v.state q x) (v'.state q x)

theorem Calm.refl (v : View) : Calm v v := fun _ _ => .refl _

theorem Calm.trans {v' v'' : View} (h : Calm v v') (h' : Calm v' v'') : Calm v v'' :=
  fun q x => (h q x).trans (h' q x)

/-- Messages of one queue that all move on. -/
theorem calm_setAll {q : Nat} {S : List Nat} {p : MessageState} {seat : Nat → Option Seat}
    (hS : ∀ x ∈ S, stage (v.state q x) < stage (some p)) :
    Calm v ⟨Function.update v.state q (setAll (v.state q) S p), seat⟩ := by
  intro k x
  dsimp only
  rw [update_apply]
  split
  · next hk =>
    subst hk
    by_cases hx : x ∈ S
    · rw [setAll_of_mem hx]
      exact .inr (hS x hx)
    · rw [setAll_of_not_mem hx]
      exact .refl _
  · exact .refl _

theorem stage_of_held {q : Nat} {entries l : List (Nat × Nat)} (hl : ∀ e ∈ l, e ∈ entries)
    (hin : ∀ e ∈ entries, v.state q e.2 = some .inflight) :
    ∀ x ∈ l.map Prod.snd, stage (v.state q x) < stage (some .acked) := by
  intro x hx
  obtain ⟨e, he, rfl⟩ := mem_map.mp hx
  rw [hin e (hl e he)]
  decide

/-- **Without a requeue every message advances.** -/
theorem Effect.calm {v' : View} {es : List Event} (h : Effect v false es v') : Calm v v' := by
  cases h with
  | quiet hes => exact .refl v
  | published q next count hnext =>
    intro k x
    dsimp only
    rw [update_apply]
    split
    · next hk =>
      subst hk
      rw [HybridRangeBlockQueue.publishAll]
      split
      · next hx =>
        rw [(hnext x).mpr hx.1]
        exact .inr (by decide)
      · exact .refl _
    · exact .refl _
  | started c q hc => exact .refl v
  | delivered c seat S batch hc hnodup havail hbatch =>
    refine calm_setAll fun x hx => ?_
    rcases havail x hx with h | h <;> rw [h] <;> decide
  | settled c seat take hc hin =>
    exact calm_setAll (stage_of_held (fun e he => (mem_filter.mp he).1) hin)
  | retried q S hS =>
    refine calm_setAll fun x hx => ?_
    rw [(hS x).mp hx]
    decide
  | cancelled c seat hc hin => exact calm_setAll (stage_of_held (fun e he => he) hin)

/-- A change under which the executor stays coherent and every message
advances. -/
def CalmStep {σ : Type} (s s' : InMemoryShardExecutor σ) : Prop :=
  Coherent s → Coherent s' ∧ Calm s.view s'.view

section

variable {σ : Type} {s s' s'' : InMemoryShardExecutor σ}

theorem CalmStep.refl (s : InMemoryShardExecutor σ) : CalmStep s s := fun h => ⟨h, .refl _⟩

theorem CalmStep.trans (h : CalmStep s s') (h' : CalmStep s' s'') : CalmStep s s'' := fun hs => by
  obtain ⟨h1, c1⟩ := h hs
  obtain ⟨h2, c2⟩ := h' h1
  exact ⟨h2, c1.trans c2⟩

theorem calmStep_act {a : Action σ} (ha : a.requeues = false) : CalmStep s (s.act a) := fun h => by
  obtain ⟨h', es, -, heff⟩ := act_effect h a
  rw [ha] at heff
  exact ⟨h', heff.calm⟩

theorem calmStep_of_reaches (h : Reaches (fun a => a.requeues = false) s s') : CalmStep s s' := by
  obtain ⟨actions, hall, rfl⟩ := h
  induction actions generalizing s with
  | nil => exact .refl s
  | cons a actions ih =>
    exact (calmStep_act (hall a (by simp))).trans (ih fun b hb => hall b (by simp [hb]))

/-- Plain actions requeue nothing. -/
theorem requeues_of_plain (a : Action σ) (h : a.plain = true) : a.requeues = false := by
  cases a <;> simp_all [Action.plain, Action.requeues]

theorem calmStep_driveQueue (s : InMemoryShardExecutor σ) (queueId : Nat) :
    CalmStep s (s.driveQueue queueId) :=
  calmStep_of_reaches (reaches_driveQueue requeues_of_plain s queueId)

/-! ## Rejects and cancels that requeue nothing -/

/-- No reject of the list requeues a message the consumer holds when the
reject is executed. -/
def RejectsKeep (c : Nat) : List RejectCommand → InMemoryShardExecutor σ → Prop
  | [], _ => True
  | cmd :: items, s =>
    (cmd.disposition = .requeue → ∀ q x, ¬ s.Holds c q cmd.tag x) ∧
      RejectsKeep c items (s.execRejectCommand c cmd).1

/-- No cancel of the list requeues messages: its consumer holds none when
the cancel is executed. -/
def CancelsKeep : List CancelConsumer → InMemoryShardExecutor σ → Prop
  | [], _ => True
  | cmd :: items, s =>
    (cmd.disposition = .requeueUnacked → ∀ q t x, ¬ s.Holds cmd.consumerId q t x) ∧
      CancelsKeep items (s.execCancel cmd)

variable {c : Nat} {cmd : RejectCommand}

/-- A reject of a tag that is not outstanding is refused. -/
theorem execRejectCommand_refused (hnone : ∀ q x, ¬ s.Holds c q cmd.tag x) :
    (s.execRejectCommand c cmd).1 = s := by
  simp only [execRejectCommand, execWith]
  split
  · rfl
  · next state hc =>
    split
    · rfl
    · have hx : ∀ x, (cmd.tag, x) ∉ state.session.entries :=
        fun x hx => hnone state.queueId x ⟨state, hc, rfl, hx⟩
      have herr : ∀ q, rejectSession state.session q cmd =
          .error (refusal state.session cmd.tag) := fun q => by
        rw [rejectSession, nack_refused hx]
        rfl
      rw [herr]

theorem calmStep_reject (hkeep : cmd.disposition = .requeue → ∀ q x, ¬ s.Holds c q cmd.tag x) :
    CalmStep s (s.execRejectCommand c cmd).1 := by
  by_cases hd : cmd.disposition = .requeue
  · rw [execRejectCommand_refused (hkeep hd)]
    exact .refl s
  · -- a dropped or dead-lettered message is settled
    have hreason : toReason cmd.disposition ≠ .requeue := by
      cases h : cmd.disposition <;> simp_all [toReason]
    refine calmStep_of_reaches (reaches_execWith s c fun state queue session q n hc hq h => ?_)
    exact reaches_rejectSession (fun tag mode => by simp [Action.requeues, hreason]) hc hq h

theorem calmStep_rejectItems : ∀ (items : List RejectCommand)
    (s : InMemoryShardExecutor σ) (settled : Nat) (errs : List CommandError),
    RejectsKeep c items s →
      CalmStep s (settleItems (fun s => s.execRejectCommand c) items s settled errs).1 := by
  intro items
  induction items with
  | nil => exact fun s _ _ _ => .refl s
  | cons cmd items ih =>
    intro s settled errs ⟨hcmd, hitems⟩
    have h := calmStep_reject hcmd
    rw [settleItems]
    split <;> next heq =>
      rw [heq] at h hitems
      exact h.trans (ih _ _ _ hitems)

theorem calmStep_rejectBatch {items : List RejectCommand} (h : RejectsKeep c items s) :
    CalmStep s (s.execRejectBatch c items) := by
  rw [execRejectBatch_eq s rfl]
  exact (calmStep_rejectItems items s 0 [] h).trans (calmStep_of_reaches
    (reaches_afterItems requeues_of_plain (fun s _ => .refl s) _ _ _ _))

/-- The cancel of a consumer that holds nothing. -/
theorem calmStep_cancel_idle (disp : CancelDisposition) (hnone : ∀ q t x, ¬ s.Holds c q t x) :
    CalmStep s (s.act (.cancel c disp)) := by
  intro h
  refine ⟨(act_effect h _).1, ?_⟩
  cases hc : s.consumers c with
  | none =>
    have hsame : s.act (.cancel c disp) = s := by simp only [act, hc]
    rw [hsame]
    exact .refl _
  | some state =>
    have hnil : state.session.entries = [] := by
      refine eq_nil_iff_forall_not_mem.mpr fun e he => ?_
      exact hnone state.queueId e.1 e.2 ⟨state, hc, rfl, he⟩
    rw [view_cancel h hc, hnil, map_nil, setAll_nil, update_eq_self]
    exact fun _ _ => .refl _

theorem calmStep_execCancel {cmd : CancelConsumer}
    (hkeep : cmd.disposition = .requeueUnacked → ∀ q t x, ¬ s.Holds cmd.consumerId q t x) :
    CalmStep s (s.execCancel cmd) := by
  by_cases hd : cmd.disposition = .requeueUnacked
  · have hact := calmStep_cancel_idle (toDisposition cmd.disposition) (hkeep hd)
    unfold execCancel
    split
    · exact calmStep_act (a := .error [.consumer .consumerNotFound cmd.consumerId]) rfl
    · next state hc =>
      split
      · exact calmStep_act (a := .error [.consumer .consumerCancelled cmd.consumerId]) rfl
      · split
        · exact .refl s
        · next queue hq =>
          rw [act_cancel hc hq] at hact
          exact hact.trans (calmStep_driveQueue _ _)
  · -- dropped messages are settled
    refine calmStep_of_reaches (reaches_execCancel requeues_of_plain s ?_)
    cases h : cmd.disposition <;> simp_all [Action.requeues, toDisposition]

theorem calmStep_cancels : ∀ (items : List CancelConsumer) (s : InMemoryShardExecutor σ),
    CancelsKeep items s → CalmStep s (items.foldl execCancel s) := by
  intro items
  induction items with
  | nil => exact fun s _ => .refl s
  | cons cmd items ih =>
    exact fun s h => (calmStep_execCancel h.1).trans (ih (s.execCancel cmd) h.2)

/-! ## Batches -/

/-- **What a batch leaves behind**: nothing waits in Retry, and a message
that was outstanding is outstanding or settled, or waits because no
consumer attached to its queue has credit. -/
structure Unstranded (s s' : InMemoryShardExecutor σ) : Prop where
  retry : ∀ q x, s'.stateOf q x ≠ some .retry
  requeued : ∀ q x, s.stateOf q x = some .inflight →
    s'.stateOf q x = some .inflight ∨ s'.stateOf q x = some .acked ∨
      ((s'.stateOf q x = some .ready ∨ s'.stateOf q x = some .sparseReady) ∧
        ∀ c state, s'.consumers c = some state → state.queueId = q →
          state.session.credit.available = 0)

theorem CalmStep.unstranded (hstep : CalmStep s s') (h : Coherent s)
    (hno : ∀ q x, s.stateOf q x ≠ some .retry) : Unstranded s s' where
  retry := by
    intro q x hretry
    have hadv := (hstep h).2 q x
    change Advances (s.stateOf q x) (s'.stateOf q x) at hadv
    rw [hretry] at hadv
    exact hno q x hadv.of_retry
  requeued := by
    intro q x hin
    have hadv := (hstep h).2 q x
    change Advances (s.stateOf q x) (s'.stateOf q x) at hadv
    rw [hin] at hadv
    exact hadv.of_inflight.imp_right .inl

/-- `retry_all_now` on a queue of the executor. -/
theorem stateOf_retryQueue (h : Coherent s) (queueId : Nat) :
    (∀ x, (s.retryQueue queueId).stateOf queueId x ≠ some .retry) ∧
      ∀ q, q ≠ queueId → (s.retryQueue queueId).stateOf q = s.stateOf q := by
  unfold retryQueue
  split
  · next hq => exact ⟨fun x => by simp [stateOf, hq], fun _ _ => rfl⟩
  · next queue hq =>
    obtain ⟨st, hst⟩ := h.queue _ queue hq
    obtain ⟨S, hd, -, hS, -, -⟩ := hst.owns.denotes.retryAllNow
    have hstate : (s.setQueue queueId
        { queue with queue := queue.queue.retryAllNow.1 }).stateOf = _ := stateOf_update hd
    refine ⟨fun x => ?_, fun q hq => by rw [hstate, update_of_ne hq]⟩
    rw [hstate, update_self]
    by_cases hx : x ∈ S
    · simp [setAll_of_mem hx]
    · rw [setAll_of_not_mem hx]
      exact fun hr => hx ((hS x).mpr hr)

/-- The end of a nack batch that settled something. -/
theorem unstranded_redrive (h : Coherent s) {queueId : Nat}
    (hno : ∀ q, q ≠ queueId → ∀ x, s.stateOf q x ≠ some .retry) :
    Coherent ((s.retryQueue queueId).driveQueue queueId) ∧
      (∀ q x, ((s.retryQueue queueId).driveQueue queueId).stateOf q x ≠ some .retry) ∧
      Driven ((s.retryQueue queueId).driveQueue queueId) queueId ∧
      Calm s.view ((s.retryQueue queueId).driveQueue queueId).view := by
  obtain ⟨hcoh, hcalm⟩ := calmStep_act (s := s) (a := .retry queueId) rfl h
  obtain ⟨hcoh', hcalm'⟩ := calmStep_driveQueue (s.retryQueue queueId) queueId hcoh
  obtain ⟨hq, hother⟩ := stateOf_retryQueue h queueId
  refine ⟨hcoh', fun q x hretry => ?_, driveQueue_driven hcoh queueId, hcalm.trans hcalm'⟩
  have hadv := hcalm' q x
  change Advances ((s.retryQueue queueId).stateOf q x) (((s.retryQueue queueId).driveQueue
    queueId).stateOf q x) at hadv
  rw [hretry] at hadv
  by_cases hqq : q = queueId
  · subst hqq
    exact hq x hadv.of_retry
  · exact hno q hqq x (by rw [← hother q hqq]; exact hadv.of_retry)

/-- Only the registries matter. -/
theorem Unstranded.congr (h : Unstranded s s') (hq : s''.queues = s'.queues)
    (hc : s''.consumers = s'.consumers) : Unstranded s s'' := by
  have hstate : s''.stateOf = s'.stateOf := by
    funext q x
    simp only [stateOf, hq]
  exact ⟨by rw [hstate]; exact h.retry, by rw [hstate, hc]; exact h.requeued⟩

theorem reportErrors_queues (s : InMemoryShardExecutor σ) (errs : List CommandError) :
    (s.reportErrors errs).queues = s.queues ∧ (s.reportErrors errs).consumers = s.consumers := by
  unfold reportErrors
  split <;> exact ⟨rfl, rfl⟩

/-- **A nack batch**: what its items requeue is ready again before it
returns, and delivered if somebody has credit. -/
theorem unstranded_nackBatch (h : Coherent s) (hno : ∀ q x, s.stateOf q x ≠ some .retry)
    (hlt : heldCount s c < 2 ^ 32) (items : List NackCommand) :
    Coherent (s.execNackBatch c items) ∧ Unstranded s (s.execNackBatch c items) := by
  obtain ⟨n, hn, hset⟩ := settled_items (c := c) (d := s.durable)
    (fun s cmd h _ hlt => settlesItem_nack h hlt cmd) items s 0 [] h rfl (by omega)
  unfold execNackBatch
  generalize settleItems (fun s => s.execNackCommand c) items s 0 [] = res at hn hset ⊢
  obtain ⟨s1, settled, errs⟩ := res
  obtain rfl : settled = n := by simpa using hn
  dsimp only at hset ⊢
  by_cases hpos : 0 < settled
  · rw [if_pos hpos]
    obtain ⟨state, hc⟩ := hset.registered hpos
    have hother : ∀ q, q ≠ state.queueId → s1.stateOf q = s.stateOf q := by
      intro q hq
      have hsame := hset.queues q (by rw [← hset.queueId, hc]; simpa using hq.symm)
      funext x
      simp only [stateOf, hsame]
    have hemit : (s1.emit (.settlement ⟨c, .nack, settled⟩)).consumers c = some state := hc
    obtain ⟨hcoh, hretry, hdriven, hcalm⟩ := @unstranded_redrive _
      (s1.emit (.settlement ⟨c, .nack, settled⟩)) (hset.coherent.congr rfl rfl)
      state.queueId fun q hq x => by
        change s1.stateOf q x ≠ _
        rw [hother q hq]
        exact hno q x
    simp only [hemit]
    generalize ((s1.emit (.settlement ⟨c, .nack, settled⟩)).retryQueue
      state.queueId).driveQueue state.queueId = s2 at hcoh hretry hdriven hcalm ⊢
    obtain ⟨hq2, hc2⟩ := reportErrors_queues s2 errs
    refine ⟨hcoh.congr hq2 hc2, Unstranded.congr ⟨hretry, fun q x hin => ?_⟩ hq2 hc2⟩
    have hadv : Advances (s1.stateOf q x) (s2.stateOf q x) := hcalm q x
    have hne := hretry q x
    rcases hset.states q x with heq | ⟨-, hout⟩
    · -- not settled here: it stays where it is
      rw [heq, hin] at hadv
      exact hadv.of_inflight.imp_right .inl
    · rcases hout with hout | hout <;> rw [hout] at hadv
      · -- requeued: it is ready, unless it was delivered again
        have hq : q = state.queueId := by
          by_contra hq
          rw [hother q hq, hin] at hout
          cases hout
        subst hq
        rcases hadv with heq | hlt
        · exact absurd heq.symm hne
        · cases hst : s2.stateOf state.queueId x with
          | none => simp [hst, stage] at hlt
          | some p =>
            cases p with
            | retry => exact absurd hst hne
            | inflight => exact .inl rfl
            | acked => exact .inr (.inl rfl)
            | ready =>
              rcases hdriven with hr | hspent
              · exact absurd hst (hr x).1
              · exact .inr (.inr ⟨.inl rfl, hspent⟩)
            | sparseReady =>
              rcases hdriven with hr | hspent
              · exact absurd hst (hr x).2
              · exact .inr (.inr ⟨.inr rfl, hspent⟩)
      · exact .inr (.inl hadv.of_acked)
  · rw [if_neg hpos, hset.same (by omega)]
    obtain ⟨hq2, hc2⟩ := reportErrors_queues s errs
    exact ⟨h.congr hq2 hc2, ((CalmStep.refl s).unstranded h hno).congr hq2 hc2⟩

/-- What a batch must not do, given the executor before it: rejects and
cancels requeue nothing, and a nacked consumer holds fewer than `2^32`
messages. -/
def Keeps (s : InMemoryShardExecutor σ) : ShardCommandBatch → Prop
  | .nack c _ => heldCount s c < 2 ^ 32
  | .reject c items => RejectsKeep c items s
  | .cancel items => CancelsKeep items s
  | _ => True

theorem unstranded_execute (store : ShardStorage σ) (h : Coherent s)
    (hno : ∀ q x, s.stateOf q x ≠ some .retry) {b : ShardCommandBatch} (hb : Keeps s b) :
    Coherent (s.execute store b) ∧ Unstranded s (s.execute store b) := by
  have calm : ∀ {s'}, CalmStep s s' → Coherent s' ∧ Unstranded s s' :=
    fun hstep => ⟨(hstep h).1, hstep.unstranded h hno⟩
  cases b with
  | declare items =>
    exact calm (calmStep_of_reaches
      (reaches_foldl (fun s q _ => reaches_execDeclareQueue requeues_of_plain s q) s))
  | publish batch =>
    exact calm (calmStep_of_reaches (reaches_execPublish requeues_of_plain store s rfl))
  | consume items =>
    exact calm (calmStep_of_reaches
      (reaches_foldl (fun s _ _ => reaches_execConsumeStart requeues_of_plain s rfl) s))
  | credit items =>
    exact calm (calmStep_of_reaches
      (reaches_foldl (fun s cmd _ => reaches_execCreditUpdate requeues_of_plain s cmd) s))
  | ack c items =>
    exact calm (calmStep_of_reaches
      (reaches_execAckBatch requeues_of_plain store s (fun _ => rfl) items))
  | nack c items => exact unstranded_nackBatch h hno hb items
  | reject c items => exact calm (calmStep_rejectBatch hb)
  | cancel items => exact calm (calmStep_cancels items s hb)

end

/-! ## Runs -/

/-- Every batch of the run meets the condition in the executor it finds. -/
def KeepsRun {σ : Type} (store : ShardStorage σ) :
    InMemoryShardExecutor σ → List ShardCommandBatch → Prop
  | _, [] => True
  | s, b :: batches => Keeps s b ∧ KeepsRun store (s.execute store b) batches

theorem unstranded_run {σ : Type} (store : ShardStorage σ) :
    ∀ (batches : List ShardCommandBatch) (s : InMemoryShardExecutor σ), Coherent s →
      (∀ q x, s.stateOf q x ≠ some .retry) → KeepsRun store s batches →
      ∀ done b rest, batches = done ++ b :: rest →
        Unstranded (s.run store done) (s.run store (done ++ [b])) := by
  intro batches
  induction batches with
  | nil => exact fun s _ _ _ done b rest heq => by simp at heq
  | cons b batches ih =>
    intro s h hno ⟨hb, hrun⟩ done b' rest heq
    obtain ⟨hcoh, hun⟩ := unstranded_execute store h hno hb
    cases done with
    | nil =>
      obtain ⟨rfl, -⟩ : b = b' ∧ batches = rest := by simpa using heq
      exact hun
    | cons d done =>
      obtain ⟨rfl, htail⟩ : b = d ∧ batches = done ++ b' :: rest := by simpa using heq
      exact ih (s.execute store b) hcoh hun.retry hrun done b' rest htail

/-- **No stranded requeue**, in every run whose rejects and cancels
requeue nothing. -/
theorem no_stranded_requeue {σ : Type} (store : ShardStorage σ) (shardId : Nat)
    (durable : Option σ) (batches : List ShardCommandBatch)
    (hkeeps : KeepsRun store (new shardId durable) batches) :
    ∀ done b rest, batches = done ++ b :: rest →
      Unstranded (run store (new shardId durable) done)
        (run store (new shardId durable) (done ++ [b])) :=
  unstranded_run store batches (new shardId durable) (coherent_new shardId durable)
    (fun _ _ => by simp [stateOf, new]) hkeeps

/-- One message of queue 0 delivered to consumer 1 under tag 1. -/
def oneDelivered : List ShardCommandBatch :=
  [.declare [0], .publish (.contiguous 0 1), .consume [⟨1, 1, 0, 0⟩]]

/-- A nack that requeues the message meets the condition. -/
theorem no_stranded_requeue_nack :
    KeepsRun .null (new 0 none) (oneDelivered ++ [.nack 1 [.tag 1 .one .requeue]]) ∧
      Unstranded (run .null (new 0 none) oneDelivered)
        (run .null (new 0 none) (oneDelivered ++ [.nack 1 [.tag 1 .one .requeue]])) := by
  have hheld : heldCount (run .null (new 0 none) oneDelivered) 1 < 2 ^ 32 := by decide +kernel
  have hkeeps : KeepsRun .null (new 0 none)
      (oneDelivered ++ [.nack 1 [.tag 1 .one .requeue]]) :=
    ⟨trivial, trivial, trivial, hheld, trivial⟩
  exact ⟨hkeeps, no_stranded_requeue .null 0 none _ hkeeps oneDelivered _ [] rfl⟩

/-- **A reject or a cancel that requeues strands the message** in Retry. -/
theorem reject_and_cancel_strand :
    (run .null (new 0 none) (oneDelivered ++ [.reject 1 [⟨1, .requeue⟩]])).stateOf 0 0 =
        some .retry ∧
      (run .null (new 0 none) (oneDelivered ++ [.cancel [⟨1, .requeueUnacked⟩]])).stateOf 0 0 =
        some .retry := by
  decide +kernel

end Aurum.Broker
