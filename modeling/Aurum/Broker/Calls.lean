import Aurum.Broker.Safety
import Aurum.Broker.SingleNode

/-!
# Broker — what a call of the broker does

Whatever a call is given, the broker only has its shard execute command
batches and hands back the deliveries they made. So a call is a sequence
of actions of the shard, and what holds of every action holds of every
call. `Reaches.events` is the rule for statements about the events.
-/

namespace Aurum.Broker

open Aurum.Queue Aurum.Consumer Aurum.Protocol Aurum.Routing InMemoryShardExecutor List
open ShardOutputBatch

variable {σ : Type} {s s' s'' : InMemoryShardExecutor σ}

/-! ## Events of actions -/

/-- The deliveries among the events, in order. -/
def eventDeliveries (es : List Event) : List DeliveryEventBatch :=
  es.filterMap fun
    | .delivery batch => some batch
    | _ => none

theorem eventDeliveries_append (es es' : List Event) :
    eventDeliveries (es ++ es') = eventDeliveries es ++ eventDeliveries es' :=
  filterMap_append

variable {es : List Event} {Q : Action σ → Prop} {c : Nat}

theorem eventDeliveries_quiet (h : ∀ e ∈ es, e.Quiet) : eventDeliveries es = [] := by
  refine filterMap_eq_nil_iff.mpr fun e he => ?_
  have hquiet := h e he
  cases e with
  | delivery batch => exact absurd hquiet id
  | _ => rfl

/-- An output buffer collects the deliveries it is given. -/
theorem deliveries_ofEvents (es : List Event) : (ofEvents es).deliveries = eventDeliveries es := by
  have key : ∀ (es : List Event) (out : ShardOutputBatch),
      (es.foldl onEvent out).deliveries =
        out.deliveries ++ eventDeliveries es := by
    intro es
    induction es with
    | nil => simp [eventDeliveries]
    | cons e es ih =>
      intro out
      rw [foldl_cons, ih]
      cases e <;> simp [onEvent, eventDeliveries]
  exact key es .empty

/-- **The rule for events.** What holds before anything happened and is
kept by every effect of a permitted action holds of all the events of a
sequence of them, together with the state they lead to. -/
theorem Reaches.events {P : View → List Event → Prop} (h : Coherent s) (hreach : Reaches Q s s')
    (h0 : P s.view []) (hstep : ∀ v v' es es' a, Q a → P v es → Effect v a.requeues es' v' →
      (∀ c kind, Event.consumer c kind ∈ es' → a.Reports c kind) → P v' (es ++ es')) :
    ∃ es, s'.sink = s.sink ++ es ∧ P s'.view es := by
  obtain ⟨actions, hall, rfl⟩ := hreach
  -- the events so far are carried along
  have key : ∀ (actions : List (Action σ)) (s : InMemoryShardExecutor σ) (es : List Event),
      Coherent s → P s.view es → (∀ a ∈ actions, Q a) →
      ∃ es', (actions.foldl act s).sink = s.sink ++ es' ∧
        P (actions.foldl act s).view (es ++ es') := by
    intro actions
    induction actions with
    | nil => exact fun s es _ hP _ => ⟨[], by simp, by simpa using hP⟩
    | cons a actions ih =>
      intro s es hcoh hP hall
      obtain ⟨h', es1, hsink, heff⟩ := act_effect hcoh a
      obtain ⟨es1', hsink', hnamed, -⟩ := (act_writes s a).events
      obtain rfl : es1' = es1 := append_cancel_left (hsink'.symm.trans hsink)
      have hP' := hstep _ _ es es1' a (hall a (by simp)) hP heff hnamed
      obtain ⟨es2, hsink2, hP2⟩ :=
        ih (s.act a) (es ++ es1') h' hP' fun b hb => hall b (by simp [hb])
      exact ⟨es1' ++ es2, by rw [foldl_cons, hsink2, hsink, List.append_assoc],
        by rw [← List.append_assoc]; exact hP2⟩
  simpa using key actions s [] h h0 hall

/-! ## Consumers that are gone -/

/-- A consumer stays away until an action starts it. -/
theorem Reaches.absent (h : Coherent s) (hreach : Reaches Q s s')
    (hQ : ∀ a, Q a → ¬ a.Reports c .started) (hc : s.consumers c = none) :
    s'.consumers c = none := by
  have hseat : s.view.seat c = none := by simp [view, hc]
  obtain ⟨-, -, hnone⟩ := Reaches.events (P := fun v _ => v.seat c = none) h hreach hseat
    (by
      intro v v' es es' a ha hv heff hrep
      cases heff with
      | quiet hes => exact hv
      | published q next count hnext => exact hv
      | retried q S hS => exact hv
      | started k q hk =>
        have hne : c ≠ k := by
          rintro rfl
          exact hQ a ha (hrep c .started (by simp))
        simpa [hne] using hv
      | delivered k seat S batch hk hnodup havail hbatch =>
        have hne : c ≠ k := by rintro rfl; cases hv.symm.trans hk
        simpa [View.deliver, hne] using hv
      | settled k seat take hk hin =>
        have hne : c ≠ k := by rintro rfl; cases hv.symm.trans hk
        simpa [hne] using hv
      | cancelled k seat hk hin =>
        by_cases hck : c = k
        · subst hck; simp
        · simpa [hck] using hv)
  simpa [view] using hnone

theorem not_reports_of_plain {a : Action σ} (h : a.plain = true) (c : Nat)
    (kind : ConsumerEventKind) : ¬ a.Reports c kind := by
  cases a <;> simp_all [Action.plain, Action.Reports]

/-- `exec_cancel` always removes the consumer it is given. -/
theorem execCancel_absent (h : Coherent s) (cmd : CancelConsumer) :
    (s.execCancel cmd).consumers cmd.consumerId = none := by
  unfold execCancel
  split
  · next hc => exact hc
  · next state hc =>
    obtain ⟨hok, queue, hq⟩ := h.consumer _ _ hc
    rw [hok.live, if_neg (by simp)]
    simp only [hq]
    -- the removal is an action, and driving the queue starts nobody
    have hcoh := (act_effect h (.cancel cmd.consumerId (toDisposition cmd.disposition))).1
    rw [act_cancel hc hq] at hcoh
    have hgone : ((s.removeConsumer cmd.consumerId state queue
        (toDisposition cmd.disposition)).emit (.consumer cmd.consumerId .cancelled)).consumers
          cmd.consumerId = none := by
      simp [removeConsumer, emit]
    split
    · exact Reaches.absent hcoh (reaches_driveQueue (fun a ha => ha) _ _)
        (fun a ha => not_reports_of_plain ha _ _) hgone
    · exact hgone

/-- After a cancel batch none of its consumers is left. -/
theorem execute_cancel_absent (store : ShardStorage σ) (h : Coherent s)
    {items : List CancelConsumer} (hc : c ∈ items.map CancelConsumer.consumerId) :
    (s.execute store (.cancel items)).consumers c = none := by
  induction items generalizing s with
  | nil => cases hc
  | cons cmd items ih =>
    have hreach := reaches_allowed store s (.cancel [cmd])
    have hcoh : Coherent (s.execCancel cmd) := coherent_of_reaches h hreach
    rcases mem_cons.mp hc with rfl | hc
    · -- the rest of the batch starts nobody
      refine Reaches.absent hcoh (reaches_allowed store (s.execCancel cmd) (.cancel items)) ?_
        (execCancel_absent h cmd)
      intro a ha
      rcases ha with ha | ha
      · exact not_reports_of_plain ha _ _
      · cases a <;> simp_all [Action.Reports]
    · exact ih hcoh hc

/-! ## The only consumer -/

/-- The announcements to `c` in its latest incarnation. -/
def latest (c : Nat) (es : List Event) : List Announcement := (incarnations c es).headD []

theorem announced_append (es es' : List Event) :
    announced (es ++ es') = announced es ++ announced es' := flatMap_append

/-- What the events announce is what their deliveries announce. -/
theorem announced_eq (es : List Event) :
    announced es = (eventDeliveries es).flatMap fun d => announcements (.delivery d) := by
  induction es with
  | nil => rfl
  | cons e es ih =>
    have hcons : announced (e :: es) = announcements e ++ announced es := rfl
    rw [hcons, ih]
    cases e <;> rfl

theorem latest_append (c : Nat) (es : List Event) (e : Event) : latest c (es ++ [e]) = match e with
      | .consumer k .started => if k = c then [] else latest c es
      | .delivery batch => if batch.consumerId = c then latest c es ++ announcements e
          else latest c es
      | _ => latest c es := by
  simp only [latest, incarnations_append, foldl_cons, foldl_nil]
  match e with
  | .consumer k .started => simp only [trackIncarnation]; split <;> rfl
  | .delivery batch => simp only [trackIncarnation]; split <;> rfl
  | .consumer k .cancelled => rfl
  | .consumer k .creditExhausted => rfl
  | .settlement _ => rfl
  | .confirm _ => rfl
  | .error _ => rfl

theorem latest_quiet {es' : List Event} (h : ∀ e ∈ es', e.Quiet) (c : Nat) (es : List Event) :
    latest c (es ++ es') = latest c es := by
  rw [latest, incarnations_append, foldl_track_quiet c es' _ h, latest]

/-- Announcements are kept with the consumer they were made to. -/
theorem consumerId_of_latest {n : Announcement} (hn : n ∈ latest c es) : n.consumerId = c := by
  induction es using reverseRecOn with
  | nil => cases hn
  | append_singleton es e ih =>
    rw [latest_append] at hn
    split at hn
    · split at hn
      · cases hn
      · exact ih hn
    · split at hn
      · next hc =>
        rcases mem_append.mp hn with hn | hn
        · exact ih hn
        · obtain ⟨x, -, rfl⟩ := mem_map.mp hn
          exact hc
      · exact ih hn
    · exact ih hn

/-- **The rule for a single consumer.** While `c` is the only consumer,
everything is announced to it in one incarnation. It may be started on the
way, if it is not there yet and nothing was announced before (`fresh`). -/
theorem Reaches.onlyConsumer (h : Coherent s) (hreach : Reaches Q s s') (fresh : Prop)
    {before : List Announcement} (hstart : ∀ a k, Q a → a.Reports k .started → k = c ∧ fresh)
    (hcancel : ∀ a k, Q a → a.Reports k .cancelled → ¬ fresh)
    (honly : ∀ k, s.view.seat k ≠ none → k = c)
    (hfresh : fresh → s.view.seat c = none ∧ before = [])
    (hbefore : before.Sublist (latest c s.sink)) :
    (∀ k, s'.view.seat k ≠ none → k = c) ∧ ∃ es, s'.sink = s.sink ++ es ∧
      (before ++ announced es).Sublist (latest c s'.sink) := by
  let P : View → List Event → Prop := fun v es => (∀ k, v.seat k ≠ none → k = c) ∧
    (before ++ announced es).Sublist (latest c (s.sink ++ es)) ∧
    (fresh → v.seat c = none → before ++ announced es = [])
  have hP0 : P s.view [] := ⟨honly, by simpa [announced] using hbefore,
    fun hf _ => by simpa [announced] using (hfresh hf).2⟩
  have hstep : ∀ v v' es es' a, Q a → P v es → Effect v a.requeues es' v' →
      (∀ k kind, Event.consumer k kind ∈ es' → a.Reports k kind) → P v' (es ++ es') := by
    rintro v v' es es' a ha ⟨honly, hsub, hempty⟩ heff hnamed
    simp only [P]
    rw [announced_append, ← List.append_assoc, ← List.append_assoc]
    -- a change of one seat
    have hseat : ∀ {k : Nat} {x : Option Seat}, (x ≠ none → k = c) →
        ∀ j, Function.update v.seat k x j ≠ none → j = c := by
      intro k x hk j hj
      rw [Function.update_apply] at hj
      split at hj
      · next hjk => exact hjk ▸ hk hj
      · exact honly j hj
    cases heff with
    | quiet hes =>
      rw [announced_quiet hes, List.append_nil, latest_quiet hes]
      exact ⟨honly, hsub, hempty⟩
    | published q next count hnext => exact ⟨honly, by simpa [announced] using hsub, by
        simpa [announced] using hempty⟩
    | started k q hk =>
      obtain ⟨rfl, hf⟩ := hstart a k ha (hnamed k .started mem_cons_self)
      have hnil : before ++ announced es = [] := hempty hf hk
      refine ⟨hseat fun _ => rfl, ?_, fun _ hnone => ?_⟩
      · rw [hnil]
        exact nil_sublist _
      · simp at hnone
    | delivered k seat S batch hk hnodup havail hbatch =>
      obtain rfl : k = c := honly k (by rw [hk]; simp)
      refine ⟨hseat fun _ => rfl, ?_, fun _ hnone => ?_⟩
      · have happ := latest_append k (s.sink ++ es) (.delivery batch)
        simp only [hbatch.1, if_true] at happ
        rw [happ]
        simpa [announced] using hsub.append_right (announcements (.delivery batch))
      · simp [View.deliver] at hnone
    | settled k seat take hk hin =>
      refine ⟨hseat fun _ => honly k (by rw [hk]; simp), by simpa [announced] using hsub,
        fun hf hnone => ?_⟩
      obtain rfl : k = c := honly k (by rw [hk]; simp)
      simp at hnone
    | retried q S hS => exact ⟨honly, by simpa [announced] using hsub, by
        simpa [announced] using hempty⟩
    | cancelled k seat hk hin =>
      have hnot := hcancel a k ha (hnamed k .cancelled mem_cons_self)
      refine ⟨hseat fun hne => absurd rfl hne, ?_, fun hf => absurd hf hnot⟩
      rw [latest_append]
      simpa [announced, announcements] using hsub
  obtain ⟨es, hsink, honly', hsub, -⟩ := Reaches.events h hreach hP0 hstep
  exact ⟨honly', es, hsink, by rw [hsink]; exact hsub⟩

/-! ## Calls -/

/-- A call takes the shard from `s` to `s'` by permitted actions and hands
out the deliveries they made. -/
def Performs (Q : Action σ → Prop) (s s' : InMemoryShardExecutor σ) (out : ShardOutputBatch) :
    Prop :=
  Reaches Q s s' ∧ ∃ es, s'.sink = s.sink ++ es ∧ out.deliveries = eventDeliveries es

variable {out out' : ShardOutputBatch}

/-- A call that leaves the shard alone. -/
theorem performs_same (h : out.deliveries = []) : Performs Q s s out :=
  ⟨.refl s, [], by simp, by simp [h, eventDeliveries]⟩

theorem Performs.trans (h : Performs Q s s' out) (h' : Performs Q s' s'' out') :
    Performs Q s s'' (out.merge out') := by
  obtain ⟨hreach, es, hsink, hout⟩ := h
  obtain ⟨hreach', es', hsink', hout'⟩ := h'
  refine ⟨hreach.trans hreach', es ++ es', by rw [hsink', hsink, List.append_assoc], ?_⟩
  rw [eventDeliveries_append, ← hout, ← hout']
  rfl

theorem Performs.congr (h : Performs Q s s' out) (hout : out'.deliveries = out.deliveries) :
    Performs Q s s' out' := by
  obtain ⟨hreach, es, hsink, heq⟩ := h
  exact ⟨hreach, es, hsink, hout.trans heq⟩

/-- Any sequence of actions adds to the sink. -/
theorem Reaches.sink (h : Reaches Q s s') : ∃ es, s'.sink = s.sink ++ es := by
  obtain ⟨actions, -, rfl⟩ := h
  induction actions generalizing s with
  | nil => exact ⟨[], by simp⟩
  | cons a actions ih =>
    obtain ⟨es, hes, -⟩ := (act_writes s a).events
    obtain ⟨es', hes'⟩ := @ih (s.act a)
    exact ⟨es ++ es', by rw [foldl_cons, hes', hes, List.append_assoc]⟩

namespace InMemoryBroker

variable (store : ShardStorage σ) (b : InMemoryBroker σ)

theorem performs_execute {batch : ShardCommandBatch} (hQ : ∀ a, Allows batch a → Q a) :
    Performs Q b.shard (b.execute store batch).1.shard (b.execute store batch).2 := by
  have hreach := (reaches_allowed store b.shard batch).mono hQ
  obtain ⟨es, hes⟩ := Reaches.sink hreach
  refine ⟨hreach, es, hes, ?_⟩
  simp only [execute, deliveries_ofEvents, hes, drop_left]

/-- A queue that is created says nothing. -/
theorem performs_ensureQueue (hQ : ∀ a : Action σ, a.plain = true → Q a) (queueId : Nat) :
    Performs Q b.shard (b.ensureQueue store queueId).shard .empty := by
  unfold ensureQueue
  split
  · exact performs_same rfl
  · next hq =>
    have hallow : ∀ a, Allows (σ := σ) (.declare [queueId]) a → Q a := by
      intro a ha
      rcases ha with ha | ha
      · exact hQ a ha
      · cases a <;> exact absurd ha id
    refine (performs_execute store b hallow).congr ?_
    simp [execute, InMemoryShardExecutor.execute, execDeclareQueue, hq, setQueue,
      deliveries_ofEvents, eventDeliveries, empty]

/-- The actions a publish of `records` may take. -/
def publishes (a : Action σ) : Prop := a.plain = true ∨ ∃ batch, a = .publish batch

theorem publishes_of_allows {batch : ShardPublishBatch} {a : Action σ}
    (h : Allows (.publish batch) a) : publishes a := by
  rcases h with h | h
  · exact .inl h
  · cases a with
    | publish b => exact .inr ⟨b, rfl⟩
    | _ => exact absurd h id

/-- An accumulator of the loop of `publish_by_route`, seen from `s`. -/
theorem performs_publishToQueue (batch : IngressPublishBatch)
    {acc : InMemoryBroker σ × ShardOutputBatch} (h : Performs publishes s acc.1.shard acc.2)
    (queueId : Nat) :
    Performs publishes s (publishToQueue store batch acc queueId).1.shard
      (publishToQueue store batch acc queueId).2 := by
  have hensure : Performs publishes acc.1.shard (acc.1.ensureQueue store queueId).shard .empty :=
    performs_ensureQueue store acc.1 (fun a ha => .inl ha) queueId
  have hexec := performs_execute store (acc.1.ensureQueue store queueId)
    (fun a (ha : Allows (.publish (shardBatch batch queueId)) a) => publishes_of_allows ha)
  exact h.trans ((hensure.trans hexec).congr rfl)

theorem performs_publishToTarget (batch : IngressPublishBatch)
    {acc : InMemoryBroker σ × ShardOutputBatch} (h : Performs publishes s acc.1.shard acc.2)
    (t : QueueTarget) :
    Performs publishes s (publishToTarget store batch acc t).1.shard
      (publishToTarget store batch acc t).2 := by
  unfold publishToTarget
  split
  · exact h.congr rfl
  · have hensure :
        Performs publishes acc.1.shard (acc.1.ensureQueue store t.queueId).shard .empty :=
      performs_ensureQueue store acc.1 (fun a ha => .inl ha) t.queueId
    refine performs_publishToQueue store batch ?_ t.queueId
    exact (h.trans hensure).congr (by simp [ShardOutputBatch.merge, ShardOutputBatch.empty])

/-- **What `execute_ingress` does.** -/
theorem performs_executeIngress (batch : IngressCommandBatch) :
    Performs publishes b.shard (b.executeIngress store batch).1.shard
      (b.executeIngress store batch).2 := by
  have hpub : ∀ (batch : IngressPublishBatch) (targets : List QueueTarget)
      (acc : InMemoryBroker σ × ShardOutputBatch), Performs publishes b.shard acc.1.shard acc.2 →
      Performs publishes b.shard (targets.foldl (publishToTarget store batch) acc).1.shard
        (targets.foldl (publishToTarget store batch) acc).2 := by
    intro batch targets
    induction targets with
    | nil => exact fun acc h => h
    | cons t targets ih => exact fun acc h => ih _ (performs_publishToTarget store batch h t)
  cases batch with
  | publish batch =>
    simp only [executeIngress, execIngressPublish]
    split
    · exact @performs_publishToQueue σ b.shard store batch (b, .empty) (performs_same rfl) _
    · unfold publishByRoute
      split
      · exact performs_same rfl
      · split
        · exact performs_same rfl
        · exact hpub batch _ _ (performs_same rfl)
    · exact performs_same rfl
  | resolveRoute items =>
    refine performs_same ?_
    -- a resolution delivers nothing
    have hres : ∀ (items : List ResolveRouteCommand) (out : ShardOutputBatch),
        out.deliveries = [] → (items.foldl b.resolveOne out).deliveries = [] := by
      intro items
      induction items with
      | nil => exact fun out h => h
      | cons cmd items ih =>
        intro out h
        refine ih _ ?_
        unfold resolveOne
        dsimp only
        split <;> exact h
    exact hres items .empty rfl
  | control => exact performs_same rfl

end InMemoryBroker

end Aurum.Broker
