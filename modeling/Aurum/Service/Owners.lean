import Aurum.Service.Order

/-!
# Service — deliveries and their owners

A delivery belongs to the connection whose command started its consumer.
The registry, which decides where a delivery goes, is written before the
executor has accepted or refused the command, and a cancelled consumer is
unregistered while the executor still serves it. `deliveries_reach_owners`
says what the connections have to respect for the two to agree.
-/

namespace Aurum.Service

open Aurum.Protocol Aurum.Broker InMemoryShardExecutor List BrokerService Service.System
open Function Option

/-! ## Definitions -/

/-- The consumers a command asks to start. -/
def BrokerCommandBatch.starts : BrokerCommandBatch → List Nat
  | .shard (.consume items) => items.map ConsumeStart.consumerId
  | _ => []

/-- The consumers a command asks to cancel. -/
def BrokerCommandBatch.cancels : BrokerCommandBatch → List Nat
  | .shard (.cancel items) => items.map CancelConsumer.consumerId
  | _ => []

theorem of_mem_starts {c : Nat} : ∀ {cmd : BrokerCommandBatch}, c ∈ cmd.starts →
    ∃ items, cmd = .shard (.consume items)
  | .shard (.consume items), _ => ⟨items, rfl⟩

theorem of_mem_cancels {c : Nat} : ∀ {cmd : BrokerCommandBatch}, c ∈ cmd.cancels →
    ∃ items, cmd = .shard (.cancel items)
  | .shard (.cancel items), _ => ⟨items, rfl⟩

/-- The consumers a command names to start or to cancel. -/
def BrokerCommandBatch.names (cmd : BrokerCommandBatch) : List Nat := cmd.starts ++ cmd.cancels

/-- What the connections have to respect. A command names no consumer of
another connection, none that a command under way names, and none for
which another connection's output waits; and while a cancel of a live
consumer is under way, nobody else's command is executed. -/
def RespectsOwners {σ : Type} (s : System σ) : Step → Prop
  | .call k cmd => ∀ c ∈ cmd.names, (s.owner c = none ∨ s.owner c = some k) ∧
      (∀ call ∈ s.calls, c ∉ call.cmd.names) ∧
      ∀ e ∈ s.waiting, toConsumer c e.output.deliveries = []
  | .execute k => ∀ call ∈ s.calls, call.source ≠ k → ∀ c ∈ call.cmd.cancels, s.owner c = none
  | _ => True

/-- The deliveries of an output that belong to connection `k`. -/
def Executed.ownedBy (e : Executed) (k : Nat) : List DeliveryEventBatch :=
  ((e.output.deliveries.zip e.owners).filter fun p => p.2 = some k).map Prod.fst

/-- **Routing an output now gives every delivery to its owner**, as
immediate output or into the owner's outbox. -/
structure ReachesOwners {σ : Type} (s : System σ) (e : Executed) : Prop where
  owned : e.owners.length = e.output.deliveries.length ∧ ∀ o ∈ e.owners, o ≠ none
  immediate : (s.service.routeOutput e.source e.output).2.deliveries = e.ownedBy e.source
  outboxes : ∀ k ≠ e.source,
    deliveriesOf ((s.service.routeOutput e.source e.output).1.outboxes k) =
      deliveriesOf (s.service.outboxes k) ++ e.ownedBy k

instance {σ : Type} (s : System σ) : ∀ a, Decidable (RespectsOwners s a)
  | .call _ _ => inferInstanceAs (Decidable (∀ c ∈ _, _))
  | .execute _ => inferInstanceAs (Decidable (∀ call ∈ _, _))
  | .track _ | .route _ | .drain _ | .control _ => .isTrue trivial

/-! ## Owners along the events of a command -/

section

variable {σ : Type} {cmd : BrokerCommandBatch} {a : Action σ} {c shardId k : Nat} {o : Option Nat}
  {broker : SingleNodeBroker σ} {durable : Option σ} {s' : System σ}

theorem BrokerCommandBatch.Permits.starts (h : cmd.Permits a) (hrep : a.Reports c .started) :
    c ∈ cmd.starts := by
  cases a with
  | start start =>
    obtain ⟨rfl, -⟩ := hrep
    match cmd, h with
    | .shard (.consume items), .inr hin => exact mem_map.mpr ⟨start, hin, rfl⟩
    | .ingress _, .inr ⟨_, heq⟩ => cases heq
  | cancel c' disp => exact absurd hrep.2 (by simp)
  | _ => exact absurd hrep id

theorem BrokerCommandBatch.Permits.cancels (h : cmd.Permits a) (hrep : a.Reports c .cancelled) :
    c ∈ cmd.cancels := by
  cases a with
  | start start => exact absurd hrep.2 (by simp)
  | cancel c' disp =>
    obtain ⟨rfl, -⟩ := hrep
    match cmd, h with
    | .shard (.cancel items), .inr ⟨item, hin, heq, _⟩ => exact mem_map.mpr ⟨item, hin, heq⟩
    | .ingress _, .inr ⟨_, heq⟩ => cases heq
  | _ => exact absurd hrep id

/-- What tracking the events `es` of a command of `k` gives, from the
owners `owner` on. -/
structure Tracked (owner : Nat → Option Nat) (k : Nat) (cmd : BrokerCommandBatch) (v : View)
    (es : List Event) : Prop where
  /-- exactly the live consumers have an owner -/
  live : ∀ c, ((es.foldl (trackOwner k) (owner, [])).1 c).isSome = (v.seat c).isSome
  /-- only the command's own consumers change hands -/
  changes : ∀ c, (es.foldl (trackOwner k) (owner, [])).1 c = owner c ∨
    (c ∈ cmd.starts ∧ (es.foldl (trackOwner k) (owner, [])).1 c = some k) ∨
    (c ∈ cmd.cancels ∧ (es.foldl (trackOwner k) (owner, [])).1 c = none)
  /-- every delivery has an owner -/
  owners : List.Forall₂ (fun d o => ∃ j, o = some j ∧
      (owner d.consumerId = some j ∨ d.consumerId ∈ cmd.starts ∧ j = k))
    (eventDeliveries es) (es.foldl (trackOwner k) (owner, [])).2

variable {owner : Nat → Option Nat} {v v' : View} {es es' : List Event}

/-- Events that concern no consumer. -/
theorem foldl_trackOwner_quiet (h : ∀ e ∈ es, e.Quiet)
    (acc : (Nat → Option Nat) × List (Option Nat)) : es.foldl (trackOwner k) acc = acc := by
  induction es with
  | nil => rfl
  | cons e es ih =>
    have hstep : trackOwner k acc e = acc := by
      have hquiet := h e mem_cons_self
      cases e with
      | delivery batch => exact absurd hquiet id
      | consumer c kind => exact absurd hquiet id
      | _ => rfl
    rw [foldl_cons, hstep]
    exact ih fun e he => h e (mem_cons_of_mem _ he)

/-- Effects without events keep the seats. -/
theorem Tracked.quiet (h : Tracked owner k cmd v es) (hes : ∀ e ∈ es', e.Quiet)
    (hseat : ∀ c, (v'.seat c).isSome = (v.seat c).isSome) :
    Tracked owner k cmd v' (es ++ es') := by
  have hfold := foldl_trackOwner_quiet (k := k) hes (es.foldl (trackOwner k) (owner, []))
  constructor
  case live => rw [foldl_append, hfold]; exact fun c => (h.live c).trans (hseat c).symm
  case changes => rw [foldl_append, hfold]; exact h.changes
  case owners =>
    rw [foldl_append, hfold, eventDeliveries_append, eventDeliveries_quiet hes,
      List.append_nil]
    exact h.owners

/-- An event that reports a consumer of the command. -/
theorem Tracked.report (h : Tracked owner k cmd v es) {kind : ConsumerEventKind}
    {seat : Option Seat}
    (htrack : ∀ acc, trackOwner k acc (.consumer c kind) = (update acc.1 c o, acc.2))
    (ho : o.isSome = seat.isSome) (hc : c ∈ cmd.starts ∧ o = some k ∨ c ∈ cmd.cancels ∧ o = none)
    (hseat : v'.seat = update v.seat c seat) :
    Tracked owner k cmd v' (es ++ [.consumer c kind]) := by
  constructor
  case live =>
    intro j
    simp only [foldl_append, foldl_cons, foldl_nil, htrack, hseat]
    by_cases hj : j = c
    · subst hj; simpa using ho
    · simpa [hj] using h.live j
  case changes =>
    intro j
    simp only [foldl_append, foldl_cons, foldl_nil, htrack]
    by_cases hj : j = c
    · subst hj; exact .inr (by simpa using hc)
    · simpa [hj] using h.changes j
  case owners =>
    have hnone : eventDeliveries [.consumer c kind] = [] := rfl
    simp only [foldl_append, foldl_cons, foldl_nil, htrack,
      eventDeliveries_append, hnone, List.append_nil]
    exact h.owners

theorem isSome_update {α : Type} {f : Nat → Option α} {a b : α} (h : f c = some a) (k : Nat) :
    (update f c (some b) k).isSome = (f k).isSome := by
  by_cases hk : k = c
  · subst hk
    simp [h]
  · simp [hk]

/-- **Tracking follows every effect.** -/
theorem Tracked.step (h : Tracked owner k cmd v es) (ha : cmd.Permits a)
    (heff : Effect v a.requeues es' v')
    (hrep : ∀ c kind, Event.consumer c kind ∈ es' → a.Reports c kind) :
    Tracked owner k cmd v' (es ++ es') := by
  cases heff with
  | quiet hes => exact h.quiet hes fun _ => rfl
  | published q next count hnext => exact h.quiet (by simp) fun _ => rfl
  | settled c seat take hc hin => exact h.quiet (by simp) (isSome_update hc)
  | retried q S hS => exact h.quiet (by simp) fun _ => rfl
  | started c q hc =>
    exact h.report (fun _ => rfl) rfl (.inl ⟨ha.starts (hrep c .started (by simp)), rfl⟩) rfl
  | cancelled c seat hc hin =>
    exact h.report (fun _ => rfl) rfl (.inr ⟨ha.cancels (hrep c .cancelled (by simp)), rfl⟩) rfl
  | delivered c seat S batch hc hnodup havail hbatch =>
    obtain ⟨rfl, -, -⟩ := hbatch
    have hseat : ∀ j, ((v.deliver batch.consumerId seat S).seat j).isSome = (v.seat j).isSome :=
      isSome_update hc
    constructor
    case live =>
      simp only [foldl_append, foldl_cons, foldl_nil, trackOwner]
      exact fun j => (h.live j).trans (hseat j).symm
    case changes =>
      simp only [foldl_append, foldl_cons, foldl_nil, trackOwner]
      exact h.changes
    case owners =>
      simp only [foldl_append, foldl_cons, foldl_nil, trackOwner,
        eventDeliveries_append]
      refine rel_append h.owners (.cons ?_ .nil)
      -- a consumer that is delivered to is live, so it has an owner
      have hlive := h.live batch.consumerId
      rw [hc, isSome_some, isSome_iff_exists] at hlive
      obtain ⟨j, hj⟩ := hlive
      refine ⟨j, hj, ?_⟩
      rcases h.changes batch.consumerId with heq | ⟨hin, heq⟩ | ⟨-, heq⟩
      · exact .inl (heq ▸ hj)
      · rw [heq] at hj
        exact .inr ⟨hin, (some.inj hj).symm⟩
      · rw [heq] at hj
        cases hj

/-! ## Owners and live consumers -/

/-- The shard is in order, and exactly its consumers have an owner. -/
structure Ledger (s : System σ) : Prop where
  sound : Sound s.shard
  live : ∀ c, (s.owner c).isSome = (s.shard.view.seat c).isSome

section

variable {s : System σ}

theorem ledger_new (h : broker.broker.shard = .new shardId durable) :
    Ledger (System.new broker) := by
  have hs : (System.new broker).shard = .new shardId durable := h
  refine ⟨hs ▸ sound_new shardId durable, fun c => ?_⟩
  rw [hs]
  rfl

/-- The actions of a command, tracked for connection `k`. -/
theorem Ledger.tracked (h : Ledger s) (k : Nat) (cmd : BrokerCommandBatch)
    {shard : InMemoryShardExecutor σ} (hreach : Reaches cmd.Permits s.shard shard) :
    ∃ es, shard.sink = s.shard.sink ++ es ∧ Tracked s.owner k cmd shard.view es :=
  Reaches.events (P := Tracked s.owner k cmd) h.sound.coherent hreach
    ⟨h.live, fun _ => .inl rfl, .nil⟩ fun _ _ _ _ _ ha hP heff hrep => hP.step ha heff hrep

variable (store)

/-- What an execute step records. -/
theorem Ledger.executed (h : Ledger s) (k : Nat) (cmd : BrokerCommandBatch) :
    ∃ es, Tracked s.owner k cmd (s.execute store k cmd).shard.view es ∧
      (s.service.execute store cmd).2.deliveries = eventDeliveries es ∧
      (s.execute store k cmd).owner = (es.foldl (trackOwner k) (s.owner, [])).1 ∧
      (s.execute store k cmd).waiting = s.waiting ++ [⟨k, (s.service.execute store cmd).2,
        (es.foldl (trackOwner k) (s.owner, [])).2⟩] := by
  obtain ⟨hreach, es, hsink, hout⟩ := s.service.performs_execute store cmd
  obtain ⟨es', hsink', htracked⟩ := h.tracked k cmd hreach
  obtain rfl : es' = es := append_cancel_left (hsink'.symm.trans hsink)
  have hes : (s.service.execute store cmd).1.broker.broker.shard.sink.drop
      s.service.broker.broker.shard.sink.length = es' := by
    rw [show (s.service.execute store cmd).1.broker.broker.shard.sink =
      s.service.broker.broker.shard.sink ++ es' from hsink, drop_left]
  refine ⟨es', htracked, hout, ?_, ?_⟩
  · simp only [System.execute, hes]
  · simp only [System.execute, hes]

theorem Ledger.execute (h : Ledger s) (k : Nat) (cmd : BrokerCommandBatch) :
    Ledger (s.execute store k cmd) := by
  obtain ⟨es, htracked, -, howner, -⟩ := h.executed store k cmd
  refine ⟨h.sound.reaches (s.service.performs_execute store cmd).1, ?_⟩
  rw [howner]
  exact htracked.live

/-- A control command starts and cancels nobody. -/
theorem Ledger.control (h : Ledger s) (cmd : AmqpControlCommand) :
    Ledger (s.step store (.control cmd)) := by
  have hreach := reaches_control store s.service.broker cmd
  refine ⟨h.sound.reaches hreach, fun c => ?_⟩
  -- tracked like a command that names no consumer
  obtain ⟨es, -, htracked⟩ := h.tracked 0 (.ingress (.resolveRoute []))
    (hreach.mono fun a ha => .inl ha)
  have hlive := htracked.live c
  rcases htracked.changes c with heq | ⟨hin, -⟩ | ⟨hin, -⟩
  · rw [heq] at hlive
    exact hlive
  · cases hin
  · cases hin

/-- **What a step does** to the shard, the owners and the outboxes. -/
theorem System.step_cases (s : System σ) (a : Step) :
    (∃ k cmd, a = .execute k ∧ ⟨k, [], cmd⟩ ∈ s.calls ∧
        s.step store a = s.execute store k cmd) ∨
      (∃ cmd, a = .control cmd) ∨
      ((s.step store a).shard = s.shard ∧ (s.step store a).owner = s.owner ∧
        ∀ k, ∀ o ∈ (s.step store a).service.outboxes k,
          o ∈ s.service.outboxes k ∨ o.errors = []) := by
  have hsame : ∀ t : System σ, t.shard = s.shard → t.owner = s.owner →
      t.service.outboxes = s.service.outboxes → t.shard = s.shard ∧ t.owner = s.owner ∧
        ∀ k, ∀ o ∈ t.service.outboxes k, o ∈ s.service.outboxes k ∨ o.errors = [] :=
    fun t hshard howner hboxes => ⟨hshard, howner, fun k o ho => .inl (hboxes ▸ ho)⟩
  cases a with
  | call k cmd =>
    refine .inr (.inr ?_)
    simp only [step]
    split <;> exact hsame _ rfl rfl rfl
  | track k =>
    refine .inr (.inr ?_)
    simp only [step]
    split
    · next j u us cmd _ => cases u <;> exact hsame _ rfl rfl rfl
    · exact hsame _ rfl rfl rfl
  | execute k =>
    simp only [step]
    split
    · next j cmd hfind =>
      obtain rfl : j = k := by simpa using find?_some hfind
      exact .inl ⟨j, cmd, rfl, mem_of_find?_eq_some hfind, rfl⟩
    · exact .inr (.inr (hsame _ rfl rfl rfl))
  | route k =>
    refine .inr (.inr ?_)
    simp only [step]
    split
    · next e _ =>
      simp only [route, routeOutput_eq]
      refine ⟨rfl, trivial, fun j o ho => ?_⟩
      simp only [outboxAfter] at ho
      split at ho
      · exact .inl ho
      · rcases mem_append.mp ho with ho | ho
        · exact .inl ho
        · rw [mem_singleton.mp ho]
          exact .inr rfl
    · exact hsame _ rfl rfl rfl
  | drain k =>
    refine .inr (.inr ?_)
    simp only [step]
    split
    · refine ⟨rfl, rfl, fun j o ho => .inl ?_⟩
      by_cases hj : j = k
      · simp [drainConnectionOutputs, hj] at ho
      · simpa [drainConnectionOutputs, hj] using ho
    · exact hsame _ rfl rfl rfl
  | control cmd => exact .inr (.inl ⟨cmd, rfl⟩)

variable {store}

/-- **Every step keeps the ledger.** -/
theorem Ledger.step (store : ShardStorage σ) (h : Ledger s) (a : Step) :
    Ledger (s.step store a) := by
  rcases s.step_cases store a with ⟨k, cmd, rfl, -, heq⟩ | ⟨cmd, rfl⟩ | ⟨hshard, howner, -⟩
  · rw [heq]
    exact h.execute store k cmd
  · exact h.control store cmd
  · exact ⟨hshard ▸ h.sound, by rw [hshard, howner]; exact h.live⟩

end

/-! ## The invariant -/

/-- A call under way in a system that respects owners. -/
structure CallOk (s : System σ) (call : Call) : Prop where
  updates : ∀ u ∈ call.updates, u ∈ call.cmd.updates call.source
  owner : ∀ c ∈ call.cmd.names, s.owner c = none ∨ s.owner c = some call.source
  /-- a consumer to be started is registered, or will be before the command is executed -/
  registered : ∀ c ∈ call.cmd.starts,
    .register c call.source ∈ call.updates ∨ s.service.registry c = some call.source
  /-- what waits for such a consumer belongs to this connection -/
  started : ∀ c ∈ call.cmd.starts, ∀ e ∈ s.waiting, ∀ d ∈ e.output.deliveries, d.consumerId = c →
    s.service.routeTarget e.source d = call.source
  cancelled : ∀ c ∈ call.cmd.cancels, ∀ e ∈ s.waiting, toConsumer c e.output.deliveries = []
  others : ∀ call' ∈ s.calls, call'.source ≠ call.source → ∀ c ∈ call.cmd.names,
    c ∉ call'.cmd.names

/-- **The registry and the owners agree**, except for consumers whose own
connection is about to cancel them. -/
structure OwnersOk (s : System σ) : Prop where
  ledger : Ledger s
  calls : ∀ call ∈ s.calls, CallOk s call
  unique : ∀ call ∈ s.calls, ∀ call' ∈ s.calls, call.source = call'.source → call = call'
  registry : ∀ c k, s.owner c = some k → s.service.registry c = some k ∨
    s.service.registry c = none ∧ ∃ call ∈ s.calls, call.source = k ∧ c ∈ call.cmd.cancels
  waiting : ∀ e ∈ s.waiting,
    e.owners = e.output.deliveries.map fun d => some (s.service.routeTarget e.source d)

theorem ownersOk_new (h : broker.broker.shard = .new shardId durable) : OwnersOk (new broker) := by
  exact ⟨ledger_new h, fun _ h => (nomatch h), fun _ h => (nomatch h), fun _ _ h => (nomatch h),
    fun _ h => (nomatch h)⟩

/-- Routing an output of such a system reaches the owners. -/
theorem OwnersOk.reaches {s : System σ} (h : OwnersOk s) {e : Executed} (he : e ∈ s.waiting) :
    ReachesOwners s e := by
  have howned : ∀ k, e.ownedBy k = s.service.routedTo e.source k e.output.deliveries := by
    intro k
    simp only [Executed.ownedBy, h.waiting e he, zip_map_right, routedTo]
    induction e.output.deliveries with
    | nil => rfl
    | cons d ds ih =>
      by_cases hd : s.service.routeTarget e.source d = k <;> simp [hd] <;> simpa using ih
  refine ⟨⟨by rw [h.waiting e he, length_map], ?_⟩, ?_, fun k hk => ?_⟩
  · rw [h.waiting e he]
    simp
  · rw [howned, routeOutput_eq]
  · rw [howned, routeOutput_eq, deliveriesOf_outboxAfter, if_neg hk]

/-! ## Steps -/

variable {s : System σ} {store : ShardStorage σ}

theorem CallOk.congr {call : Call} (h : CallOk s call) (howner : s'.owner = s.owner)
    (hregistry : s'.service.registry = s.service.registry)
    (hwaiting : ∀ e ∈ s'.waiting, e ∈ s.waiting) (hcalls : ∀ call ∈ s'.calls, call ∈ s.calls) :
    CallOk s' call where
  updates := h.updates
  owner := by rw [howner]; exact h.owner
  registered := by rw [hregistry]; exact h.registered
  started := by
    intro c hc e he d hd hdc
    have := h.started c hc e (hwaiting e he) d hd hdc
    simpa only [routeTarget, hregistry] using this
  cancelled := fun c hc e he => h.cancelled c hc e (hwaiting e he)
  others := fun call' hcall' => h.others call' (hcalls call' hcall')

/-- A new call. -/
theorem OwnersOk.call (h : OwnersOk s) (hcond : RespectsOwners s (.call k cmd)) :
    OwnersOk (s.step store (.call k cmd)) := by
  simp only [step]
  split
  · next hidle =>
    refine ⟨⟨h.ledger.sound, h.ledger.live⟩, fun call hcall => ?_,
      fun call hcall call' hcall' heq => ?_, fun c j hj => ?_, h.waiting⟩
    · rcases mem_append.mp hcall with hcall | hcall
      · have hok := h.calls call hcall
        refine { hok with others := fun call' hcall' hne c hc => ?_ }
        rcases mem_append.mp hcall' with hcall' | hcall'
        · exact hok.others call' hcall' hne c hc
        · obtain rfl := mem_singleton.mp hcall'
          exact fun hin => (hcond c hin).2.1 call hcall hc
      · obtain rfl := mem_singleton.mp hcall
        have hnone : ∀ c ∈ cmd.names, ∀ e ∈ s.waiting, toConsumer c e.output.deliveries = [] :=
          fun c hc => (hcond c hc).2.2
        constructor
        case updates => exact fun u hu => hu
        case owner => exact fun c hc => (hcond c hc).1
        case registered =>
          intro c hc
          refine .inl ?_
          obtain ⟨items, rfl⟩ := of_mem_starts hc
          obtain ⟨item, hitem, rfl⟩ := mem_map.mp hc
          exact mem_map.mpr ⟨item, hitem, rfl⟩
        case started =>
          intro c hc e he d hd hdc
          have := hnone c (mem_append_left _ hc) e he
          exact absurd (filter_eq_nil_iff.mp this d hd) (by simp [hdc])
        case cancelled => exact fun c hc => hnone c (mem_append_right _ hc)
        case others =>
          intro call' hcall' hne c hc
          rcases mem_append.mp hcall' with hcall' | hcall'
          · exact (hcond c hc).2.1 call' hcall'
          · obtain rfl := mem_singleton.mp hcall'
            exact absurd rfl hne
    · rcases mem_append.mp hcall with hcall | hcall <;>
        rcases mem_append.mp hcall' with hcall' | hcall'
      · exact h.unique call hcall call' hcall' heq
      · exact absurd (heq.trans (by rw [mem_singleton.mp hcall'])) (hidle.1 call hcall)
      · exact absurd (heq.symm.trans (by rw [mem_singleton.mp hcall])) (hidle.1 call' hcall')
      · rw [mem_singleton.mp hcall, mem_singleton.mp hcall']
    · rcases h.registry c j hj with hreg | ⟨hreg, call, hcall, hsource, hc⟩
      · exact .inl hreg
      · exact .inr ⟨hreg, call, mem_append_left _ hcall, hsource, hc⟩
  · exact h

/-- One registry update of a call, for one of its consumers. -/
theorem OwnersOk.update (h : OwnersOk s) {u : RegistryUpdate} {us : List RegistryUpdate}
    (hcall : ⟨k, u :: us, cmd⟩ ∈ s.calls)
    (ho : o = some k ∧ c ∈ cmd.starts ∨ o = none ∧ c ∈ cmd.cancels)
    (hu : ∀ j, u = .register j k → j = c ∧ o = some k) :
    OwnersOk { s with
      service := { s.service with registry := Function.update s.service.registry c o }
      calls := s.calls.filter (·.source ≠ k) ++ [⟨k, us, cmd⟩] } := by
  have hok := h.calls _ hcall
  have hname : c ∈ cmd.names := by
    rcases ho with ho | ho
    · exact mem_append_left _ ho.2
    · exact mem_append_right _ ho.2
  -- nothing that waits changes its way
  have htarget : ∀ e ∈ s.waiting, ∀ d ∈ e.output.deliveries,
      (Function.update s.service.registry c o d.consumerId).getD e.source =
        s.service.routeTarget e.source d := by
    intro e he d hd
    by_cases hdc : d.consumerId = c
    · rcases ho with ⟨rfl, hstart⟩ | ⟨rfl, hcancel⟩
      · rw [hok.started c hstart e he d hd hdc, hdc]
        simp
      · exact absurd (filter_eq_nil_iff.mp (hok.cancelled c hcancel e he) d hd) (by simp [hdc])
    · simp [hdc, routeTarget]
  -- the other calls name other consumers
  have hother : ∀ call ∈ s.calls, call.source ≠ k → ∀ c' ∈ call.cmd.names, c' ≠ c := by
    rintro call hin hne c' hc' rfl
    exact hok.others call hin hne c' hname hc'
  have hmem : ∀ call ∈ s.calls.filter (·.source ≠ k) ++ [⟨k, us, cmd⟩],
      (call ∈ s.calls ∧ call.source ≠ k) ∨ call = ⟨k, us, cmd⟩ := by
    intro call hin
    simpa using hin
  refine ⟨⟨h.ledger.sound, h.ledger.live⟩, fun call hin => ?_, fun call hin call' hin' heq => ?_,
    fun c' j hj => ?_, fun e he => ?_⟩
  · rcases hmem call hin with ⟨hin, hne⟩ | rfl
    · have hold := h.calls call hin
      constructor
      case updates => exact hold.updates
      case owner => exact hold.owner
      case registered =>
        intro c' hc'
        have hne' := hother call hin hne c' (mem_append_left _ hc')
        simpa [hne'] using hold.registered c' hc'
      case started =>
        intro c' hc' e he d hd hdc
        exact (htarget e he d hd).trans (hold.started c' hc' e he d hd hdc)
      case cancelled => exact hold.cancelled
      case others =>
        intro call' hin' hne' c' hc'
        rcases hmem call' hin' with ⟨hin', -⟩ | rfl
        · exact hold.others call' hin' hne' c' hc'
        · exact hold.others _ hcall hne' c' hc'
    · constructor
      case updates => exact fun v hv => hok.updates v (mem_cons_of_mem _ hv)
      case owner => exact hok.owner
      case registered =>
        intro c' hc'
        by_cases hcc : c' = c
        · rcases ho with ⟨rfl, -⟩ | ⟨-, hcancel⟩
          · exact .inr (by simp [hcc])
          · -- a command that cancels starts nothing
            obtain ⟨items, rfl⟩ := of_mem_starts hc'
            cases hcancel
        · rcases hok.registered c' hc' with hin | hreg
          · rcases mem_cons.mp hin with heq | hin
            · exact absurd (hu c' heq.symm).1 hcc
            · exact .inl hin
          · exact .inr (by simpa [hcc] using hreg)
      case started =>
        intro c' hc' e he d hd hdc
        exact (htarget e he d hd).trans (hok.started c' hc' e he d hd hdc)
      case cancelled => exact hok.cancelled
      case others =>
        intro call' hin' hne' c' hc'
        rcases hmem call' hin' with ⟨hin', -⟩ | rfl
        · exact hok.others call' hin' hne' c' hc'
        · exact absurd rfl hne'
  · rcases hmem call hin with ⟨hin, hne⟩ | rfl <;> rcases hmem call' hin' with ⟨hin', hne'⟩ | rfl
    · exact h.unique call hin call' hin' heq
    · exact absurd heq hne
    · exact absurd heq.symm hne'
    · rfl
  · by_cases hcc : c' = c
    · subst hcc
      -- its owner is the connection that makes the update
      obtain rfl : j = k := by
        rcases hok.owner c' hname with hnone | hsome
        · exact absurd (hnone.symm.trans hj) (by simp)
        · exact some.inj (hj.symm.trans hsome)
      rcases ho with ⟨rfl, -⟩ | ⟨rfl, hcancel⟩
      · exact .inl (by simp)
      · exact .inr ⟨by simp, ⟨j, us, cmd⟩, by simp, rfl, hcancel⟩
    · rcases h.registry c' j hj with hreg | ⟨hreg, call, hin, hsource, hc⟩
      · exact .inl (by simpa [hcc] using hreg)
      · refine .inr ⟨by simpa [hcc] using hreg, ?_⟩
        by_cases hne : call.source = k
        · obtain rfl := h.unique call hin _ hcall hne
          exact ⟨⟨k, us, cmd⟩, by simp, hsource, hc⟩
        · exact ⟨call, by simp [hin, hne], hsource, hc⟩
  · rw [h.waiting e he]
    exact map_congr_left fun d hd => congrArg some (htarget e he d hd).symm

theorem OwnersOk.track (h : OwnersOk s) (k : Nat) : OwnersOk (s.step store (.track k)) := by
  simp only [step]
  split
  · next j u us cmd hfind =>
    obtain rfl : j = k := by simpa using find?_some hfind
    have hcall := mem_of_find?_eq_some hfind
    have hu : u ∈ cmd.updates j := (h.calls _ hcall).updates u mem_cons_self
    obtain ⟨items, rfl⟩ | ⟨items, rfl⟩ := BrokerCommandBatch.of_mem_updates hu
    · obtain ⟨item, hitem, rfl⟩ := mem_map.mp hu
      exact h.update hcall (.inl ⟨rfl, mem_map.mpr ⟨item, hitem, rfl⟩⟩)
        fun i hi => by cases hi; exact ⟨rfl, rfl⟩
    · obtain ⟨item, hitem, rfl⟩ := mem_map.mp hu
      exact h.update hcall (.inr ⟨rfl, mem_map.mpr ⟨item, hitem, rfl⟩⟩)
        fun i hi => by cases hi
  · exact h

/-- A command of connection `k` is executed. -/
theorem OwnersOk.execute (h : OwnersOk s) (hcall : ⟨k, [], cmd⟩ ∈ s.calls)
    (hcond : RespectsOwners s (.execute k)) : OwnersOk (s.execute store k cmd) := by
  have hok := h.calls _ hcall
  obtain ⟨es, htracked, hout, howner, hwaiting⟩ := h.ledger.executed store k cmd
  have hlive : ∀ c, ((s.execute store k cmd).owner c).isSome =
      ((s.execute store k cmd).shard.view.seat c).isSome :=
    (h.ledger.execute store k cmd).live
  -- the owner of a delivery is where the registry sends it
  have hsent : ∀ d j, (s.owner d.consumerId = some j ∨ d.consumerId ∈ cmd.starts ∧ j = k) →
      s.service.routeTarget k d = j := by
    rintro d j (hj | ⟨hin, rfl⟩)
    · rcases h.registry _ j hj with hreg | ⟨hreg, call, hin, hsource, hc⟩
      · simp [routeTarget, hreg]
      · by_cases hjk : j = k
        · simp [routeTarget, hreg, hjk]
        · have hnone := hcond call hin (by rwa [hsource]) _ hc
          exact absurd (hnone.symm.trans hj) (by simp)
    · rcases hok.registered _ hin with hu | hreg
      · cases hu
      · simp [routeTarget, hreg]
  have hnew : ∀ d ∈ (s.service.execute store cmd).2.deliveries, ∃ j,
      (s.owner d.consumerId = some j ∨ d.consumerId ∈ cmd.starts ∧ j = k) := by
    intro d hd
    rw [hout] at hd
    obtain ⟨i, hi, rfl⟩ := mem_iff_getElem.mp hd
    have hlen := htracked.owners.length_eq
    obtain ⟨j, -, hj⟩ := (forall₂_iff_get.mp htracked.owners).2 i hi (hlen ▸ hi)
    exact ⟨j, hj⟩
  refine ⟨h.ledger.execute store k cmd, fun call hin => ?_, fun call hin call' hin' => ?_,
    fun c j hj => ?_, fun e he => ?_⟩
  · -- the other calls name other consumers
    obtain ⟨hin, hne⟩ : call ∈ s.calls ∧ call.source ≠ k := by
      simpa [System.execute] using hin
    have hold := h.calls call hin
    have hapart : ∀ c ∈ call.cmd.names, c ∉ cmd.names :=
      fun c hc => hold.others _ hcall (Ne.symm hne) c hc
    constructor
    case updates => exact hold.updates
    case owner =>
      intro c hc
      rw [howner]
      rcases htracked.changes c with heq | ⟨hin', -⟩ | ⟨hin', -⟩
      · rw [heq]
        exact hold.owner c hc
      · exact absurd (mem_append_left _ hin') (hapart c hc)
      · exact absurd (mem_append_right _ hin') (hapart c hc)
    case registered => exact hold.registered
    case started =>
      intro c hc e he d hd hdc
      rw [hwaiting] at he
      rcases mem_append.mp he with he | he
      · exact hold.started c hc e he d hd hdc
      · obtain rfl := mem_singleton.mp he
        obtain ⟨j, hj⟩ := hnew d hd
        have htarget : s.service.routeTarget k d = j := hsent d j hj
        refine htarget.trans ?_
        have hcn := mem_append_left call.cmd.cancels hc
        rcases hj with hj | ⟨hin', -⟩
        · rw [hdc] at hj
          rcases hold.owner c hcn with hnone | hsome
          · exact absurd (hnone.symm.trans hj) (by simp)
          · exact some.inj (hj.symm.trans hsome)
        · rw [hdc] at hin'
          exact absurd (mem_append_left _ hin') (hapart c hcn)
    case cancelled =>
      intro c hc e he
      rw [hwaiting] at he
      rcases mem_append.mp he with he | he
      · exact hold.cancelled c hc e he
      · obtain rfl := mem_singleton.mp he
        refine filter_eq_nil_iff.mpr fun d hd => ?_
        simp only [decide_eq_true_eq]
        rintro rfl
        -- nobody owns the consumer, so nothing was delivered to it
        obtain ⟨j, hj | ⟨hin', -⟩⟩ := hnew d hd
        · exact absurd ((hcond call hin hne _ hc).symm.trans hj) (by simp)
        · exact hapart _ (mem_append_right _ hc) (mem_append_left _ hin')
    case others =>
      intro call' hin'
      exact hold.others call' (mem_of_mem_filter hin')
  · exact h.unique call (mem_of_mem_filter hin) call' (mem_of_mem_filter hin')
  · have hreg : (s.execute store k cmd).service.registry = s.service.registry := rfl
    rw [hreg]
    rcases htracked.changes c with heq | ⟨hin, heq⟩ | ⟨-, heq⟩
    · rw [howner, heq] at hj
      rcases h.registry c j hj with hreg | ⟨hreg, call, hin, hsource, hc⟩
      · exact .inl hreg
      · refine .inr ⟨hreg, call, ?_, hsource, hc⟩
        refine mem_filter.mpr ⟨hin, ?_⟩
        -- if it is the executed command that cancels the consumer, it has no owner now
        simp only [decide_eq_true_eq]
        intro hk
        obtain rfl := h.unique call hin _ hcall hk
        have hgone : (s.execute store k cmd).shard.consumers c = none := by
          obtain ⟨items, rfl⟩ := of_mem_cancels hc
          exact execute_cancel_absent store h.ledger.sound.coherent hc
        have hnone := hlive c
        rw [howner, heq, hj] at hnone
        simp [view, hgone] at hnone
    · rw [howner, heq] at hj
      obtain rfl := some.inj hj
      rcases hok.registered c hin with hu | hreg
      · cases hu
      · exact .inl hreg
    · rw [howner, heq] at hj
      cases hj
  · rw [hwaiting] at he
    rcases mem_append.mp he with he | he
    · exact h.waiting e he
    · obtain rfl := mem_singleton.mp he
      have hmap : ∀ (ds : List DeliveryEventBatch) (os : List (Option Nat)),
          List.Forall₂ (fun d o => ∃ j, o = some j ∧
            (s.owner d.consumerId = some j ∨ d.consumerId ∈ cmd.starts ∧ j = k)) ds os →
          os = ds.map fun d => some (s.service.routeTarget k d) := by
        intro ds os hall
        induction hall with
        | nil => rfl
        | cons hd _ ih =>
          obtain ⟨j, rfl, hj⟩ := hd
          rw [map_cons, ← ih, hsent _ j hj]
      exact hmap _ _ (hout ▸ htracked.owners)

/-- A step that leaves the shard, the owners and the registry as they are. -/
theorem OwnersOk.congr (h : OwnersOk s) (hshard : s'.shard = s.shard)
    (howner : s'.owner = s.owner) (hregistry : s'.service.registry = s.service.registry)
    (hcalls : s'.calls = s.calls) (hwaiting : ∀ e ∈ s'.waiting, e ∈ s.waiting) : OwnersOk s' := by
  constructor
  case ledger => exact ⟨hshard ▸ h.ledger.sound, by rw [hshard, howner]; exact h.ledger.live⟩
  case calls =>
    rw [hcalls]
    exact fun call hcall =>
      (h.calls call hcall).congr howner hregistry hwaiting fun _ hin => hcalls ▸ hin
  case unique => rw [hcalls]; exact h.unique
  case registry => rw [howner, hregistry, hcalls]; exact h.registry
  case waiting =>
    intro e he
    have := h.waiting e (hwaiting e he)
    simpa only [routeTarget, hregistry] using this

/-- **Every step that respects owners keeps them.** -/
theorem OwnersOk.step (h : OwnersOk s) {a : Step} (hcond : RespectsOwners s a) :
    OwnersOk (s.step store a) := by
  cases a with
  | call k cmd => exact h.call hcond
  | track k => exact h.track k
  | execute k =>
    simp only [System.step]
    split
    · next j cmd hcall =>
      obtain rfl : j = k := by simpa using find?_some hcall
      exact h.execute (mem_of_find?_eq_some hcall) hcond
    · exact h
  | route k =>
    simp only [System.step]
    split
    · next e he =>
      simp only [System.route, routeOutput_eq]
      exact h.congr rfl rfl rfl rfl fun _ hin => mem_of_mem_eraseP hin
    · exact h
  | drain k =>
    simp only [System.step]
    split
    · exact h.congr rfl rfl rfl rfl fun _ hin => hin
    · exact h
  | control cmd =>
    refine ⟨h.ledger.control store cmd, fun call hcall => ?_, h.unique, h.registry, h.waiting⟩
    exact (h.calls call hcall).congr rfl rfl (fun _ he => he) fun _ hin => hin

/-- **Deliveries reach the owner of their consumer.** In every run of
connections that respect owners, each output that waits goes, when it is
routed, delivery by delivery to the connection that owns the consumer. -/
theorem deliveries_reach_owners (store : ShardStorage σ) {routing : RoutingBootstrapConfig}
    {durable : Option σ} {broker : SingleNodeBroker σ}
    (hnew : SingleNodeBroker.new routing durable = .ok broker) {steps : List Step}
    (howners : System.Meets store RespectsOwners (System.new broker) steps) :
    ∀ e ∈ ((System.new broker).run store steps).waiting,
      ReachesOwners ((System.new broker).run store steps) e := by
  have hinv := System.run_invariant (I := OwnersOk) (fun s a h hcond => h.step hcond)
    (ownersOk_new (SingleNodeBroker.new_shard hnew)) howners
  exact fun e he => hinv.reaches he

end

/-- Connection 2 publishes while connection 1 consumes. -/
theorem deliveries_reach_owners_published :
    let s := (System.new .dev).run .null (consumeNine ++ [.call 2 publishOne, .execute 2])
    s.waiting.map Executed.owners = [[some 1]] ∧ ∀ e ∈ s.waiting, ReachesOwners s e :=
  ⟨by decide +kernel,
    deliveries_reach_owners .null SingleNodeBroker.new_dev (by decide +kernel)⟩

/-- Connection 2 asks for consumer 9 as well. The executor refuses, but
the registry has the consumer at connection 2 from then on, and the next
message of connection 3 for the consumer of connection 1 goes there. -/
theorem refused_consume_takes_deliveries :
    let steps := consumeNine ++ nativeCommand 2 (.shard (.consume [⟨9, 1, 1, 10⟩])) ++
      [.call 3 publishOne, .execute 3]
    let s := (System.new .dev).run .null steps
    s.owner 9 = some 1 ∧ s.service.registry 9 = some 2 ∧
      s.waiting.map Executed.owners = [[some 1]] ∧ ∀ e ∈ s.waiting, ¬ ReachesOwners s e := by
  intro steps s
  have hsource : ∀ e ∈ s.waiting, 1 ≠ e.source := by decide +kernel
  have hlost : ∀ e ∈ s.waiting,
      (deliveriesOf ((s.service.routeOutput e.source e.output).1.outboxes 1)).length ≠
        (deliveriesOf (s.service.outboxes 1) ++ e.ownedBy 1).length := by decide +kernel
  refine ⟨by decide +kernel, by decide +kernel, by decide +kernel, fun e he h => ?_⟩
  exact hlost e he (congrArg List.length (h.outboxes 1 (hsource e he)))

end Aurum.Service
