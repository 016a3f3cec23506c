import Aurum.Service.Conservation
import Aurum.Service.Runs

/-!
# Service — the order a consumer's deliveries are written in

The broker numbers the deliveries of a consumer 1, 2, 3, …, but between
the broker and the wire they pass through outputs that wait to be routed
and through outboxes. `consumer_tags_rise` says when they keep their
order: outputs that deliver to one consumer are routed in the order they
were executed, and a connection does not answer a consumer of its own
while older deliveries to it sit in the connection's outbox.
-/

namespace Aurum.Service

open Aurum.Protocol Aurum.Broker InMemoryShardExecutor List Function Service.System BrokerService
open Executed Announcement

/-! ## Definitions -/

/-- What is written to a connection, in order: its immediate outputs and
the outboxes it drained. -/
def wire (connectionId : Nat) (trace : List Observation) : List DeliveryEventBatch :=
  trace.flatMap fun
    | .executed _ _ => []
    | .routed c _ immediate => if c = connectionId then immediate.deliveries else []
    | .drained c output => if c = connectionId then output.deliveries else []

/-- The deliveries to one consumer. -/
def toConsumer (c : Nat) (ds : List DeliveryEventBatch) : List DeliveryEventBatch :=
  ds.filter fun d => d.consumerId = c

/-- The tags of deliveries, in order. -/
def tagsOf (ds : List DeliveryEventBatch) : List Nat := ds.flatMap fun d => d.entries.map Prod.fst

/-- The tags written for consumer `c` go up; only where `c` was started
again they may begin anew. `es` are all events so far. -/
def TagsRise (c : Nat) (es : List Event) (ds : List DeliveryEventBatch) : Prop :=
  ∃ parts : List (List Nat), tagsOf (toConsumer c ds) = parts.flatten ∧
    parts.length = (incarnations c es).length ∧ ∀ part ∈ parts, part.Pairwise (· < ·)

/-- Only connection `k` starts consumer `c`. -/
def StartsOnlyAt (c k : Nat) : Step → Prop
  | .call k' (.shard (.consume items)) => (∃ item ∈ items, item.consumerId = c) → k' = k
  | _ => True

/-- A connection routes its output only if no output executed earlier and
still waiting, and nothing in its own outbox, is for a consumer it
delivers to. -/
def RoutesInOrder {σ : Type} (s : System σ) : Step → Prop
  | .route k => ∀ e ∈ s.waiting, e.source = k → ∀ d ∈ e.output.deliveries,
      (∀ older ∈ s.waiting.takeWhile (·.source ≠ k),
        toConsumer d.consumerId older.output.deliveries = []) ∧
      toConsumer d.consumerId (deliveriesOf (s.service.outboxes k)) = []
  | _ => True

instance (c k : Nat) : ∀ a, Decidable (StartsOnlyAt c k a)
  | .call _ (.shard (.consume _)) => inferInstanceAs (Decidable (_ → _))
  | .call _ (.shard (.declare _)) | .call _ (.shard (.publish _)) | .call _ (.shard (.credit _))
  | .call _ (.shard (.ack _ _)) | .call _ (.shard (.nack _ _)) | .call _ (.shard (.reject _ _))
  | .call _ (.shard (.cancel _)) | .call _ (.ingress _) | .track _ | .execute _ | .route _
  | .drain _ | .control _ => .isTrue trivial

instance {σ : Type} (s : System σ) : ∀ a, Decidable (RoutesInOrder s a)
  | .route _ => inferInstanceAs (Decidable (∀ e ∈ _, _))
  | .call _ _ | .track _ | .execute _ | .drain _ | .control _ => .isTrue trivial

/-! ## Tags of the log -/

theorem toConsumer_append (c : Nat) (ds ds' : List DeliveryEventBatch) :
    toConsumer c (ds ++ ds') = toConsumer c ds ++ toConsumer c ds' := filter_append ..

theorem tagsOf_append (ds ds' : List DeliveryEventBatch) :
    tagsOf (ds ++ ds') = tagsOf ds ++ tagsOf ds' := flatMap_append

theorem wire_append (k : Nat) (t t' : List Observation) :
    wire k (t ++ t') = wire k t ++ wire k t' := flatMap_append

theorem tagsOf_delivery (d : DeliveryEventBatch) :
    tagsOf [d] = (announcements (.delivery d)).map tag := by
  simp [tagsOf, announcements, comp_def]

/-- The deliveries of the log, incarnation by incarnation. -/
theorem tagsOf_log (c : Nat) (es : List Event) : tagsOf (toConsumer c (eventDeliveries es)) =
      ((incarnations c es).reverse.map fun inc => inc.map tag).flatten := by
  induction es using reverseRecOn with
  | nil => rfl
  | append_singleton es e ih =>
    rw [incarnations_append, foldl_cons, foldl_nil, eventDeliveries_append,
      toConsumer_append, tagsOf_append, ih]
    cases e with
    | delivery batch =>
      by_cases hc : batch.consumerId = c
      · have hone : tagsOf (toConsumer c (eventDeliveries [.delivery batch])) =
            (announcements (.delivery batch)).map tag := by
          rw [← tagsOf_delivery]
          simp [eventDeliveries, toConsumer, hc]
        rw [hone]
        simp only [trackIncarnation, if_pos hc]
        -- the delivery belongs to the latest incarnation, the last list
        cases incarnations c es <;> simp
      · simp [trackIncarnation, hc, eventDeliveries, toConsumer, tagsOf]
    | consumer k kind =>
      cases kind <;> simp only [trackIncarnation]
      case started => split <;> simp [eventDeliveries, toConsumer, tagsOf]
      all_goals simp [eventDeliveries, toConsumer, tagsOf]
    | settlement batch => simp [trackIncarnation, eventDeliveries, toConsumer, tagsOf]
    | confirm batch => simp [trackIncarnation, eventDeliveries, toConsumer, tagsOf]
    | error errors => simp [trackIncarnation, eventDeliveries, toConsumer, tagsOf]

/-- A part of a sequence of lists is a sequence of parts. -/
theorem parts_of_sublist {α : Type} {l : List α} {ls : List (List α)} (h : l.Sublist ls.flatten) :
    ∃ parts : List (List α), l = parts.flatten ∧ parts.length = ls.length ∧
      ∀ part ∈ parts, ∃ whole ∈ ls, part.Sublist whole := by
  induction ls generalizing l with
  | nil => exact ⟨[], sublist_nil.mp h, rfl, by simp⟩
  | cons whole ls ih =>
    obtain ⟨part, rest, rfl, hpart, hrest⟩ := sublist_append_iff.mp h
    obtain ⟨parts, rfl, hlen, hparts⟩ := ih hrest
    refine ⟨part :: parts, rfl, by simp [hlen], fun p hp => ?_⟩
    rcases mem_cons.mp hp with rfl | hp
    · exact ⟨whole, mem_cons_self, hpart⟩
    · obtain ⟨w, hw, hsub⟩ := hparts p hp
      exact ⟨w, mem_cons_of_mem _ hw, hsub⟩

/-- Any part of the log's deliveries to a consumer has rising tags. -/
theorem tagsRise_of_sublist {c : Nat} {v : View} {es : List Event} {ds : List DeliveryEventBatch}
    (hlog : Logged v es) (h : (toConsumer c ds).Sublist (toConsumer c (eventDeliveries es))) :
    TagsRise c es ds := by
  have hsub : (tagsOf (toConsumer c ds)).Sublist
      ((incarnations c es).reverse.map fun inc => inc.map tag).flatten := by
    rw [← tagsOf_log]
    exact h.flatMap _
  obtain ⟨parts, heq, hlen, hparts⟩ := parts_of_sublist hsub
  refine ⟨parts, heq, by simpa using hlen, fun part hpart => ?_⟩
  obtain ⟨whole, hwhole, hpartsub⟩ := hparts part hpart
  obtain ⟨inc, hinc, rfl⟩ := mem_map.mp hwhole
  rw [hlog.tags c inc (mem_reverse.mp hinc)] at hpartsub
  exact (pairwise_lt_range' (s := 1) (n := inc.length)).sublist hpartsub

/-! ## Steps -/

section

variable {σ : Type} {c k : Nat}

/-- The deliveries to `c` that a routing sends to `target`. -/
theorem toConsumer_routedTo (s : BrokerService σ) (source target : Nat)
    (ds : List DeliveryEventBatch) :
    toConsumer c (s.routedTo source target ds) =
      if (s.registry c).getD source = target then toConsumer c ds else [] := by
  simp only [toConsumer, routedTo, routeTarget, filter_filter]
  split
  · next h =>
    refine filter_congr fun d _ => ?_
    by_cases hd : d.consumerId = c <;> simp [hd, h]
  · next h =>
    refine filter_eq_nil_iff.mpr fun d _ => ?_
    by_cases hd : d.consumerId = c <;> simp [hd, h]

/-- **The order kept.** Everything for `c` that was written to `k`, sits
in its outbox or waits to be routed is in the order of the log. -/
structure InOrder (c k : Nat) (s : System σ) : Prop where
  sound : Sound s.shard
  registry : ∀ k', s.service.registry c = some k' → k' = k
  calls : ∀ call ∈ s.calls, ∀ j, .register c j ∈ call.updates → j = k
  order : (toConsumer c (wire k s.trace) ++ toConsumer c (deliveriesOf (s.service.outboxes k)) ++
      toConsumer c (deliveriesOf (s.waiting.map output))).Sublist
    (toConsumer c (eventDeliveries s.shard.sink))

theorem inOrder_new {broker : SingleNodeBroker σ} {shardId : Nat} {durable : Option σ}
    (h : broker.broker.shard = .new shardId durable) : InOrder c k (System.new broker) where
  sound := by
    have hs : (System.new broker).shard = .new shardId durable := h
    rw [hs]
    exact sound_new shardId durable
  registry := fun _ h => nomatch h
  calls := fun _ h => nomatch h
  order := by simp [System.new, BrokerService.new, wire, toConsumer, deliveriesOf]

variable {s : System σ} (store : ShardStorage σ)

theorem InOrder.execute (h : InOrder c k s) (k' : Nat)
    (cmd : BrokerCommandBatch) : InOrder c k (s.execute store k' cmd) := by
  obtain ⟨hreach, es, hsink, hout⟩ := s.service.performs_execute store cmd
  constructor
  case sound => exact h.sound.reaches hreach
  case registry => exact h.registry
  case calls => exact fun call hcall => h.calls call (mem_of_mem_filter hcall)
  case order =>
    have hsink' : (s.execute store k' cmd).shard.sink = s.shard.sink ++ es := hsink
    have hwire : wire k (s.execute store k' cmd).trace = wire k s.trace := by
      simp [System.execute, wire]
    have hwait : deliveriesOf ((s.execute store k' cmd).waiting.map output) =
        deliveriesOf (s.waiting.map output) ++ eventDeliveries es := by
      simp [System.execute, deliveriesOf, hout]
    rw [hsink', hwire, hwait, eventDeliveries_append, toConsumer_append, toConsumer_append,
      ← List.append_assoc]
    exact h.order.append_right _

theorem InOrder.route (h : InOrder c k s) {k' : Nat} {e : Executed}
    (he : s.waiting.find? (·.source = k') = some e) (hcond : RoutesInOrder s (.route k')) :
    InOrder c k (s.route e) := by
  obtain ⟨pre, post, hwaiting, hk', herase, hpre⟩ := find?_waiting he
  constructor
  case sound =>
    have hs : (s.route e).shard = s.shard := by
      simp only [System.route, routeOutput_eq]
      rfl
    rw [hs]
    exact h.sound
  case registry => simpa only [System.route, routeOutput_eq] using h.registry
  case calls => exact h.calls
  case order =>
    -- either the output delivers nothing to `c`, or nothing older does
    have hfirst : toConsumer c e.output.deliveries = [] ∨
        toConsumer c (deliveriesOf (pre.map output)) = [] ∧
          toConsumer c (deliveriesOf (s.service.outboxes k')) = [] := by
      rcases hds : toConsumer c e.output.deliveries with _ | ⟨d, ds⟩
      · exact .inl rfl
      · have hd : d ∈ e.output.deliveries ∧ d.consumerId = c := by
          simpa [toConsumer] using (hds ▸ mem_cons_self : d ∈ toConsumer c e.output.deliveries)
        obtain ⟨hold, hbox⟩ := hcond e (by rw [hwaiting]; simp) hk' d hd.1
        rw [hd.2] at hold hbox
        rw [hpre] at hold
        refine .inr ⟨?_, hbox⟩
        simp only [toConsumer, deliveriesOf, filter_flatMap, flatMap_map,
          flatMap_eq_nil_iff]
        exact hold
    -- what of the deliveries to `c` goes to `k`
    have hsent : ∀ target, toConsumer c (s.service.routedTo e.source target e.output.deliveries) =
        if (s.service.registry c).getD k' = target then
          toConsumer c e.output.deliveries else [] := by
      intro target
      rw [toConsumer_routedTo, hk']
    have hwire : toConsumer c (wire k (s.route e).trace) = toConsumer c (wire k s.trace) ++
        if k' = k then
          toConsumer c (s.service.routedTo e.source k e.output.deliveries) else [] := by
      simp only [System.route, routeOutput_eq, wire_append, toConsumer_append, hk']
      by_cases hk : k' = k <;> simp [wire, hk, toConsumer]
    have hbox : toConsumer c (deliveriesOf ((s.route e).service.outboxes k)) =
        toConsumer c (deliveriesOf (s.service.outboxes k)) ++
          if k = k' then [] else
            toConsumer c (s.service.routedTo e.source k e.output.deliveries) := by
      simp only [System.route, routeOutput_eq, deliveriesOf_outboxAfter,
        toConsumer_append, hk']
      split <;> simp [toConsumer]
    have hwait : (s.route e).waiting = pre ++ post := herase
    have hlog : (s.route e).shard.sink = s.shard.sink := by
      simp only [System.route, routeOutput_eq]
      rfl
    have horder := h.order
    rw [hwaiting] at horder
    rw [hlog, hwire, hbox, hwait, hsent]
    refine List.Sublist.trans ?_ horder
    simp only [deliveriesOf, map_append, map_cons, flatMap_append,
      flatMap_cons, toConsumer_append] at hfirst ⊢
    have hpart : (if (s.service.registry c).getD k' = k then toConsumer c e.output.deliveries
        else []).Sublist (toConsumer c e.output.deliveries) := by
      split <;> simp
    rcases hfirst with hnone | ⟨hold, hmine⟩
    · simp [hnone]
    · by_cases hk : k' = k
      · subst hk
        simp only [if_true, hold, hmine, nil_append, List.append_nil, List.append_assoc]
        exact (hpart.append_right _).append_left _
      · rw [if_neg hk, if_neg (Ne.symm hk), hold]
        simp only [nil_append, List.append_nil, List.append_assoc]
        exact ((hpart.append_right _).append_left _).append_left _

theorem InOrder.drain (h : InOrder c k s) (k' : Nat) : InOrder c k (s.step store (.drain k')) := by
  simp only [step]
  split
  · refine ⟨h.sound, h.registry, h.calls, List.Sublist.trans ?_ h.order⟩
    simp only [drainConnectionOutputs, wire_append, toConsumer_append]
    by_cases hk : k' = k
    · -- the outbox moves to the wire
      subst hk
      simp [wire, deliveries_foldl_merge, ShardOutputBatch.empty, deliveriesOf, toConsumer]
    · simp [wire, hk, Ne.symm hk, toConsumer]
  · exact h

theorem InOrder.track (h : InOrder c k s) (k' : Nat) : InOrder c k (s.step store (.track k')) := by
  simp only [step]
  split
  · next j u us cmd hcall =>
    have hmem := mem_of_find?_eq_some hcall
    have hrest : ∀ call ∈ s.calls.filter (·.source ≠ k') ++ [⟨k', us, cmd⟩],
        ∀ i, .register c i ∈ call.updates → i = k := by
      intro call hin i hi
      rcases mem_append.mp hin with hin | hin
      · exact h.calls call (mem_of_mem_filter hin) i hi
      · obtain rfl := mem_singleton.mp hin
        exact h.calls _ hmem i (mem_cons_of_mem _ hi)
    cases u with
    | register c' j =>
      refine ⟨h.sound, fun i hi => ?_, hrest, h.order⟩
      simp only [updateRegistry, update_apply] at hi
      split at hi
      · next hc =>
        cases hi
        exact h.calls _ hmem _ (by rw [hc]; exact mem_cons_self)
      · exact h.registry i hi
    | unregister c' =>
      refine ⟨h.sound, fun i hi => ?_, hrest, h.order⟩
      simp only [updateRegistry, update_apply] at hi
      split at hi
      · cases hi
      · exact h.registry i hi
  · exact h

theorem InOrder.call (h : InOrder c k s) {k' : Nat}
    {cmd : BrokerCommandBatch} (hstart : StartsOnlyAt c k (.call k' cmd)) :
    InOrder c k (s.step store (.call k' cmd)) := by
  simp only [step]
  split
  · refine ⟨h.sound, h.registry, fun call hin i hi => ?_, h.order⟩
    rcases mem_append.mp hin with hin | hin
    · exact h.calls call hin i hi
    · obtain rfl := mem_singleton.mp hin
      -- only a consume command registers
      obtain ⟨items, rfl⟩ | ⟨items, rfl⟩ := BrokerCommandBatch.of_mem_updates hi
      · obtain ⟨item, hitem, heq⟩ := mem_map.mp hi
        cases heq
        exact hstart ⟨item, hitem, rfl⟩
      · simp [BrokerCommandBatch.updates, trackConsumersFromShard] at hi
  · exact h

/-- **Every step in order keeps the order.** -/
theorem InOrder.step (store : ShardStorage σ) (h : InOrder c k s) {a : Step}
    (hcond : RoutesInOrder s a) (hstart : StartsOnlyAt c k a) : InOrder c k (s.step store a) := by
  cases a with
  | call k' cmd => exact h.call store hstart
  | track k' => exact h.track store k'
  | execute k' =>
    simp only [System.step]
    split
    · exact h.execute store k' _
    · exact h
  | route k' =>
    simp only [System.step]
    split
    · next e he => exact h.route he hcond
    · exact h
  | drain k' => exact h.drain store k'
  | control cmd =>
    have hreach := reaches_control store s.service.broker cmd
    obtain ⟨es, hes⟩ := Reaches.sink hreach
    have hsink : (s.step store (.control cmd)).shard.sink = s.shard.sink ++ es := hes
    refine ⟨h.sound.reaches hreach, h.registry, h.calls, h.order.trans ?_⟩
    rw [hsink, eventDeliveries_append, toConsumer_append]
    exact sublist_append_left _ _

/-- **Per-consumer wire order.** In every run of connections whose routing
steps are in order, the tags written for a consumer that only connection
`k` starts go up on the wire of `k`, once per start of the consumer. -/
theorem consumer_tags_rise (store : ShardStorage σ) {routing : RoutingBootstrapConfig}
    {durable : Option σ} {broker : SingleNodeBroker σ}
    (hnew : SingleNodeBroker.new routing durable = .ok broker) {steps : List Step}
    (hstart : ∀ a ∈ steps, StartsOnlyAt c k a)
    (horder : System.Meets store RoutesInOrder (System.new broker) steps) :
    let s := (System.new broker).run store steps
    TagsRise c s.shard.sink (wire k s.trace) := by
  have hinv := System.run_invariant (I := InOrder c k)
    (fun s a h (hcond : RoutesInOrder s a ∧ StartsOnlyAt c k a) => h.step store hcond.1 hcond.2)
    (inOrder_new (SingleNodeBroker.new_shard hnew)) (horder.and hstart)
  refine tagsRise_of_sublist hinv.sound.logged (List.Sublist.trans ?_ hinv.order)
  rw [List.append_assoc]
  exact sublist_append_left _ _

end

/-- `NativeServerSession::execute_command`, uninterrupted. -/
def nativeCommand (k : Nat) (cmd : BrokerCommandBatch) : List Step :=
  .call k cmd :: (cmd.updates k).map (fun _ => .track k) ++ [.execute k, .route k, .drain k]

/-- One message for queue 1. -/
def publishOne : BrokerCommandBatch :=
  .ingress (.publish ⟨0, 0, .queue 1, .none, [⟨1, 4⟩]⟩)

/-- Connection 1 consumes from `"test.queue"` as consumer 9. -/
def consumeNine : List Step :=
  .control (.declareQueue testQueue) :: nativeCommand 1 (.shard (.consume [⟨9, 1, 1, 10⟩]))

/-- Connection 2 publishes, and connection 1 drains its outbox before it
publishes itself. -/
def drainsFirst : List Step :=
  consumeNine ++ nativeCommand 2 publishOne ++ [.drain 1] ++ nativeCommand 1 publishOne

theorem consumer_tags_rise_drained :
    tagsOf (toConsumer 9 (wire 1 ((System.new .dev).run .null drainsFirst).trace)) = [1, 2] ∧
      TagsRise 9 ((System.new .dev).run .null drainsFirst).shard.sink
        (wire 1 ((System.new .dev).run .null drainsFirst).trace) :=
  ⟨by decide +kernel,
    consumer_tags_rise .null SingleNodeBroker.new_dev (by decide +kernel) (by decide +kernel)⟩

/-- Without the drain, the message of connection 2 is still in the outbox
of connection 1: consumer 9 is shown tag 2 before tag 1. -/
theorem outbox_after_immediate :
    let steps := consumeNine ++ nativeCommand 2 publishOne ++ nativeCommand 1 publishOne
    let s := (System.new .dev).run .null steps
    (∀ a ∈ steps, StartsOnlyAt 9 1 a) ∧
      tagsOf (toConsumer 9 (wire 1 s.trace)) = [2, 1] ∧
      ¬ TagsRise 9 s.shard.sink (wire 1 s.trace) := by
  intro steps s
  have htags : tagsOf (toConsumer 9 (wire 1 s.trace)) = [2, 1] := by decide +kernel
  have hone : (incarnations 9 s.shard.sink).length = 1 := by decide +kernel
  refine ⟨by decide +kernel, htags, ?_⟩
  rintro ⟨parts, hparts, hlen, hrise⟩
  obtain ⟨part, rfl⟩ := length_eq_one_iff.mp (hlen.trans hone)
  obtain rfl : [2, 1] = part := by simpa [htags] using hparts
  exact absurd (hrise _ mem_cons_self) (by decide)

end Aurum.Service
