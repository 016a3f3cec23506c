import Aurum.Service.Basic
import Mathlib.Algebra.BigOperators.Group.Finset.Piecewise
import Mathlib.Algebra.Order.Group.Multiset
import Mathlib.Tactic.Abel

/-!
# Service — no delivery is lost or duplicated

Between the broker and the connections a delivery is in one place at a
time: in the immediate output of the command that caused it, in an
outbox, or in what an outbox was drained to. Everything else a command
produced goes back to the connection that issued it.
-/

namespace Aurum.Service

open Aurum.Protocol Aurum.Broker List Function Service.System ShardOutputBatch

variable (trace : List Observation)

/-! ## A list split by a key -/

/-- The parts of a list with each key of a set add up to the list. -/
theorem sum_filter_key {α : Type} (f : α → Nat) (keys : Finset Nat) (l : List α)
    (h : ∀ a ∈ l, f a ∈ keys) :
    ∑ k ∈ keys, (↑(l.filter fun a => f a = k) : Multiset α) = ↑l := by
  induction l with
  | nil => simp
  | cons a l ih =>
    have hsplit : ∀ k, (↑((a :: l).filter fun a => f a = k) : Multiset α) =
        (if f a = k then {a} else 0) + ↑(l.filter fun a => f a = k) := by
      intro k
      by_cases hk : f a = k <;> simp [hk]
    simp only [hsplit, Finset.sum_add_distrib, Finset.sum_ite_eq, h a mem_cons_self,
      if_true, ih fun b hb => h b (mem_cons_of_mem a hb)]
    rfl

/-! ## What the trace records -/

/-- The deliveries in a sequence of outputs. -/
def deliveriesOf (outputs : List ShardOutputBatch) : List DeliveryEventBatch :=
  outputs.flatMap deliveries

/-- The outputs of the execute steps, with the connections they ran for. -/
def executedOutputs : List (Nat × ShardOutputBatch) :=
  trace.filterMap fun
    | .executed connectionId output => some (connectionId, output)
    | _ => none

/-- The outputs given to `route_output`, with the connections they came from. -/
def routedOutputs : List (Nat × ShardOutputBatch) :=
  trace.filterMap fun
    | .routed connectionId output _ => some (connectionId, output)
    | _ => none

/-- The immediate outputs, with the connections they were returned to. -/
def immediateOutputs : List (Nat × ShardOutputBatch) :=
  trace.filterMap fun
    | .routed connectionId _ immediate => some (connectionId, immediate)
    | _ => none

/-- The outputs `drain_connection_outputs` returned. -/
def drainedOutputs : List ShardOutputBatch :=
  trace.filterMap fun
    | .drained _ output => some output
    | _ => none

/-- Two outputs that differ in their deliveries at most. -/
def SameReplies (output immediate : ShardOutputBatch) : Prop :=
  immediate.confirms = output.confirms ∧ immediate.settlements = output.settlements ∧
    immediate.consumerEvents = output.consumerEvents ∧
    immediate.routeResolved = output.routeResolved ∧ immediate.errors = output.errors

/-! ## Service functions -/

theorem deliveries_foldl_merge (batches : List ShardOutputBatch) (acc : ShardOutputBatch) :
    (batches.foldl ShardOutputBatch.merge acc).deliveries =
      acc.deliveries ++ deliveriesOf batches := by
  induction batches generalizing acc with
  | nil => simp [deliveriesOf]
  | cons b batches ih => simp [ih, ShardOutputBatch.merge, deliveriesOf]

variable {conns : Finset Nat}

namespace BrokerService

open List

variable {σ : Type} (s : BrokerService σ) (source : Nat)

/-- The deliveries an outbox gains. -/
theorem deliveriesOf_outboxAfter (ds : List DeliveryEventBatch) (c : Nat) :
    deliveriesOf (s.outboxAfter source ds c) =
      deliveriesOf (s.outboxes c) ++ if c = source then [] else s.routedTo source c ds := by
  unfold outboxAfter
  by_cases hc : c = source
  · simp [hc]
  · by_cases hds : s.routedTo source c ds = []
    · simp [hc, hds]
    · simp [hc, hds, deliveriesOf]

theorem outboxAfter_nil (c : Nat) : s.outboxAfter source [] c = s.outboxes c := by
  simp [outboxAfter, routedTo]

/-- `route_output` without its shortcut for outputs that deliver nothing. -/
theorem routeOutput_eq (output : ShardOutputBatch) : s.routeOutput source output =
      ({ s with outboxes := s.outboxAfter source output.deliveries },
        { output with deliveries := s.routedTo source source output.deliveries }) := by
  unfold routeOutput
  split
  · next h =>
    obtain ⟨ds, confirms, settlements, consumerEvents, routeResolved, errors⟩ := output
    obtain rfl : ds = [] := h
    have hbox : s.outboxAfter source [] = s.outboxes :=
      funext fun c => s.outboxAfter_nil source c
    rw [hbox]
    rfl
  · rfl

/-- The deliveries of an output are split among the connections. -/
theorem sum_routedTo (ds : List DeliveryEventBatch) (hsource : source ∈ conns)
    (h : ∀ d ∈ ds, s.routeTarget source d ∈ conns) :
    (↑(s.routedTo source source ds) : Multiset DeliveryEventBatch) +
      ∑ c ∈ conns, ↑(if c = source then [] else s.routedTo source c ds) = ↑ds := by
  rw [← sum_filter_key (s.routeTarget source) conns ds h, ← Finset.add_sum_erase _ _ hsource,
    ← Finset.add_sum_erase _ _ hsource]
  simp only [if_true, Multiset.coe_nil, zero_add]
  refine congrArg _ (Finset.sum_congr rfl fun c hc => ?_)
  rw [if_neg (Finset.ne_of_mem_erase hc)]
  rfl

end BrokerService

/-! ## Steps -/

section

variable {σ : Type}

/-- **The balance.** `conns` are the connections that may have something
in their outbox. -/
structure Balanced (s : System σ) (conns : Finset Nat) : Prop where
  /-- an execute step's output is waiting or was routed, for the same connection -/
  executed : (↑(executedOutputs s.trace) : Multiset (Nat × ShardOutputBatch)) =
    ↑(routedOutputs s.trace) + ↑(s.waiting.map fun e => (e.source, e.output))
  outboxes : ∀ c ∉ conns, s.service.outboxes c = []
  /-- every routed delivery is in one of three places -/
  deliveries :
    (↑(deliveriesOf ((routedOutputs s.trace).map Prod.snd)) : Multiset DeliveryEventBatch) =
      ↑(deliveriesOf ((immediateOutputs s.trace).map Prod.snd)) +
        ∑ c ∈ conns, ↑(deliveriesOf (s.service.outboxes c)) +
        ↑(deliveriesOf (drainedOutputs s.trace))
  /-- everything else went back to the connection that issued the command -/
  replies : Forall₂ (fun o i => i.1 = o.1 ∧ SameReplies o.2 i.2)
    (routedOutputs s.trace) (immediateOutputs s.trace)

theorem balanced_new (broker : SingleNodeBroker σ) : Balanced (new broker) ∅ :=
  ⟨rfl, fun _ _ => rfl, rfl, .nil⟩

variable {s : System σ} (store : ShardStorage σ)

/-- Steps that change neither the trace nor what is waiting or held. -/
theorem Balanced.congr {s' : System σ} (h : Balanced s conns) (htrace : s'.trace = s.trace)
    (hwaiting : s'.waiting = s.waiting) (hbox : s'.service.outboxes = s.service.outboxes) :
    Balanced s' conns where
  executed := by rw [htrace, hwaiting]; exact h.executed
  outboxes := by rw [hbox]; exact h.outboxes
  deliveries := by rw [htrace, hbox]; exact h.deliveries
  replies := by rw [htrace]; exact h.replies

/-- More connections may be counted. -/
theorem Balanced.mono {conns' : Finset Nat} (h : Balanced s conns) (hsub : conns ⊆ conns') :
    Balanced s conns' where
  executed := h.executed
  outboxes := fun c hc => h.outboxes c fun hin => hc (hsub hin)
  deliveries := by
    rw [h.deliveries, Finset.sum_subset hsub fun c _ hc => by rw [h.outboxes c hc]; rfl]
  replies := h.replies

theorem balanced_execute (h : Balanced s conns) (c : Nat)
    (cmd : BrokerCommandBatch) : Balanced (s.execute store c cmd) conns where
  executed := by
    have hexec := h.executed
    simp only [execute, executedOutputs, routedOutputs, filterMap_append,
      filterMap_cons, filterMap_nil, append_nil, map_append, map_cons,
      map_nil] at hexec ⊢
    rw [← Multiset.coe_add, hexec, ← Multiset.coe_add, add_assoc]
  outboxes := h.outboxes
  deliveries := by
    have hdel := h.deliveries
    simp only [execute, routedOutputs, immediateOutputs, drainedOutputs,
      filterMap_append, filterMap_cons, filterMap_nil, append_nil] at hdel ⊢
    exact hdel
  replies := by
    have hrep := h.replies
    simp only [execute, routedOutputs, immediateOutputs, filterMap_append,
      filterMap_cons, filterMap_nil, append_nil] at hrep ⊢
    exact hrep

theorem balanced_route (h : Balanced s conns) {c : Nat} {e : Executed}
    (he : s.waiting.find? (·.source = c) = some e) : ∃ conns', Balanced (s.route e) conns' := by
  obtain ⟨pre, post, hwaiting, -, herase, -⟩ := find?_waiting he
  -- the connection itself and all targets may now be involved
  let targets := (e.output.deliveries.map (s.service.routeTarget e.source)).toFinset
  refine ⟨conns ∪ insert e.source targets, ?_⟩
  have h' := h.mono (Finset.subset_union_left : conns ⊆ conns ∪ insert e.source targets)
  have hsource : e.source ∈ conns ∪ insert e.source targets := by simp
  have htargets : ∀ d ∈ e.output.deliveries,
      s.service.routeTarget e.source d ∈ conns ∪ insert e.source targets := by
    intro d hd
    have : s.service.routeTarget e.source d ∈ targets :=
      mem_toFinset.mpr (mem_map.mpr ⟨d, hd, rfl⟩)
    simp [this]
  generalize conns ∪ insert e.source targets = conns' at h' hsource htargets
  have hsum := s.service.sum_routedTo e.source e.output.deliveries hsource htargets
  constructor
  case executed =>
    have hexec := h'.executed
    simp only [route, executedOutputs, routedOutputs, filterMap_append,
      filterMap_cons, filterMap_nil, append_nil, herase] at hexec ⊢
    rw [hexec, hwaiting]
    -- the routed output moves from the middle of the waiting ones to the end of the routed
    refine Multiset.coe_eq_coe.mpr ?_
    simp only [map_append, map_cons, append_assoc]
    exact (perm_middle).append_left _
  case outboxes =>
    intro k hk
    have hbox := h'.outboxes k hk
    simp only [route, BrokerService.routeOutput_eq, BrokerService.outboxAfter]
    rw [if_pos, hbox]
    refine .inr (filter_eq_nil_iff.mpr fun d hd => ?_)
    simp only [decide_eq_true_eq]
    rintro rfl
    exact hk (htargets d hd)
  case deliveries =>
    have hdel := h'.deliveries
    simp only [route, BrokerService.routeOutput_eq, routedOutputs, immediateOutputs,
      drainedOutputs, BrokerService.deliveriesOf_outboxAfter, filterMap_append,
      filterMap_cons, filterMap_nil, append_nil, map_append, map_cons,
      map_nil] at hdel ⊢
    simp only [deliveriesOf, flatMap_append, flatMap_cons, flatMap_nil,
      append_nil, ← Multiset.coe_add, Finset.sum_add_distrib] at hdel hsum ⊢
    rw [hdel, ← hsum]
    abel
  case replies =>
    have hrep := h'.replies
    simp only [route, BrokerService.routeOutput_eq, routedOutputs, immediateOutputs,
      filterMap_append, filterMap_cons, filterMap_nil] at hrep ⊢
    exact rel_append hrep (.cons ⟨rfl, rfl, rfl, rfl, rfl, rfl⟩ .nil)

/-- Draining moves an outbox to what was drained. -/
theorem balanced_drain (h : Balanced s conns) (c : Nat) :
    Balanced (s.step store (.drain c)) (insert c conns) := by
  have h' := h.mono (Finset.subset_insert c conns)
  have hc : c ∈ insert c conns := Finset.mem_insert_self c conns
  generalize insert c conns = conns' at h' hc
  simp only [step]
  split
  · constructor
    case executed =>
      have hexec := h'.executed
      simp only [executedOutputs, routedOutputs, filterMap_append, filterMap_cons,
        filterMap_nil, append_nil] at hexec ⊢
      exact hexec
    case outboxes =>
      intro k hk
      have hkc : k ≠ c := fun heq => hk (heq.symm ▸ hc)
      simp only [BrokerService.drainConnectionOutputs]
      rw [update_of_ne hkc]
      exact h'.outboxes k hk
    case deliveries =>
      have hdel := h'.deliveries
      have hrest : ∑ k ∈ conns'.erase c,
            (↑(deliveriesOf (Function.update s.service.outboxes c [] k)) :
              Multiset DeliveryEventBatch) =
          ∑ k ∈ conns'.erase c, ↑(deliveriesOf (s.service.outboxes k)) := by
        refine Finset.sum_congr rfl fun k hk => ?_
        rw [update_of_ne (Finset.ne_of_mem_erase hk)]
      simp only [BrokerService.drainConnectionOutputs, routedOutputs, immediateOutputs,
        drainedOutputs, filterMap_append, filterMap_cons, filterMap_nil,
        append_nil] at hdel ⊢
      rw [hdel, ← Finset.add_sum_erase _ _ hc, ← Finset.add_sum_erase _ _ hc, hrest]
      simp only [update_self, deliveriesOf, flatMap_append, flatMap_cons,
        flatMap_nil, append_nil, deliveries_foldl_merge, empty,
        nil_append, ← Multiset.coe_add, Multiset.coe_nil]
      abel
    case replies =>
      have hrep := h'.replies
      simp only [routedOutputs, immediateOutputs, filterMap_append, filterMap_cons,
        filterMap_nil, append_nil] at hrep ⊢
      exact hrep
  · exact h'

/-- **Every step keeps the balance.** -/
theorem balanced_step (h : Balanced s conns) (a : Step) :
    ∃ conns', Balanced (s.step store a) conns' := by
  cases a with
  | call c cmd =>
    refine ⟨conns, ?_⟩
    simp only [step]
    split
    · exact h.congr rfl rfl rfl
    · exact h
  | track c =>
    refine ⟨conns, ?_⟩
    simp only [step]
    split
    · next k u us cmd _ => exact h.congr rfl rfl (by cases u <;> rfl)
    · exact h
  | execute c =>
    refine ⟨conns, ?_⟩
    simp only [step]
    split
    · exact balanced_execute store h c _
    · exact h
  | route c =>
    simp only [step]
    split
    · next e he => exact balanced_route h he
    · exact ⟨conns, h⟩
  | drain c => exact ⟨_, balanced_drain store h c⟩
  | control cmd => exact ⟨conns, h.congr rfl rfl rfl⟩

/-- **No delivery is lost or duplicated by output routing**, whatever the
connections do and however their steps interleave. -/
theorem output_routing_conserves (store : ShardStorage σ) (broker : SingleNodeBroker σ)
    (steps : List Step) :
    ∃ conns, Balanced ((System.new broker).run store steps) conns := by
  have key : ∀ (steps : List Step) (s : System σ), (∃ conns, Balanced s conns) →
      ∃ conns, Balanced (s.run store steps) conns := by
    intro steps
    induction steps with
    | nil => exact fun _ h => h
    | cons a steps ih =>
      rintro s ⟨conns, h⟩
      exact ih _ (balanced_step store h a)
  exact key steps _ ⟨∅, balanced_new broker⟩

end

end Aurum.Service
