import Aurum.Broker.StaleRoutes

/-!
# Broker — declaring an exchange again

`DeclareExchange` takes a new id whether or not the name is known, and the
name stands for the new exchange from then on. The bindings stay with the
old one, so `redeclare_keeps_routing_iff`: the routing is kept exactly if
nothing was bound there.
-/

namespace Aurum.Broker.SingleNodeBroker

open Aurum.Protocol Aurum.Routing Option

variable {σ : Type} {b : SingleNodeBroker σ}

/-- The queues a message reaches that is published to the route its
exchange and key resolve to. -/
def reaches (b : SingleNodeBroker σ) (exchange key : Text) : List QueueTarget :=
  match b.resolveAmqpRoute exchange key with
  | none => []
  | some target =>
    match b.broker.routeTable.getByRouteId target.routeId target.routeVersion with
    | .ok set => set.targetsVec
    | .error _ => []

/-- **Routing by name**: what is bound to the exchange declared last. -/
theorem Wired.mem_reaches (h : b.Wired) {exchange key : Text} {t : QueueTarget} :
    t ∈ b.reaches exchange key ↔
      ∃ e, b.exchangeOf exchange = some e ∧ Bound b.routingConfig e key t := by
  have hspec := compile_spec h.table
  have hname : b.broker.routeTable.exchangeNames exchange =
      (b.exchangeOf exchange).map ExchangeDecl.id := hspec.declares.names exchange
  cases he : b.exchangeOf exchange with
  | none =>
    rw [he] at hname
    simp [reaches, resolveAmqpRoute, RouteTable.resolveDirectByName, hname]
  | some e =>
    rw [he] at hname
    have hmem := List.mem_reverse.mp (List.mem_of_find?_eq_some he)
    have hfound : b.reaches exchange key =
        ((b.broker.routeTable.lookup e.id key).map QueueSetEntry.targetsVec).getD [] := by
      simp only [reaches, resolveAmqpRoute, RouteTable.resolveDirectByName, hname,
        map_some, RouteTable.lookup]
      cases b.broker.routeTable.resolveDirect e.id key with
      | error err => rfl
      | ok r =>
        dsimp only
        cases b.broker.routeTable.getByRouteId r.routeId r.version <;> rfl
    rw [hfound, hspec.lookup_eq hmem (h.named.kinds e hmem) key]
    simp only [some.injEq, exists_eq_left', ← mem_slotTargets]
    split
    · next hnil => simp [hnil]
    · rw [map_some, getD_some, QueueSetEntry.mem_targetsVec_build]

theorem Wired.exchangeOf_declareExchange (h : b.Wired) (name exchangeType exchange : Text) :
    (b.declareExchange name exchangeType).exchangeOf exchange =
      if exchange = name then some (exchangeDecl b.nextExchangeId name exchangeType)
      else b.exchangeOf exchange := by
  rw [exchangeOf, (h.declareExchange name exchangeType).2, RoutingConfig.addExchange,
    List.reverse_append, List.reverse_singleton, List.singleton_append, List.find?_cons]
  by_cases hx : exchange = name
  · simp [hx, exchangeDecl]
  · simp [hx, Ne.symm hx, exchangeDecl, exchangeOf]

/-- **Declaring an exchange again** changes no route exactly if nothing is
bound to the exchange the name stands for. -/
theorem redeclare_keeps_routing_iff (store : ShardStorage σ) {routing : RoutingBootstrapConfig}
    {durable : Option σ} (hnew : new routing durable = .ok b) (cs : List BrokerCall) {name : Text}
    (exchangeType : Text) {e : ExchangeDecl}
    (he : (b.calls store cs).exchangeOf name = some e) :
    (∀ exchange key t,
      t ∈ ((b.calls store cs).call store
        (.control (.declareExchange name exchangeType))).reaches exchange key ↔
      t ∈ (b.calls store cs).reaches exchange key) ↔
      ∀ d ∈ (b.calls store cs).routingConfig.bindings, d.exchangeId ≠ e.id := by
  have h := (Wired.calls store cs (wired_new hnew)).1
  generalize b.calls store cs = b at h he ⊢
  obtain ⟨hw, hconfig⟩ := h.declareExchange name exchangeType
  -- the new id is in no binding
  have hnone : ∀ key t,
      ¬ Bound b.routingConfig (exchangeDecl b.nextExchangeId name exchangeType) key t := by
    rintro key t ⟨d, hd, hid, -⟩
    obtain ⟨e', he', heq⟩ := List.mem_map.mp (h.named.known d hd)
    have hlt := h.named.below e' he'
    rw [heq, hid] at hlt
    exact Nat.lt_irrefl _ hlt
  have hafter : ∀ exchange key t, t ∈ (b.declareExchange name exchangeType).reaches exchange key ↔
      exchange ≠ name ∧ t ∈ b.reaches exchange key := by
    intro exchange key t
    have hbound : ∀ e, Bound (b.routingConfig.addExchange
        (exchangeDecl b.nextExchangeId name exchangeType)) e key t ↔
        Bound b.routingConfig e key t := fun _ => Iff.rfl
    rw [hw.mem_reaches, h.exchangeOf_declareExchange, h.mem_reaches, hconfig]
    simp only [hbound]
    by_cases hx : exchange = name
    · simp [hx, hnone]
    · simp [hx]
  constructor
  · intro hsame d hd hid
    have hfound : d.target ∈ b.reaches name d.routingKey :=
      h.mem_reaches.mpr ⟨e, he, d, hd, hid, fun _ => rfl, rfl⟩
    exact ((hafter _ _ _).mp ((hsame _ _ _).mpr hfound)).1 rfl
  · intro hfree exchange key t
    refine (hafter exchange key t).trans ⟨And.right, fun hin => ⟨?_, hin⟩⟩
    rintro rfl
    obtain ⟨e', he', d, hd, hid, -⟩ := h.mem_reaches.mp hin
    obtain rfl := Option.some.inj (he.symm.trans he')
    exact hfree d hd hid

/-- An exchange without bindings can be declared again. -/
theorem redeclare_unbound_exchange :
    let b := dev.calls .null [.control (.declareExchange [120] directType)]
    b.exchangeOf [120] = some ⟨2, [120], .direct⟩ ∧ ∀ exchange key t,
      t ∈ (b.call .null (.control (.declareExchange [120] directType))).reaches exchange key ↔
        t ∈ b.reaches exchange key :=
  ⟨by decide +kernel, (@redeclare_keeps_routing_iff _ _ .null _ _ new_dev
    [.control (.declareExchange [120] directType)] [120] directType
    ⟨2, [120], .direct⟩ (by decide +kernel)).mpr (by decide +kernel)⟩

/-- `amq.direct` is declared again as it was, and its binding has no
effect any more. -/
theorem redeclare_drops_bindings :
    let after := dev.call .null (.control (.declareExchange amqDirect directType))
    dev.exchangeOf amqDirect = some ⟨1, amqDirect, .direct⟩ ∧
      dev.reaches amqDirect [116, 101, 115, 116] = [⟨0, 1⟩] ∧
      after.reaches amqDirect [116, 101, 115, 116] = [] := by
  decide +kernel

end Aurum.Broker.SingleNodeBroker
