import Aurum.Routing.Compiled

/-!
# Routing — configurations that grow

The broker only adds exchanges and bindings and compiles the whole
configuration again, so the position of a route may change while its id
stays in use. A new exchange comes last and moves nothing. A new binding
moves the routes behind it exactly if it brings a new key of a direct
exchange: `KeepsBefore` says for one slot when it stays where it was.
-/

namespace Aurum.Routing

open List RoutingConfig

/-- What `compile` accepts. -/
structure WellFormed (config : RoutingConfig) : Prop where
  nonempty : config.exchanges ≠ []
  nodup : (config.exchanges.map ExchangeDecl.id).Nodup
  known : ∀ b ∈ config.bindings, b.exchangeId ∈ config.exchanges.map ExchangeDecl.id
  kinds : ∀ e ∈ config.exchanges, e.kind = .direct ∨ e.kind = .fanout

theorem foldlM_compileExchange (config : RoutingConfig) : ∀ (l : List ExchangeDecl)
    (table : RouteTable), (∀ e ∈ l, e.kind = .direct ∨ e.kind = .fanout) →
    ∃ table', l.foldlM (compileExchange config) table = .ok table'
  | [], table, _ => ⟨table, rfl⟩
  | e :: l, table, h => by
    have hl : ∀ e ∈ l, e.kind = .direct ∨ e.kind = .fanout := fun e he => h e (by simp [he])
    rw [foldlM_cons]
    rcases h e (by simp) with hk | hk
    · obtain ⟨table', h'⟩ := foldlM_compileExchange config l (compileDirect e config table) hl
      exact ⟨table', by simpa [compileExchange, hk, bind, Except.bind] using h'⟩
    · obtain ⟨table', h'⟩ := foldlM_compileExchange config l (compileFanout e config table) hl
      exact ⟨table', by simpa [compileExchange, hk, bind, Except.bind] using h'⟩

variable {config : RoutingConfig} {m : List (Text × List QueueTarget)}

/-- **A well-formed configuration compiles.** -/
theorem compile_wellFormed (h : WellFormed config) : ∃ table, compile config = .ok table := by
  obtain ⟨table, htable⟩ := foldlM_compileExchange config config.exchanges
    (RouteTable.newEmpty config.version) h.kinds
  refine ⟨table, ?_⟩
  rw [compile, if_neg h.nonempty, if_neg (not_not.mpr h.nodup), if_neg (not_not.mpr h.known)]
  exact htable

theorem wellFormed_of_compile {table : RouteTable} (h : compile config = .ok table) :
    WellFormed config := by
  obtain ⟨hnd, hknown, -⟩ := compile_ok h
  refine ⟨fun hnil => ?_, hnd, hknown, fun e he => kind_of_compile h he⟩
  simp [compile, hnil] at h

/-! ## Positions -/

/-- Lists that agree on where `s` stands: nothing moves before the part
that holds it, and inside that part it stays. -/
theorem getElem?_flatMap_of_agree {α β : Type} {f g : α → List β} {s : β} :
    ∀ (l : List α) (i : Nat), (l.flatMap f)[i]? = some s →
      (∀ pre a post, l = pre ++ a :: post → s ∈ f a →
        (∀ x ∈ pre, g x = f x) ∧ ∀ j : Nat, (f a)[j]? = some s → (g a)[j]? = some s) →
      (l.flatMap g)[i]? = some s
  | [], i, h, _ => by simp at h
  | a :: l, i, h, hagree => by
    rw [flatMap_cons] at h ⊢
    by_cases hi : i < (f a).length
    · rw [getElem?_append_left hi] at h
      obtain ⟨-, hin⟩ := hagree [] a l rfl (mem_of_getElem? h)
      have hg := hin i h
      rw [getElem?_append_left (List.getElem?_eq_some_iff.mp hg).1]
      exact hg
    · rw [getElem?_append_right (by omega)] at h
      -- the part that holds `s` comes later, so this one is the same
      obtain ⟨b, hb, hsb⟩ := mem_flatMap.mp (mem_of_getElem? h)
      obtain ⟨pre, post, rfl⟩ := append_of_mem hb
      have hsame : g a = f a := (hagree (a :: pre) b post rfl hsb).1 a (by simp)
      rw [hsame, getElem?_append_right (by omega)]
      refine getElem?_flatMap_of_agree _ _ h fun pre' a' post' heq hs => ?_
      obtain ⟨h1, h2⟩ := hagree (a :: pre') a' post' (by rw [heq]; rfl) hs
      exact ⟨fun x hx => h1 x (by simp [hx]), h2⟩

/-- A key keeps its place in the sorted map unless a new key comes before
it. -/
theorem getElem?_keys_addTarget (key : Text) {k : Text} (t : QueueTarget) {i : Nat}
    (hm : Ascending m) (h : (m.map Prod.fst)[i]? = some k) (hkey : key ∈ m.map Prod.fst ∨ k < key) :
    ((addTarget key t m).map Prod.fst)[i]? = some k := by
  obtain ⟨pre, post, old, rfl, hadd, hpre, hpost⟩ := addTarget_split key t hm
  rw [hadd]
  cases old with
  | some ts => simpa using h
  | none =>
    have hlt : i < pre.length := by
      by_contra hge
      rw [Option.map_none, Option.toList_none, nil_append, map_append,
        getElem?_append_right (by simpa using hge)] at h
      obtain ⟨p, hp, rfl⟩ := mem_map.mp (mem_of_getElem? h)
      rcases hkey with hmem | hafter
      · obtain ⟨q, hq, rfl⟩ := mem_map.mp hmem
        rcases mem_append.mp hq with hq | hq
        · exact List.lt_irrefl _ (hpre q hq)
        · exact List.lt_irrefl _ (hpost q hq)
      · exact List.lt_irrefl _ (List.lt_trans (hpost p hp) hafter)
    rw [map_append, getElem?_append_left (by simpa using hlt)] at h ⊢
    exact h

/-- Binding a key again changes no keys. -/
theorem keys_addTarget_of_mem {key : Text} (t : QueueTarget) (hm : Ascending m)
    (h : key ∈ m.map Prod.fst) : (addTarget key t m).map Prod.fst = m.map Prod.fst := by
  obtain ⟨pre, post, old, rfl, hadd, hpre, hpost⟩ := addTarget_split key t hm
  rw [hadd]
  cases old with
  | some ts => simp
  | none =>
    obtain ⟨p, hp, rfl⟩ := mem_map.mp h
    rcases mem_append.mp hp with hp | hp
    · exact absurd (hpre p hp) (List.lt_irrefl _)
    · exact absurd (hpost p hp) (List.lt_irrefl _)

theorem byKey_append (bindings : List BindingDecl) (b : BindingDecl) (e : Nat) :
    byKey (bindings ++ [b]) e =
      if b.exchangeId ≠ e then byKey bindings e
      else addTarget b.routingKey ⟨b.targetShard, b.queueId⟩ (byKey bindings e) := by
  rw [byKey, foldl_append]
  rfl

theorem mem_keys_byKey {bindings : List BindingDecl} {e : Nat} {key : Text} :
    key ∈ (byKey bindings e).map Prod.fst ↔
      ∃ b ∈ bindings, b.exchangeId = e ∧ b.routingKey = key := by
  constructor
  · intro h
    obtain ⟨p, hp, rfl⟩ := mem_map.mp h
    obtain ⟨heq, hne⟩ := mem_byKey.mp (show (p.1, p.2) ∈ _ from hp)
    obtain ⟨t, ht⟩ := exists_mem_of_ne_nil _ hne
    rw [heq, keyTargets, mem_map] at ht
    obtain ⟨b, hb, -⟩ := ht
    rw [mem_filter, decide_eq_true_eq] at hb
    exact ⟨b, hb.1, hb.2⟩
  · rintro ⟨b, hb, he, hk⟩
    refine mem_map.mpr ⟨(key, keyTargets bindings e key), mem_byKey.mpr ⟨rfl, ?_⟩, rfl⟩
    have hmem : b.target ∈ keyTargets bindings e key :=
      mem_map_of_mem (mem_filter.mpr ⟨hb, by simp [he, hk]⟩)
    exact ne_nil_of_mem hmem

/-! ## Growing -/

/-- The configuration with one more exchange. -/
def RoutingConfig.addExchange (config : RoutingConfig) (e : ExchangeDecl) : RoutingConfig :=
  { config with exchanges := config.exchanges ++ [e] }

/-- The configuration with one more binding. -/
def RoutingConfig.addBinding (config : RoutingConfig) (b : BindingDecl) : RoutingConfig :=
  { config with bindings := config.bindings ++ [b] }

variable {s : Slot} {i : Nat}

/-- **A new exchange moves nothing.** -/
theorem slots_addExchange (e : ExchangeDecl) (h : (slots config)[i]? = some s) :
    (slots (config.addExchange e))[i]? = some s := by
  have hsplit : slots (config.addExchange e) = slots config ++ slotsOf config e := by
    simp only [slots, addExchange, flatMap_append, flatMap_singleton]
    rfl
  rw [hsplit, getElem?_append_left (List.getElem?_eq_some_iff.mp h).1]
  exact h

/-- A binding of the exchange `id` under `key` does not move `s`: it is at
a fanout exchange, the key is bound there already, or the new route comes
behind `s`. -/
def KeepsBefore (config : RoutingConfig) (s : Slot) (id : Nat) (key : Text) : Prop :=
  (∃ e ∈ config.exchanges, e.id = id ∧ e.kind = .fanout) ∨
  (∃ b ∈ config.bindings, b.exchangeId = id ∧ b.routingKey = key) ∨
  s.exchangeId < id ∨ (s.exchangeId = id ∧ ∃ k, s.key = some k ∧ k < key)

/-- Exchange ids ascend in the order of declaration. -/
def RoutingConfig.Ordered (config : RoutingConfig) : Prop :=
  config.exchanges.Pairwise fun a b => a.id < b.id

theorem ids_injective (hord : config.Ordered) {a b : ExchangeDecl} (ha : a ∈ config.exchanges)
    (hb : b ∈ config.exchanges) (heq : a.id = b.id) : a = b := by
  have hnd : (config.exchanges.map ExchangeDecl.id).Nodup := by
    rw [nodup_iff_pairwise_ne, pairwise_map]
    exact hord.imp Nat.ne_of_lt
  exact inj_on_of_nodup_map hnd ha hb heq

/-- **When a new binding moves nothing before `s`.** -/
theorem slots_addBinding (hord : config.Ordered) {b : BindingDecl}
    (hkeep : KeepsBefore config s b.exchangeId b.routingKey) (h : (slots config)[i]? = some s) :
    (slots (config.addBinding b))[i]? = some s := by
  refine getElem?_flatMap_of_agree config.exchanges i h fun pre e post hsplit hs => ?_
  have hid := exchangeId_of_mem_slotsOf hs
  have hbefore : ∀ x ∈ pre, x.id < e.id := fun x hx => by
    have hpair : (pre ++ e :: post).Pairwise fun a b => a.id < b.id := hsplit ▸ hord
    exact (pairwise_append.mp hpair).2.2 x hx e mem_cons_self
  -- only the slots of a direct exchange with this id can change
  have hother : ∀ x : ExchangeDecl, (x.id ≠ b.exchangeId ∨ x.kind ≠ .direct) →
      slotsOf (config.addBinding b) x = slotsOf config x := by
    intro x hx
    unfold slotsOf
    cases hk : x.kind with
    | direct =>
      have hne : b.exchangeId ≠ x.id := fun hc => hx.elim (· hc.symm) (· hk)
      simp only [addBinding, byKey_append, if_pos hne]
    | fanout => rfl
    | topic => rfl
    | headers => rfl
  have hmem : ∀ x ∈ pre ++ [e], x ∈ config.exchanges := fun x hx => by
    rw [hsplit]
    rw [mem_append, mem_singleton] at hx
    rcases hx with hx | rfl <;> simp [*]
  rcases hkeep with ⟨e0, he0, hid0, hfan⟩ | hb | hlt | ⟨heq, k, hk, hlt⟩
  · -- the exchange with this id is a fanout exchange
    have hfan' : ∀ x ∈ config.exchanges, x.id ≠ b.exchangeId ∨ x.kind ≠ .direct := by
      intro x hx
      by_contra hc
      push Not at hc
      obtain rfl : x = e0 := ids_injective hord hx he0 (hc.1.trans hid0.symm)
      rw [hfan] at hc
      cases hc.2
    refine ⟨fun x hx => hother x (hfan' x (hmem x (by simp [hx]))), fun j hj => ?_⟩
    rw [hother e (hfan' e (hmem e (by simp)))]
    exact hj
  · -- no key is new
    have hsame : ∀ x : ExchangeDecl, slotsOf (config.addBinding b) x = slotsOf config x := by
      intro x
      by_cases hx : x.id = b.exchangeId ∧ x.kind = .direct
      · have hkeys := keys_addTarget_of_mem ⟨b.targetShard, b.queueId⟩
          (grouped_byKey config.bindings b.exchangeId).ascending (mem_keys_byKey.mpr hb)
        have hslots := congrArg (List.map fun key => (⟨x.id, some key⟩ : Slot)) hkeys
        rw [map_map, map_map] at hslots
        simp only [slotsOf, hx.2, addBinding, byKey_append, hx.1, ne_eq, not_true,
          if_false]
        rw [hx.1] at hslots
        exact hslots
      · exact hother x (by tauto)
    exact ⟨fun x _ => hsame x, fun j hj => by rw [hsame]; exact hj⟩
  · -- the binding is at a later exchange
    refine ⟨fun x hx => hother x (.inl ?_), fun j hj => ?_⟩
    · have := hbefore x hx
      omega
    · rw [hother e (.inl (by omega))]
      exact hj
  · -- the new key comes behind `s` at the same exchange
    refine ⟨fun x hx => hother x (.inl ?_), fun j hj => ?_⟩
    · have := hbefore x hx
      omega
    · have hkind : e.kind = .direct := by
        cases hek : e.kind with
        | direct => rfl
        | fanout =>
          simp only [slotsOf, hek, mem_singleton] at hs
          rw [hs] at hk
          cases hk
        | topic => simp [slotsOf, hek] at hs
        | headers => simp [slotsOf, hek] at hs
      have hide : b.exchangeId = e.id := heq.symm.trans hid
      simp only [slotsOf, hkind, getElem?_map, Option.map_eq_some_iff] at hj ⊢
      obtain ⟨p, hp, rfl⟩ := hj
      obtain rfl : p.1 = k := by simpa using hk
      have hkey := getElem?_keys_addTarget b.routingKey ⟨b.targetShard, b.queueId⟩
        (grouped_byKey config.bindings e.id).ascending
        (by rw [getElem?_map, hp]; rfl) (.inr hlt)
      rw [getElem?_map, Option.map_eq_some_iff] at hkey
      obtain ⟨p', hp', heq'⟩ := hkey
      refine ⟨p', ?_, by rw [heq']⟩
      rw [addBinding, byKey_append, if_neg (not_not.mpr hide)]
      exact hp'

end Aurum.Routing
