import Aurum.Routing.Compiler

/-!
# Routing — what a compiled table contains

A route id is the position of a route, so a compiled table is described
by the list of its routes in order: `slots`. Everything else follows from
it: the set stored at a position holds the targets of its slot
(`slotTargets`), and the direct index sends an exchange and a key to the
position of their slot. `Laid` is this description, kept by every step of
the compiler.

Route and set ids are `u32` in the source, so this speaks about tables
with fewer than `2^32` routes.
-/

namespace Aurum.Routing

open List Function RouteTable QueueSetEntry QueueTarget List.Pairwise

variable (bindings : List BindingDecl)

/-! ## Targets of a key -/

def BindingDecl.target (b : BindingDecl) : QueueTarget := ⟨b.targetShard, b.queueId⟩

/-- The targets bound under a key, in the order of the bindings. -/
def keyTargets (exchangeId : Nat) (key : Text) : List QueueTarget :=
  (bindings.filter fun b => b.exchangeId = exchangeId ∧ b.routingKey = key).map BindingDecl.target

/-- The keys ascend. -/
def Ascending (m : List (Text × List QueueTarget)) : Prop := m.Pairwise fun a b => a.1 < b.1

/-- **Where a key goes**: between the smaller and the larger keys, in the
place of its old entry if it has one. -/
theorem addTarget_split (key : Text) (t : QueueTarget) :
    ∀ {m : List (Text × List QueueTarget)}, Ascending m → ∃ pre post,
      ∃ old : Option (List QueueTarget), m = pre ++ ((old.map (key, ·)).toList ++ post) ∧
      addTarget key t m = pre ++ (key, old.getD [] ++ [t]) :: post ∧
      (∀ p ∈ pre, p.1 < key) ∧ ∀ p ∈ post, key < p.1
  | [], _ => ⟨[], [], none, rfl, rfl, fun _ h => (nomatch h), fun _ h => (nomatch h)⟩
  | (k, ts) :: rest, h => by
    obtain ⟨hk, hrest⟩ := pairwise_cons.mp h
    rw [addTarget]
    split
    · next heq =>
      subst heq
      exact ⟨[], rest, some ts, rfl, rfl, fun _ h => (nomatch h), hk⟩
    · next hne =>
      split
      · next hlt =>
        refine ⟨[], _, none, rfl, rfl, fun _ h => (nomatch h), forall_mem_cons.mpr ⟨hlt, ?_⟩⟩
        exact fun p hp => List.lt_trans hlt (hk p hp)
      · next hge =>
        obtain ⟨pre, post, old, hm, hadd, hpre, hpost⟩ := addTarget_split key t hrest
        refine ⟨(k, ts) :: pre, post, old, by rw [hm]; rfl, by rw [hadd]; rfl, ?_, hpost⟩
        exact forall_mem_cons.mpr ⟨Std.lt_of_le_of_ne (List.not_lt.mp hge) hne, hpre⟩

variable {m : List (Text × List QueueTarget)} {key : Text} {t : QueueTarget}
  {ts targets : List QueueTarget} {s i : Nat} {e : ExchangeDecl}

theorem ascending_addTarget (key : Text) (t : QueueTarget) (h : Ascending m) :
    Ascending (addTarget key t m) := by
  obtain ⟨pre, post, old, rfl, hadd, hpre, hpost⟩ := addTarget_split key t h
  obtain ⟨hpre', hrest, -⟩ := pairwise_append.mp h
  rw [hadd]
  refine pairwise_append.mpr ⟨hpre', pairwise_cons.mpr
    ⟨hpost, (pairwise_append.mp hrest).2.1⟩, fun a ha => forall_mem_cons.mpr ⟨hpre a ha, ?_⟩⟩
  exact fun b hb => List.lt_trans (hpre a ha) (hpost b hb)

theorem lookup_addTarget (key : Text) (t : QueueTarget) (k : Text)
    (m : List (Text × List QueueTarget)) (h : Ascending m) :
    ((addTarget key t m).lookup k).getD [] =
      (m.lookup k).getD [] ++ if k = key then [t] else [] := by
  obtain ⟨pre, post, old, rfl, hadd, hpre, hpost⟩ := addTarget_split key t h
  rw [hadd, lookup_append, lookup_append, lookup_append, lookup_cons]
  by_cases hk : k = key
  · subst hk
    have hout : ∀ l : List (Text × List QueueTarget), (∀ p ∈ l, k ≠ p.1) → l.lookup k = none :=
      fun l hl => lookup_eq_none_iff.mpr fun p hp => by simpa using hl p hp
    have hpre := hout pre fun p hp hc => List.lt_irrefl p.1 (hc ▸ hpre p hp)
    have hpost := hout post fun p hp hc => List.lt_irrefl p.1 (hc ▸ hpost p hp)
    cases old <;> simp [hpre, hpost]
  · cases old <;> simp [lookup_cons, beq_eq_false_iff_ne.mpr hk, hk]

/-- No key of the map has an empty list. -/
theorem nonempty_addTarget (h : Ascending m) (hm : ∀ p ∈ m, p.2 ≠ []) :
    ∀ p ∈ addTarget key t m, p.2 ≠ [] := by
  obtain ⟨pre, post, old, rfl, hadd, -, -⟩ := addTarget_split key t h
  intro p hp
  rw [hadd, mem_append, mem_cons] at hp
  rcases hp with hp | rfl | hp
  · exact hm p (mem_append_left _ hp)
  · simp
  · exact hm p (mem_append_right _ (mem_append_right _ hp))

theorem lookup_of_mem {k : Text} :
    ∀ {m : List (Text × List QueueTarget)}, Ascending m → (k, ts) ∈ m → m.lookup k = some ts
  | (k', ts') :: rest, h, hmem => by
    obtain ⟨hk', hrest⟩ := pairwise_cons.mp h
    rcases mem_cons.mp hmem with heq | hmem
    · obtain ⟨rfl, rfl⟩ := Prod.mk.inj heq
      simp
    · have hlt : k' < k := hk' _ hmem
      have hne : k ≠ k' := fun hc => List.lt_irrefl k' (by rwa [hc] at hlt)
      rw [lookup_cons, beq_eq_false_iff_ne.mpr hne]
      exact lookup_of_mem hrest hmem

/-- The map of `compile_direct` after the bindings `bindings`. -/
structure Grouped (bindings : List BindingDecl) (exchangeId : Nat)
    (m : List (Text × List QueueTarget)) : Prop where
  ascending : Ascending m
  nonempty : ∀ p ∈ m, p.2 ≠ []
  lookup : ∀ k, (m.lookup k).getD [] = keyTargets bindings exchangeId k

theorem grouped_foldl (exchangeId : Nat) : ∀ (bindings seen : List BindingDecl)
    (m : List (Text × List QueueTarget)), Grouped seen exchangeId m →
    Grouped (seen ++ bindings) exchangeId (bindings.foldl (fun m b =>
      if b.exchangeId ≠ exchangeId then m
      else addTarget b.routingKey ⟨b.targetShard, b.queueId⟩ m) m)
  | [], seen, m, h => by simpa using h
  | b :: bindings, seen, m, h => by
    rw [foldl_cons, append_cons seen b bindings]
    refine grouped_foldl exchangeId bindings (seen ++ [b]) _ ?_
    by_cases hb : b.exchangeId = exchangeId
    · rw [if_neg (not_not.mpr hb)]
      refine ⟨ascending_addTarget _ _ h.ascending, nonempty_addTarget h.ascending h.nonempty,
        fun k => ?_⟩
      rw [lookup_addTarget _ _ k m h.ascending, h.lookup, keyTargets, keyTargets,
        filter_append, map_append]
      by_cases hk : b.routingKey = k
      · simp [hb, hk, BindingDecl.target]
      · simp [hb, hk, Ne.symm hk]
    · rw [if_pos hb]
      refine ⟨h.ascending, h.nonempty, fun k => ?_⟩
      rw [h.lookup, keyTargets, keyTargets, filter_append]
      simp [hb]

theorem grouped_byKey (exchangeId : Nat) :
    Grouped bindings exchangeId (byKey bindings exchangeId) := by
  have h := grouped_foldl exchangeId bindings [] []
    ⟨nil, by simp, by simp [keyTargets]⟩
  rwa [nil_append] at h

/-- **`by_key`** holds every bound key with its targets. -/
theorem mem_byKey {bindings : List BindingDecl} {exchangeId : Nat} {k : Text} :
    (k, ts) ∈ byKey bindings exchangeId ↔
      ts = keyTargets bindings exchangeId k ∧ ts ≠ [] := by
  have h := grouped_byKey bindings exchangeId
  constructor
  · intro hmem
    have hlook := h.lookup k
    rw [lookup_of_mem h.ascending hmem] at hlook
    exact ⟨hlook, h.nonempty _ hmem⟩
  · rintro ⟨rfl, hne⟩
    rw [← h.lookup k] at hne ⊢
    cases hl : (byKey bindings exchangeId).lookup k with
    | none => simp [hl] at hne
    | some ts =>
      obtain ⟨l, r, heq, -⟩ := lookup_eq_some_iff.mp hl
      rw [heq]
      simp

/-! ## Queue sets -/

theorem nodup_eraseDups {α : Type} [DecidableEq α] (l : List α) : l.eraseDups.Nodup := by
  induction hn : l.length using Nat.strong_induction_on generalizing l with
  | _ n ih =>
    cases l with
    | nil => simp
    | cons a l =>
      rw [eraseDups_cons, nodup_cons]
      refine ⟨by simp, ih _ ?_ _ rfl⟩
      have := length_filter_le (fun b => !b == a) l
      simp only [length_cons] at hn
      omega

theorem nodup_dedupeTargets (targets : List QueueTarget) : (dedupeTargets targets).Nodup :=
  (perm_insertionSort _ _).nodup_iff.mpr (nodup_eraseDups targets)

theorem mem_dedupeTargets : t ∈ dedupeTargets targets ↔ t ∈ targets := by
  rw [dedupeTargets, mem_insertionSort, mem_eraseDups]

theorem dedupeTargets_eq_nil : dedupeTargets targets = [] ↔ targets = [] := by
  rw [eq_nil_iff_forall_not_mem, eq_nil_iff_forall_not_mem]
  exact forall_congr' fun t => not_congr mem_dedupeTargets

theorem mem_insertShard {shardId : Nat} : ∀ {l : List Nat},
    s ∈ insertShard shardId l ↔ s = shardId ∨ s ∈ l
  | [] => by simp [insertShard]
  | x :: l => by
    rw [insertShard]
    split
    · next h => simp [h]
    · split
      · simp
      · rw [mem_cons, mem_insertShard, mem_cons]
        tauto

theorem ascending_insertShard (shardId : Nat) : ∀ {l : List Nat},
    l.Pairwise (· < ·) → (insertShard shardId l).Pairwise (· < ·)
  | [], _ => pairwise_singleton _ _
  | x :: l, h => by
    obtain ⟨hx, hl⟩ := pairwise_cons.mp h
    rw [insertShard]
    split
    · exact h
    · split
      · refine pairwise_cons.mpr ⟨fun y hy => ?_, h⟩
        rcases mem_cons.mp hy with rfl | hy
        · assumption
        · have := hx y hy
          omega
      · refine pairwise_cons.mpr ⟨fun y hy => ?_, ascending_insertShard shardId hl⟩
        rcases mem_insertShard.mp hy with rfl | hy
        · omega
        · exact hx y hy

theorem shardGroups_foldl : ∀ (targets : List QueueTarget) (l : List Nat), l.Pairwise (· < ·) →
    (targets.foldl (fun shards t => insertShard t.shardId shards) l).Pairwise (· < ·) ∧
    ∀ s, s ∈ targets.foldl (fun shards t => insertShard t.shardId shards) l ↔
      s ∈ l ∨ ∃ t ∈ targets, t.shardId = s
  | [], l, h => ⟨h, by simp⟩
  | t :: targets, l, h => by
    obtain ⟨h1, h2⟩ := shardGroups_foldl targets _ (ascending_insertShard t.shardId h)
    refine ⟨h1, fun s => (h2 s).trans ?_⟩
    rw [mem_insertShard, exists_mem_cons_iff, eq_comm]
    tauto

theorem nodup_shardGroups (targets : List QueueTarget) : (shardGroups targets).Nodup :=
  (shardGroups_foldl targets [] nil).1.imp fun h => Nat.ne_of_lt h

theorem mem_shardGroups : s ∈ shardGroups targets ↔ ∃ t ∈ targets, t.shardId = s := by
  rw [shardGroups, (shardGroups_foldl targets [] nil).2]
  simp

theorem shardQueues_foldl (s : Nat) : ∀ (targets : List QueueTarget) (l : List Nat), l.Nodup →
    (targets.foldl (fun queues t =>
      if t.shardId = s ∧ t.queueId ∉ queues then queues ++ [t.queueId] else queues) l).Nodup ∧
    ∀ x, x ∈ targets.foldl (fun queues t =>
      if t.shardId = s ∧ t.queueId ∉ queues then queues ++ [t.queueId] else queues) l ↔
      x ∈ l ∨ ⟨s, x⟩ ∈ targets
  | [], l, h => ⟨h, by simp⟩
  | t :: targets, l, h => by
    rw [foldl_cons]
    obtain ⟨shard, queue⟩ := t
    by_cases hc : shard = s ∧ queue ∉ l
    · have hl : (l ++ [queue]).Nodup := by
        rw [nodup_append]
        refine ⟨h, by simp, ?_⟩
        rintro a ha b hb rfl
        exact hc.2 (by rwa [mem_singleton.mp hb] at ha)
      obtain ⟨h1, h2⟩ := shardQueues_foldl s targets _ hl
      rw [if_pos hc]
      refine ⟨h1, fun x => (h2 x).trans ?_⟩
      simp only [mem_append, mem_cons, QueueTarget.mk.injEq]
      have := hc.1
      tauto
    · obtain ⟨h1, h2⟩ := shardQueues_foldl s targets l h
      rw [if_neg hc]
      refine ⟨h1, fun x => (h2 x).trans ?_⟩
      simp only [mem_cons, QueueTarget.mk.injEq]
      constructor
      · tauto
      · rintro (hx | ⟨rfl, rfl⟩ | hx)
        · exact .inl hx
        · exact .inl (by tauto)
        · exact .inr hx

theorem nodup_shardQueues (targets : List QueueTarget) (s : Nat) : (shardQueues targets s).Nodup :=
  (shardQueues_foldl s targets [] nodup_nil).1

theorem mem_shardQueues {x : Nat} : x ∈ shardQueues targets s ↔ ⟨s, x⟩ ∈ targets := by
  rw [shardQueues, (shardQueues_foldl s targets [] nodup_nil).2]
  simp

namespace QueueSetEntry

/-- **`target_count`** is the number of targets, in every representation. -/
theorem targetCount_eq (set : QueueSetEntry) : set.targetCount = set.targetsVec.length := by
  cases set with
  | empty => rfl
  | one t => rfl
  | small targets => rfl
  | shardGrouped groups => simp [targetCount, targetsVec, length_flatMap]

/-- **`build`** keeps the targets, whichever representation it chooses. -/
theorem mem_targetsVec_build : t ∈ (build targets).targetsVec ↔ t ∈ targets := by
  unfold build
  split
  · rfl
  · rfl
  · split
    · rfl
    · obtain ⟨s, x⟩ := t
      simp only [targetsVec, mem_flatMap, mem_map, exists_exists_and_eq_and,
        QueueTarget.mk.injEq]
      constructor
      · rintro ⟨s', hs', x', hx', rfl, rfl⟩
        exact mem_shardQueues.mp hx'
      · intro hmem
        exact ⟨s, mem_shardGroups.mpr ⟨_, hmem, rfl⟩, x, mem_shardQueues.mpr hmem, rfl, rfl⟩

theorem nodup_targetsVec_build (h : targets.Nodup) : (build targets).targetsVec.Nodup := by
  unfold build
  split
  · exact nodup_nil
  · exact nodup_singleton _
  · split
    · exact h
    · rw [targetsVec, flatMap_map, nodup_flatMap]
      refine ⟨fun s _ => ?_, ?_⟩
      · exact (nodup_shardQueues targets s).map fun a b hab => (mk.inj hab).2
      · refine (nodup_shardGroups targets).imp fun {s s'} hne => ?_
        intro t ht ht'
        obtain ⟨x, -, rfl⟩ := mem_map.mp ht
        obtain ⟨x', -, heq⟩ := mem_map.mp ht'
        exact hne (mk.inj heq).1.symm

theorem build_eq_empty : build targets = .empty ↔ targets = [] := by
  unfold build
  split
  · simp
  · simp
  · next h1 h2 => split <;> simpa using h1

end QueueSetEntry

/-! ## The layout -/

/-- A route of a table: an exchange and, for a direct one, a key. -/
structure Slot where
  exchangeId : Nat
  key : Option Text
deriving DecidableEq, Repr

/-- The slot a lookup of the key at the exchange belongs to. -/
def ExchangeDecl.slot (e : ExchangeDecl) (key : Text) : Slot :=
  ⟨e.id, if e.kind = .direct then some key else none⟩

/-- The targets of a slot, as they are stored. -/
def slotTargets (config : RoutingConfig) (s : Slot) : List QueueTarget :=
  dedupeTargets (match s.key with
    | some key => keyTargets config.bindings s.exchangeId key
    | none => fanoutTargets config.bindings s.exchangeId)

def slotsOf (config : RoutingConfig) (e : ExchangeDecl) : List Slot :=
  match e.kind with
  | .direct => (byKey config.bindings e.id).map fun p => ⟨e.id, some p.1⟩
  | .fanout => [⟨e.id, none⟩]
  | .topic | .headers => []

/-- The routes of the compiled table, in order. -/
def slots (config : RoutingConfig) : List Slot := config.exchanges.flatMap (slotsOf config)

/-- The entries and the queue sets are those of the slots. -/
structure Stored (config : RoutingConfig) (slots : List Slot) (table : RouteTable) : Prop where
  version : table.version = config.version
  sets : table.queueSets = slots.map fun s => .build (slotTargets config s)
  length : table.routeEntries.length = slots.length
  entries : ∀ (i : Nat) (entry : RouteEntry), table.routeEntries[i]? = some entry →
    entry.generation = 1 ∧ entry.queueSetId = i ∧
      ∀ s, slots[i]? = some s → (entry.flags.unroutable = true ↔ slotTargets config s = [])

/-- **The table is laid out as the slots say.** -/
structure Laid (config : RoutingConfig) (slots : List Slot) (table : RouteTable) : Prop
    extends Stored config slots table where
  index : ∀ e k r, table.directIndex e k = some r ↔
    ∃ i, r = ⟨i, 1⟩ ∧ slots[i]? = some ⟨e, some k⟩

/-- The exchanges `done` can be looked up. -/
structure Declares (done : List ExchangeDecl) (slots : List Slot) (table : RouteTable) :
    Prop where
  known : ∀ e ∈ done, ∃ (j : Nat) (x : CompiledExchange),
    table.exchangeById e.id = some j ∧ table.exchanges[j]? = some x ∧
    x.kind = e.kind ∧
    (e.kind = .fanout → ∃ i, x.fanoutRouteIndex = some i ∧ slots[i]? = some ⟨e.id, none⟩)
  unknown : ∀ id, id ∉ done.map ExchangeDecl.id → table.exchangeById id = none
  names : ∀ n, table.exchangeNames n = (done.reverse.find? (·.name = n)).map ExchangeDecl.id

variable {config : RoutingConfig} {ss ss' : List Slot} {table : RouteTable}
  {done : List ExchangeDecl} {s : Slot}

theorem getElem?_snoc {α : Type} {l : List α} {a b : α} (h : (l ++ [a])[i]? = some b) :
    l[i]? = some b ∨ (i = l.length ∧ b = a) := by
  rcases Nat.lt_trichotomy i l.length with hlt | rfl | hgt
  · rw [getElem?_append_left hlt] at h
    exact .inl h
  · rw [getElem?_append_right (Nat.le_refl _), Nat.sub_self] at h
    exact .inr ⟨rfl, by simpa using h.symm⟩
  · rw [getElem?_eq_none (by simp; omega)] at h
    cases h

theorem getElem?_snoc_of_ne {α : Type} {l : List α} {a b : α} (hne : b ≠ a) :
    (l ++ [a])[i]? = some b ↔ l[i]? = some b := by
  refine ⟨fun h => (getElem?_snoc h).resolve_right fun hlast => hne hlast.2, fun h => ?_⟩
  rw [getElem?_append_left (List.getElem?_eq_some_iff.mp h).1, h]

/-- `push` of a set and `push_route_entry`. -/
theorem Stored.pushRoute (h : Stored config ss table) (s : Slot) {flags : RouteFlags}
    (hflags : flags.unroutable = true ↔ slotTargets config s = []) :
    Stored config (ss ++ [s])
      (table.pushRoute s.exchangeId flags (.build (slotTargets config s))).1 where
  version := h.version
  sets := by simp [RouteTable.pushRoute, h.sets]
  length := by simp [RouteTable.pushRoute, h.length]
  entries := fun i entry hi => by
    rcases getElem?_snoc hi with hi | ⟨rfl, rfl⟩
    · obtain ⟨h1, h2, h3⟩ := h.entries i entry hi
      refine ⟨h1, h2, fun s' hs' => h3 s' ?_⟩
      have hlt : i < ss.length := by
        rw [← h.length]
        exact (List.getElem?_eq_some_iff.mp hi).1
      rwa [getElem?_append_left hlt] at hs'
    · refine ⟨rfl, by simp [h.sets, h.length], fun s' hs' => ?_⟩
      rw [h.length, getElem?_append_right (Nat.le_refl _), Nat.sub_self] at hs'
      obtain rfl : s = s' := by simpa using hs'
      exact hflags

theorem unroutable_routeFlags (base : RouteFlags) (hbase : base.unroutable = false)
    (targets : List QueueTarget) :
    (routeFlagsForEntry (.build targets) base).unroutable = true ↔ targets = [] := by
  rw [← build_eq_empty]
  unfold routeFlagsForEntry
  cases build targets with
  | empty => simp
  | one t => simp [hbase]
  | small ts =>
    by_cases hlen : 1 < ts.length
    · simp [hlen, hbase]
    · simp [hlen, hbase]
  | shardGrouped groups => simp [hbase]

/-- One key of a direct exchange. -/
theorem Laid.pushKey (h : Laid config ss table) {e : Nat} {p : Text × List QueueTarget}
    (hp : p ∈ byKey config.bindings e) (hnew : ⟨e, some p.1⟩ ∉ ss) :
    Laid config (ss ++ [⟨e, some p.1⟩]) (compileKey e table p) := by
  have htargets : dedupeTargets p.2 = slotTargets config ⟨e, some p.1⟩ := by
    rw [slotTargets, (mem_byKey.mp (show (p.1, p.2) ∈ _ from hp)).1]
  have hstored := h.toStored.pushRoute ⟨e, some p.1⟩
    (unroutable_routeFlags ⟨false, true, false, false⟩ rfl _)
  unfold compileKey
  rw [htargets]
  refine ⟨⟨hstored.version, hstored.sets, hstored.length, hstored.entries⟩, fun e' k r => ?_⟩
  simp only [mapDirect, pushRoute]
  by_cases hkey : e' = e ∧ k = p.1
  · obtain ⟨rfl, rfl⟩ := hkey
    rw [update_self, update_self, h.length]
    constructor
    · intro hr
      exact ⟨ss.length, (Option.some.inj hr).symm, by simp⟩
    · rintro ⟨i, rfl, hi⟩
      rcases getElem?_snoc hi with hi | ⟨rfl, -⟩
      · exact absurd (mem_of_getElem? hi) hnew
      · rfl
  · have hold : (Function.update table.directIndex e
        (Function.update (table.directIndex e) p.1 (some ⟨table.routeEntries.length, 1⟩))) e' k =
        table.directIndex e' k := by
      by_cases he : e' = e
      · subst he
        rw [update_self, update_of_ne fun hk => hkey ⟨rfl, hk⟩]
      · rw [update_of_ne he]
    rw [hold, h.index]
    exact exists_congr fun i => and_congr_right fun _ =>
      (getElem?_snoc_of_ne fun heq => hkey (by simpa using heq)).symm

theorem Laid.pushExchange (h : Laid config ss table) (x : CompiledExchange) (name : Text) :
    Laid config ss (table.pushExchange x name) :=
  ⟨⟨h.version, h.sets, h.length, h.entries⟩, h.index⟩

/-- The loop of `compile_direct`. -/
theorem Laid.pushKeys {e : Nat} : ∀ {l : List (Text × List QueueTarget)} {ss : List Slot}
    {table : RouteTable}, Laid config ss table → (∀ p ∈ l, p ∈ byKey config.bindings e) →
    (l.map Prod.fst).Nodup → (∀ p ∈ l, ⟨e, some p.1⟩ ∉ ss) →
    Laid config (ss ++ l.map fun p => ⟨e, some p.1⟩) (l.foldl (compileKey e) table)
  | [], _, _, h, _, _, _ => by simpa using h
  | p :: l, ss, table, h, hmem, hnd, hnew => by
    rw [map_cons, nodup_cons] at hnd
    have hstep := h.pushKey (hmem p (by simp)) (hnew p (by simp))
    rw [foldl_cons, map_cons, append_cons]
    refine Laid.pushKeys hstep (fun p' hp' => hmem p' (by simp [hp'])) hnd.2 fun p' hp' => ?_
    rw [mem_append, mem_singleton, not_or]
    refine ⟨hnew p' (by simp [hp']), fun hc => hnd.1 ?_⟩
    have hkey : p'.1 = p.1 := by simpa using hc
    exact hkey ▸ mem_map_of_mem hp'

theorem nodup_keys (e : Nat) : ((byKey bindings e).map Prod.fst).Nodup := by
  rw [nodup_iff_pairwise_ne, pairwise_map]
  refine (grouped_byKey bindings e).ascending.imp fun {a b} hlt heq => ?_
  rw [heq] at hlt
  exact List.lt_irrefl _ hlt

/-- The exchanges looked up stay where they are. -/
theorem Declares.pushExchange (h : Declares done ss table)
    (hnew : e.id ∉ done.map ExchangeDecl.id) (x : CompiledExchange) (hid : x.id = e.id)
    (hkind : x.kind = e.kind) (hss : ∃ new, ss' = ss ++ new)
    (hfan : e.kind = .fanout → ∃ i, x.fanoutRouteIndex = some i ∧ ss'[i]? = some ⟨e.id, none⟩) :
    Declares (done ++ [e]) ss' (table.pushExchange x e.name) where
  known := fun e' he' => by
    obtain ⟨new, rfl⟩ := hss
    rw [mem_append, mem_singleton] at he'
    simp only [RouteTable.pushExchange, hid]
    rcases he' with he' | rfl
    · obtain ⟨j, y, h1, h2, h3, h4⟩ := h.known e' he'
      have hne : e'.id ≠ e.id := fun hc => hnew (hc ▸ mem_map_of_mem he')
      refine ⟨j, y, by rw [update_of_ne hne, h1], ?_, h3, fun hf => ?_⟩
      · rw [getElem?_append_left (List.getElem?_eq_some_iff.mp h2).1, h2]
      · obtain ⟨i, h5, h6⟩ := h4 hf
        refine ⟨i, h5, ?_⟩
        rw [getElem?_append_left (List.getElem?_eq_some_iff.mp h6).1, h6]
    · exact ⟨table.exchanges.length, x, by simp, by simp, hkind, hfan⟩
  unknown := fun id hn => by
    rw [map_append, mem_append, map_singleton, mem_singleton, not_or] at hn
    rw [RouteTable.pushExchange, hid]
    exact (update_of_ne hn.2 _ _).trans (h.unknown id hn.1)
  names := fun n => by
    simp only [RouteTable.pushExchange, hid, reverse_append, reverse_singleton,
      singleton_append]
    by_cases hn : n = e.name
    · subst hn
      simp
    · rw [update_of_ne hn, h.names, find?_cons_of_neg (by simpa using Ne.symm hn)]

/-- The table after the exchanges `done`. -/
structure Compiled (config : RoutingConfig) (done : List ExchangeDecl) (table : RouteTable) :
    Prop where
  laid : Laid config (done.flatMap (slotsOf config)) table
  declares : Declares done (done.flatMap (slotsOf config)) table

theorem exchangeId_of_mem_slotsOf (h : s ∈ slotsOf config e) : s.exchangeId = e.id := by
  unfold slotsOf at h
  split at h
  · obtain ⟨p, -, rfl⟩ := mem_map.mp h
    rfl
  · rw [mem_singleton.mp h]
  · simp at h
  · simp at h

/-- **One exchange** of the loop of `compile`. -/
theorem Compiled.exchange (h : Compiled config done table)
    (hnew : e.id ∉ done.map ExchangeDecl.id) {table' : RouteTable}
    (hstep : compileExchange config table e = .ok table') :
    Compiled config (done ++ [e]) table' := by
  have hslots : (done ++ [e]).flatMap (slotsOf config) =
      done.flatMap (slotsOf config) ++ slotsOf config e := by simp
  have hfresh : ∀ key, ⟨e.id, key⟩ ∉ done.flatMap (slotsOf config) := by
    intro key hc
    obtain ⟨e', he', hmem⟩ := mem_flatMap.mp hc
    have hid : e.id = e'.id := exchangeId_of_mem_slotsOf hmem
    exact hnew (hid ▸ mem_map_of_mem he')
  unfold compileExchange at hstep
  cases hk : e.kind with
  | direct =>
    simp only [hk, Except.ok.injEq] at hstep
    subst hstep
    have hof : slotsOf config e = (byKey config.bindings e.id).map fun p => ⟨e.id, some p.1⟩ := by
      simp [slotsOf, hk]
    have hkeys := (h.laid.pushExchange ⟨e.id, .direct, none⟩ e.name).pushKeys
      (fun p hp => hp) (nodup_keys _ _) fun p _ => hfresh (some p.1)
    have hdecl := h.declares.pushExchange hnew ⟨e.id, .direct, none⟩ rfl hk.symm
      ⟨slotsOf config e, rfl⟩ fun hf => by simp [hk] at hf
    -- the keys of the exchange leave the exchanges alone
    have hframe : ∀ (l : List (Text × List QueueTarget)) (t : RouteTable),
        (l.foldl (compileKey e.id) t).exchangeById = t.exchangeById ∧
        (l.foldl (compileKey e.id) t).exchanges = t.exchanges ∧
        (l.foldl (compileKey e.id) t).exchangeNames = t.exchangeNames := by
      intro l
      induction l with
      | nil => exact fun t => ⟨rfl, rfl, rfl⟩
      | cons p l ih => exact fun t => ih (compileKey e.id t p)
    obtain ⟨f1, f2, f3⟩ := hframe (byKey config.bindings e.id)
      (table.pushExchange ⟨e.id, .direct, none⟩ e.name)
    refine ⟨?_, ?_⟩
    · rw [hslots, hof]
      exact hkeys
    · rw [hslots]
      refine ⟨fun e' he' => ?_, fun id hid => ?_, fun n => ?_⟩
      · simp only [compileDirect, f1, f2]
        exact hdecl.known e' he'
      · simp only [compileDirect, f1]
        exact hdecl.unknown id hid
      · simp only [compileDirect, f3]
        exact hdecl.names n
  | fanout =>
    simp only [hk, Except.ok.injEq] at hstep
    subst hstep
    have hof : slotsOf config e = [⟨e.id, none⟩] := by simp [slotsOf, hk]
    have htargets : dedupeTargets (fanoutTargets config.bindings e.id) =
        slotTargets config ⟨e.id, none⟩ := rfl
    simp only [compileFanout, htargets]
    generalize hfl : (if slotTargets config ⟨e.id, none⟩ = [] then _ else _ : RouteFlags) = flags
    have hflags : flags.unroutable = true ↔ slotTargets config ⟨e.id, none⟩ = [] := by
      rw [← hfl]
      split
      · next hnil => simp [hnil]
      · exact unroutable_routeFlags ⟨true, false, false, false⟩ rfl _
    have hstored := h.laid.toStored.pushRoute ⟨e.id, none⟩ hflags
    refine ⟨?_, ?_⟩
    · rw [hslots, hof]
      refine Laid.pushExchange ⟨hstored, fun e' k r => ?_⟩ _ _
      exact (h.laid.index e' k r).trans (exists_congr fun i => and_congr_right fun _ =>
        (getElem?_snoc_of_ne (by simp)).symm)
    · rw [hslots, hof]
      have hpushed : Declares done (done.flatMap (slotsOf config))
          (table.pushRoute e.id flags (.build (slotTargets config ⟨e.id, none⟩))).1 :=
        ⟨h.declares.known, h.declares.unknown, h.declares.names⟩
      refine hpushed.pushExchange hnew _ rfl hk.symm ⟨_, rfl⟩ fun _ =>
        ⟨table.routeEntries.length, rfl, ?_⟩
      rw [h.laid.length]
      simp
  | topic => simp [hk] at hstep
  | headers => simp [hk] at hstep

theorem kind_of_compileExchange {table' : RouteTable}
    (hstep : compileExchange config table e = .ok table') :
    e.kind = .direct ∨ e.kind = .fanout := by
  unfold compileExchange at hstep
  split at hstep <;> simp_all

/-- The loop of `compile`; it gets through with exchanges of two kinds. -/
theorem compiled_foldlM : ∀ (rest done : List ExchangeDecl) {table table' : RouteTable},
    Compiled config done table → ((done ++ rest).map ExchangeDecl.id).Nodup →
    rest.foldlM (compileExchange config) table = .ok table' →
    Compiled config (done ++ rest) table' ∧ ∀ e ∈ rest, e.kind = .direct ∨ e.kind = .fanout
  | [], done, table, table', h, _, hrun => by
    obtain rfl : table = table' := by simpa [pure, Except.pure] using hrun
    exact ⟨by simpa using h, fun _ he => (nomatch he)⟩
  | e :: rest, done, table, table', h, hnd, hrun => by
    rw [foldlM_cons] at hrun
    cases hstep : compileExchange config table e with
    | error err => simp [hstep, bind, Except.bind] at hrun
    | ok t =>
      rw [hstep] at hrun
      have hnew : e.id ∉ done.map ExchangeDecl.id := by
        rw [map_append, map_cons, nodup_append] at hnd
        exact fun hc => hnd.2.2 _ hc _ mem_cons_self rfl
      rw [append_cons] at hnd ⊢
      obtain ⟨hall, hkinds⟩ := compiled_foldlM rest (done ++ [e]) (h.exchange hnew hstep) hnd hrun
      exact ⟨hall, forall_mem_cons.mpr ⟨kind_of_compileExchange hstep, hkinds⟩⟩

theorem compile_ok {config : RoutingConfig} {table : RouteTable} (h : compile config = .ok table) :
    (config.exchanges.map ExchangeDecl.id).Nodup ∧
    (∀ b ∈ config.bindings, b.exchangeId ∈ config.exchanges.map ExchangeDecl.id) ∧
    config.exchanges.foldlM (compileExchange config) (newEmpty config.version) =
      .ok table := by
  unfold compile at h
  split at h
  · cases h
  split at h
  · cases h
  split at h
  · cases h
  · next hnd hb => exact ⟨not_not.mp hnd, not_not.mp hb, h⟩

theorem compile_compiled (h : compile config = .ok table) : Compiled config config.exchanges table ∧
      ∀ e ∈ config.exchanges, e.kind = .direct ∨ e.kind = .fanout := by
  obtain ⟨hnd, -, hrun⟩ := compile_ok h
  have hempty : Compiled config [] (newEmpty config.version) :=
    ⟨⟨⟨rfl, rfl, rfl, by simp [newEmpty]⟩, by simp [newEmpty]⟩,
      ⟨by simp, fun _ _ => rfl, fun _ => rfl⟩⟩
  have hall := compiled_foldlM config.exchanges [] hempty (by simpa using hnd) hrun
  simpa using hall

/-- **The compiled table is laid out as `slots` says.** -/
theorem compile_spec (h : compile config = .ok table) : Compiled config config.exchanges table :=
  (compile_compiled h).1

theorem kind_of_compile (h : compile config = .ok table) (he : e ∈ config.exchanges) :
    e.kind = .direct ∨ e.kind = .fanout := (compile_compiled h).2 e he

/-! ## Lookups -/

/-- The queue is bound to the exchange under the key; a fanout exchange
ignores keys. -/
def Bound (config : RoutingConfig) (e : ExchangeDecl) (key : Text) (t : QueueTarget) : Prop :=
  ∃ b ∈ config.bindings, b.exchangeId = e.id ∧ (e.kind = .direct → b.routingKey = key) ∧
    b.target = t

theorem mem_slotTargets : t ∈ slotTargets config (e.slot key) ↔ Bound config e key t := by
  rw [slotTargets, mem_dedupeTargets, Bound, ExchangeDecl.slot]
  by_cases hk : e.kind = .direct
  · simp [hk, keyTargets, and_assoc]
  · simp [hk, fanoutTargets, BindingDecl.target, and_assoc]

theorem slotTargets_ne_nil : slotTargets config (e.slot key) ≠ [] ↔ ∃ t, Bound config e key t := by
  rw [ne_eq, eq_nil_iff_forall_not_mem]
  push Not
  exact exists_congr fun t => mem_slotTargets

/-- A route with targets is stored at its slot. -/
theorem Stored.entry (h : Stored config ss table) (hi : ss[i]? = some s) :
    ∃ entry, table.routeEntries[i]? = some entry ∧ entry.generation = 1 ∧
      entry.flags.unroutable = decide (slotTargets config s = []) ∧
      table.queueSets[entry.queueSetId]? = some (.build (slotTargets config s)) := by
  have hlt : i < table.routeEntries.length := by
    rw [h.length]
    exact (List.getElem?_eq_some_iff.mp hi).1
  obtain ⟨h1, h2, h3⟩ := h.entries i _ (getElem?_eq_getElem hlt)
  refine ⟨_, getElem?_eq_getElem hlt, h1, by rw [Bool.eq_iff_iff, h3 s hi]; simp, ?_⟩
  rw [h2, h.sets, getElem?_map, hi]
  rfl

/-- What a lookup by exchange and key finds. -/
theorem Compiled.resolve (h : Compiled config config.exchanges table) (he : e ∈ config.exchanges)
    (hkind : e.kind = .direct ∨ e.kind = .fanout) (key : Text) :
    (slotTargets config (e.slot key) = [] → table.resolveDirect e.id key = .error .unroutable) ∧
    (slotTargets config (e.slot key) ≠ [] → ∃ i flags,
      (slots config)[i]? = some (e.slot key) ∧
      table.resolveDirect e.id key = .ok ⟨⟨i, 1⟩, config.version, flags⟩) := by
  obtain ⟨j, x, h1, h2, h3, h4⟩ := h.declares.known e he
  have hlook : ((table.exchangeById e.id).bind fun i => table.exchanges[i]?) = some x := by
    rw [h1, Option.bind_some, h2]
  -- where the slot stands, if it exists
  have hroute : ∀ i, (slots config)[i]? = some (e.slot key) →
      (slotTargets config (e.slot key) = [] → table.routeAt ⟨i, 1⟩ = .error .unroutable) ∧
      (slotTargets config (e.slot key) ≠ [] → ∃ flags,
        table.routeAt ⟨i, 1⟩ = .ok ⟨⟨i, 1⟩, config.version, flags⟩) ∧
      ((table.routeEntries[i]?).map RouteEntry.generation).getD 0 = 1 := by
    intro i hi
    obtain ⟨entry, g1, g2, g3, -⟩ := h.laid.toStored.entry hi
    rw [routeAt, g1]
    exact ⟨fun hnil => by simp [g3, hnil],
      fun hne => ⟨entry.flags, by simp [g3, hne, h.laid.version]⟩, by simp [g2]⟩
  rw [resolveDirect, hlook]
  rcases hkind with hk | hk
  · -- direct: the index holds the bound keys
    have hslot : e.slot key = ⟨e.id, some key⟩ := by simp [ExchangeDecl.slot, hk]
    rw [hk] at h3
    simp only [h3]
    cases hix : table.directIndex e.id key with
    | none =>
      refine ⟨fun _ => rfl, fun hne => ?_⟩
      have hmem : (⟨e.id, some key⟩ : Slot) ∈ slots config := by
        refine mem_flatMap.mpr ⟨e, he, ?_⟩
        simp only [slotsOf, hk, mem_map]
        refine ⟨(key, keyTargets config.bindings e.id key), mem_byKey.mpr ⟨rfl, ?_⟩, rfl⟩
        rw [hslot, slotTargets] at hne
        exact fun hc => hne (dedupeTargets_eq_nil.mpr hc)
      obtain ⟨i, hi, heq⟩ := mem_iff_getElem.mp hmem
      have hfound := (h.laid.index e.id key ⟨i, 1⟩).mpr
        ⟨i, rfl, by rw [← heq]; exact getElem?_eq_getElem hi⟩
      rw [hix] at hfound
      cases hfound
    | some r =>
      obtain ⟨i, rfl, hi⟩ := (h.laid.index e.id key r).mp hix
      have hi' : (slots config)[i]? = some (e.slot key) := hslot ▸ hi
      obtain ⟨g1, g2, -⟩ := hroute i hi'
      exact ⟨g1, fun hne => ⟨i, (g2 hne).imp fun _ hr => ⟨hi', hr⟩⟩⟩
  · -- fanout: the exchange knows its route
    have hslot : e.slot key = ⟨e.id, none⟩ := by simp [ExchangeDecl.slot, hk]
    obtain ⟨i, hfan, hi⟩ := h4 hk
    have hi' : (slots config)[i]? = some (e.slot key) := hslot ▸ hi
    obtain ⟨g1, g2, g3⟩ := hroute i hi'
    rw [hk] at h3
    simp only [h3, hfan, g3]
    exact ⟨g1, fun hne => ⟨i, (g2 hne).imp fun _ hr => ⟨hi', hr⟩⟩⟩

/-- What a lookup by the id of a slot finds. -/
theorem Compiled.get (h : Compiled config config.exchanges table)
    (hi : (slots config)[i]? = some s) (hne : slotTargets config s ≠ []) :
    table.getByRouteId ⟨i, 1⟩ config.version = .ok (.build (slotTargets config s)) := by
  obtain ⟨entry, g1, g2, g3, g4⟩ := h.laid.toStored.entry hi
  simp [getByRouteId, h.laid.version, g1, g2, g4, g3, hne]

/-- The targets a lookup by exchange and key, and then by the id it
returned, arrives at. -/
def RouteTable.lookup (table : RouteTable) (exchangeId : Nat) (key : Text) : Option QueueSetEntry :=
  match table.resolveDirect exchangeId key with
  | .ok r => (table.getByRouteId r.routeId r.version).toOption
  | .error _ => none

theorem Compiled.lookup_eq (h : Compiled config config.exchanges table)
    (he : e ∈ config.exchanges) (hkind : e.kind = .direct ∨ e.kind = .fanout) (key : Text) :
    table.lookup e.id key = if slotTargets config (e.slot key) = [] then none
      else some (.build (slotTargets config (e.slot key))) := by
  obtain ⟨hnone, hsome⟩ := h.resolve he hkind key
  rw [RouteTable.lookup]
  by_cases hne : slotTargets config (e.slot key) = []
  · rw [hnone hne, if_pos hne]
  · obtain ⟨i, flags, hi, hres⟩ := hsome hne
    rw [hres, if_neg hne]
    simp [h.get hi hne, Except.toOption]

/-- **Route compilation is correct.** In the table compiled from an
accepted configuration, a declared exchange and a key resolve exactly
when something is bound there; the id and version returned lead to the
bound targets, each once, counted by `target_count`. An exchange that was
not declared does not resolve. Which targets are found depends only on
the set of bindings. -/
theorem compile_correct (config : RoutingConfig) (table : RouteTable)
    (h : compile config = .ok table) :
    (∀ e ∈ config.exchanges, ∀ key,
      ((∃ t, Bound config e key t) → ∃ r set, table.resolveDirect e.id key = .ok r ∧
        table.getByRouteId r.routeId r.version = .ok set ∧ set.targetsVec.Nodup ∧
        (∀ t, t ∈ set.targetsVec ↔ Bound config e key t) ∧
        set.targetCount = set.targetsVec.length) ∧
      ((¬ ∃ t, Bound config e key t) → table.resolveDirect e.id key = .error .unroutable)) ∧
    (∀ id ∉ config.exchanges.map ExchangeDecl.id, ∀ key,
      table.resolveDirect id key = .error .exchangeNotFound) ∧
    (∀ config' table', compile config' = .ok table' → config'.exchanges = config.exchanges →
      (∀ b, b ∈ config'.bindings ↔ b ∈ config.bindings) → ∀ e ∈ config.exchanges, ∀ key,
        ((table'.lookup e.id key).isSome ↔ (table.lookup e.id key).isSome) ∧
        ∀ set' ∈ table'.lookup e.id key, ∀ set ∈ table.lookup e.id key, ∀ t,
          t ∈ set'.targetsVec ↔ t ∈ set.targetsVec) := by
  have hspec := compile_spec h
  refine ⟨fun e he key => ?_, fun id hid key => ?_, fun config' table' h' hex hset e he key => ?_⟩
  · obtain ⟨hnone, hsome⟩ := hspec.resolve he (kind_of_compile h he) key
    refine ⟨fun hb => ?_, fun hb => hnone (by_contra fun hc => hb (slotTargets_ne_nil.mp hc))⟩
    have hne := slotTargets_ne_nil.mpr hb
    obtain ⟨i, flags, hi, hres⟩ := hsome hne
    refine ⟨_, _, hres, hspec.get hi hne, ?_, fun t => ?_, QueueSetEntry.targetCount_eq _⟩
    · exact QueueSetEntry.nodup_targetsVec_build (nodup_dedupeTargets _)
    · rw [QueueSetEntry.mem_targetsVec_build, mem_slotTargets]
  · simp [RouteTable.resolveDirect, hspec.declares.unknown id hid]
  · have hbound : ∀ t, t ∈ slotTargets config' (e.slot key) ↔
        t ∈ slotTargets config (e.slot key) := fun t => by
      rw [mem_slotTargets, mem_slotTargets, Bound, Bound]
      exact exists_congr fun b => and_congr_left fun _ => hset b
    have hnil : slotTargets config' (e.slot key) = [] ↔ slotTargets config (e.slot key) = [] := by
      rw [eq_nil_iff_forall_not_mem, eq_nil_iff_forall_not_mem]
      exact forall_congr' fun t => not_congr (hbound t)
    have he' : e ∈ config'.exchanges := hex ▸ he
    rw [(compile_spec h').lookup_eq he' (kind_of_compile h' he') key,
      hspec.lookup_eq he (kind_of_compile h he) key]
    by_cases hc : slotTargets config (e.slot key) = []
    · simp [hc, hnil.mpr hc]
    · rw [if_neg (fun hc' => hc (hnil.mp hc')), if_neg hc]
      refine ⟨by simp, fun set' hs' set hs t => ?_⟩
      rw [Option.mem_some] at hs hs'
      rw [← hs, ← hs', QueueSetEntry.mem_targetsVec_build, QueueSetEntry.mem_targetsVec_build]
      exact hbound t

/-- A direct exchange with a key bound twice to one queue and once to a
queue of another shard, and a fanout exchange without bindings. -/
def twoExchanges : RoutingConfig where
  version := 3
  exchanges := [⟨1, [100], .direct⟩, ⟨2, [102], .fanout⟩]
  bindings := [⟨1, 7, [98], 0⟩, ⟨1, 7, [97], 1⟩, ⟨1, 5, [97], 0⟩, ⟨1, 7, [97], 1⟩]

def twoExchangesTable : RouteTable := (compile twoExchanges).toOption.get rfl

/-- Key `a` is the first route of the table, and leads to both queues. -/
theorem compile_two_exchanges : compile twoExchanges = .ok twoExchangesTable ∧
    (∃ r set, twoExchangesTable.resolveDirect 1 [97] = .ok r ∧
      twoExchangesTable.getByRouteId r.routeId r.version = .ok set ∧ set.targetsVec.Nodup ∧
      (∀ t, t ∈ set.targetsVec ↔ Bound twoExchanges ⟨1, [100], .direct⟩ [97] t) ∧
      set.targetCount = set.targetsVec.length) ∧
    twoExchangesTable.resolveDirect 2 [97] = .error .unroutable := by
  have h := compile_correct twoExchanges twoExchangesTable rfl
  refine ⟨rfl, (h.1 ⟨1, [100], .direct⟩ (by decide) [97]).1 ?_,
    (h.1 ⟨2, [102], .fanout⟩ (by decide) [97]).2 ?_⟩
  · exact ⟨⟨0, 5⟩, ⟨1, 5, [97], 0⟩, by decide, rfl, fun _ => rfl, rfl⟩
  · rintro ⟨t, b, hb, he, -⟩
    simp only [twoExchanges, mem_cons, not_mem_nil, or_false] at hb
    rcases hb with rfl | rfl | rfl | rfl <;> simp at he

end Aurum.Routing
