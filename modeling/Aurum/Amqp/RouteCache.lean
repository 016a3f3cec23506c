import Aurum.Amqp.Session
import Mathlib.Data.Set.Function

/-!
# AMQP — the route cache

The cache of a channel is keyed by 64-bit hashes of the exchange and the
routing key and does not keep the names. So a hit is an entry of the
names asked for exactly as far as the hash tells the names in use apart.
-/

namespace Aurum.Amqp

open Aurum.Protocol List

/-- A call that changes a `RouteCache`. -/
inductive CacheOp where
  | insert (exchange routingKey : ShortStr) (entry : RoutePublishTarget)
  | clear

/-- What the call does. -/
def CacheOp.apply (c : RouteCache) : CacheOp → RouteCache
  | .insert exchange routingKey entry => RouteCache.insert c exchange routingKey entry
  | .clear => fun _ => none

/-- A cache after some calls. -/
def RouteCache.run (ops : List CacheOp) : RouteCache := ops.foldl CacheOp.apply fun _ => none

/-- What a call leaves for exactly the names `p`. -/
def CacheOp.track (p : ShortStr × ShortStr) (kept : Option RoutePublishTarget) :
    CacheOp → Option RoutePublishTarget
  | .insert exchange routingKey entry => if (exchange, routingKey) = p then some entry else kept
  | .clear => none

/-- The most recent insert for exactly the names `p` since the last clear. -/
def latestInsert (p : ShortStr × ShortStr) (ops : List CacheOp) : Option RoutePublishTarget :=
  ops.foldl (CacheOp.track p) none

/-- The call names an exchange and a key of `names`, if any. -/
def CacheOp.Uses (names : Set (ShortStr × ShortStr)) : CacheOp → Prop
  | .insert exchange routingKey _ => (exchange, routingKey) ∈ names
  | .clear => True

/-- The key of an entry. -/
def hashNames (p : ShortStr × ShortStr) : UInt64 × UInt64 := (hashBytes p.1, hashBytes p.2)

/-- Whatever `get` returns was inserted last under these names, with this
version. -/
def HitsSound (ops : List CacheOp) (p : ShortStr × ShortStr) : Prop :=
  ∀ version entry, RouteCache.get (RouteCache.run ops) p.1 p.2 version = some entry →
    latestInsert p ops = some entry ∧ entry.routeVersion = version

/-- Where the hash tells the names apart, the entry under a key is that of
its names. -/
theorem run_hashNames {names : Set (ShortStr × ShortStr)} (hinj : Set.InjOn hashNames names)
    {p : ShortStr × ShortStr} (hp : p ∈ names) {ops : List CacheOp}
    (hops : ∀ op ∈ ops, op.Uses names) : RouteCache.run ops (hashNames p) = latestInsert p ops := by
  induction ops using reverseRecOn with
  | nil => rfl
  | append_singleton ops op ih =>
    have hprev := ih fun op hop => hops op (mem_append_left _ hop)
    have hop := hops op (by simp)
    rw [RouteCache.run, latestInsert, foldl_append, foldl_append]
    cases op with
    | clear => rfl
    | insert exchange routingKey entry =>
      change Function.update (RouteCache.run ops) (hashNames (exchange, routingKey)) (some entry)
        (hashNames p) = if (exchange, routingKey) = p then some entry else latestInsert p ops
      rw [Function.update_apply, hprev]
      exact if_congr ((hinj.eq_iff hp hop).trans eq_comm) rfl rfl

/-- **Route cache soundness.** The hits of every sequence of calls on names
of a set are sound if and only if no two of its names have the same
hashes. -/
theorem route_cache_sound (names : Set (ShortStr × ShortStr)) :
    (∀ ops : List CacheOp, (∀ op ∈ ops, op.Uses names) → ∀ p ∈ names, HitsSound ops p) ↔
      Set.InjOn hashNames names := by
  constructor
  · intro hsound p hp p' hp' heq
    -- one insert under `p`, then a lookup of `p'`
    have hget : RouteCache.get (RouteCache.run [.insert p.1 p.2 ⟨⟨0, 0⟩, 0⟩]) p'.1 p'.2 0 =
        some ⟨⟨0, 0⟩, 0⟩ := by
      change (Function.update (fun _ => none) (hashNames p) _ (hashNames p')).filter _ = _
      rw [heq, Function.update_self]
      rfl
    have huses : ∀ op ∈ [CacheOp.insert p.1 p.2 ⟨⟨0, 0⟩, 0⟩], op.Uses names :=
      forall_mem_singleton.mpr hp
    have hhit := (hsound _ huses p' hp' 0 _ hget).1
    change (if p = p' then _ else none) = _ at hhit
    split at hhit
    · next hpp => exact hpp
    · cases hhit
  · intro hinj ops hops p hp version entry hget
    change (RouteCache.run ops (hashNames p)).filter _ = _ at hget
    rw [run_hashNames hinj hp hops, Option.filter_eq_some_iff] at hget
    simpa using hget

/-- The exchanges `Aa` and `BB` share a hash, and what was inserted for one
is returned for the other. -/
theorem route_cache_collision :
    RouteCache.get (RouteCache.run [.insert [65, 97] [107] ⟨⟨7, 1⟩, 1⟩]) [66, 66] [107] 1 =
        some ⟨⟨7, 1⟩, 1⟩ ∧
      latestInsert ([66, 66], [107]) [.insert [65, 97] [107] ⟨⟨7, 1⟩, 1⟩] = none := by
  decide

end Aurum.Amqp
