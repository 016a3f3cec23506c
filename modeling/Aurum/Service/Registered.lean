import Aurum.Service.Owners

/-!
# Service — registered consumers

The executor keeps the channel a consumer was started with for as long as
the consumer is registered. A consumer of a connection was registered by
it before, or its own command starts it now.
-/

namespace Aurum.Broker

open Aurum.Queue Aurum.Consumer Aurum.Protocol InMemoryShardExecutor Function List Option

variable {σ : Type} {s s' : InMemoryShardExecutor σ}

/-! ## The channel of a consumer -/

/-- A consumer that is not cancelled keeps its channel. -/
theorem Reaches.channelOf_kept {Q : Action σ → Prop} (hreach : Reaches Q s s') {c ch : Nat}
    (hQ : ∀ disp, ¬ Q (.cancel c disp)) (hc : s.channelOf c = some ch) :
    s'.channelOf c = some ch := by
  obtain ⟨actions, hall, rfl⟩ := hreach
  induction actions generalizing s with
  | nil => exact hc
  | cons a actions ih =>
    refine ih ?_ fun b hb => hall b (mem_cons_of_mem a hb)
    rcases (act_writes s a).channels with heq | ⟨cmd, -, hnone, heq⟩ | ⟨k, disp, rfl, heq⟩
    · rw [heq, hc]
    · rw [heq, update_of_ne, hc]
      rintro rfl
      rw [hc] at hnone
      cases hnone
    · rw [heq, update_of_ne, hc]
      rintro rfl
      exact hQ disp (hall _ mem_cons_self)

/-- A registered consumer was registered, or is started. -/
theorem Reaches.channelOf_cases {Q : Action σ → Prop} (hreach : Reaches Q s s') {c ch : Nat}
    (hc : s'.channelOf c = some ch) :
    s.channelOf c = some ch ∨ ∃ cmd, Q (.start cmd) ∧ cmd.consumerId = c ∧ cmd.channelId = ch := by
  obtain ⟨actions, hall, rfl⟩ := hreach
  induction actions generalizing s with
  | nil => exact .inl hc
  | cons a actions ih =>
    rcases ih (fun b hb => hall b (mem_cons_of_mem a hb)) hc with hmid | hstart
    · rcases (act_writes s a).channels with heq | ⟨cmd, rfl, -, heq⟩ | ⟨k, disp, -, heq⟩
      · exact .inl (heq ▸ hmid)
      · rw [heq] at hmid
        by_cases hk : c = cmd.consumerId
        · subst hk
          rw [update_self] at hmid
          exact .inr ⟨cmd, hall _ mem_cons_self, rfl, some.inj hmid⟩
        · rw [update_of_ne hk] at hmid
          exact .inl hmid
      · rw [heq] at hmid
        by_cases hk : c = k
        · rw [hk, update_self] at hmid
          cases hmid
        · rw [update_of_ne hk] at hmid
          exact .inl hmid
    · exact .inr hstart

end Aurum.Broker

namespace Aurum.Service

open Aurum.Protocol Aurum.Broker InMemoryShardExecutor List Option

variable {σ : Type}

/-! ## Owners -/

/-- The events `es` of a command of connection `k`, from the view `v` to
the view `v'`: whoever is registered was so or is reported as started, and
who was registered and is not cancelled keeps its owner. -/
structure Registers (owner : Nat → Option Nat) (k : Nat) (cmd : BrokerCommandBatch) (v v' : View)
    (es : List Event) : Prop where
  listed : ∀ c, (v'.seat c).isSome → (v.seat c).isSome ∨ Event.consumer c .started ∈ es
  kept : ∀ c, (v.seat c).isSome → c ∉ cmd.cancels →
    (v'.seat c).isSome ∧ (es.foldl (trackOwner k) (owner, [])).1 c = owner c

section

variable {owner : Nat → Option Nat} {k : Nat} {cmd : BrokerCommandBatch} {v v' v'' : View}
  {es es' : List Event}

/-- Effects that start and cancel nobody. -/
theorem Registers.quiet (h : Registers owner k cmd v v' es)
    (hseat : ∀ c, (v''.seat c).isSome = (v'.seat c).isSome)
    (hes : ∀ acc, (es'.foldl (trackOwner k) acc).1 = acc.1) :
    Registers owner k cmd v v'' (es ++ es') where
  listed := fun c hc => (h.listed c (hseat c ▸ hc)).imp_right (mem_append_left es')
  kept := by
    intro c hc hnot
    rw [foldl_append, hes, hseat]
    exact h.kept c hc hnot

theorem Registers.step {a : Action σ} (h : Registers owner k cmd v v' es) (ha : cmd.Permits a)
    (heff : Effect v' a.requeues es' v'')
    (hrep : ∀ c kind, Event.consumer c kind ∈ es' → a.Reports c kind) :
    Registers owner k cmd v v'' (es ++ es') := by
  cases heff with
  | quiet hes => exact h.quiet (fun _ => rfl) fun acc => by rw [foldl_trackOwner_quiet hes]
  | published q next count hnext => exact h.quiet (fun _ => rfl) fun _ => rfl
  | settled c seat take hc hin => exact h.quiet (isSome_update hc) fun _ => rfl
  | retried q S hS => exact h.quiet (fun _ => rfl) fun _ => rfl
  | delivered c seat S batch hc hnodup havail hbatch =>
    exact h.quiet (isSome_update hc) fun _ => rfl
  | started c q hc =>
    constructor
    · intro j hj
      by_cases hjc : j = c
      · subst hjc
        exact .inr (mem_append_right _ (mem_singleton.mpr rfl))
      · simp only [Function.update_of_ne hjc] at hj
        exact (h.listed j hj).imp_right (mem_append_left _)
    · intro j hj hnot
      obtain ⟨hlive, howner⟩ := h.kept j hj hnot
      -- Whoever is registered is not started.
      have hjc : j ≠ c := by
        rintro rfl
        rw [hc] at hlive
        cases hlive
      simpa [foldl_append, trackOwner, hjc] using And.intro hlive howner
  | cancelled c seat hc hin =>
    constructor
    · intro j hj
      by_cases hjc : j = c
      · subst hjc
        simp at hj
      · simp only [Function.update_of_ne hjc] at hj
        exact (h.listed j hj).imp_right (mem_append_left _)
    · intro j hj hnot
      have hjc : j ≠ c := by
        rintro rfl
        exact hnot (ha.cancels (hrep j .cancelled (mem_singleton.mpr rfl)))
      simpa [foldl_append, trackOwner, hjc] using h.kept j hj hnot

end

variable {s : System σ}

theorem Ledger.registers (h : Ledger s) (k : Nat) (cmd : BrokerCommandBatch)
    {shard : InMemoryShardExecutor σ} (hreach : Reaches cmd.Permits s.shard shard) :
    ∃ es, shard.sink = s.shard.sink ++ es ∧
      Registers s.owner k cmd s.shard.view shard.view es :=
  Reaches.events (P := Registers s.owner k cmd s.shard.view) h.sound.coherent hreach
    ⟨fun _ hc => .inl hc, fun _ hc _ => ⟨hc, rfl⟩⟩
    fun _ _ _ _ _ ha hP heff hrep => hP.step ha heff hrep

theorem isSome_channelOf (shard : InMemoryShardExecutor σ) (c : Nat) :
    (shard.channelOf c).isSome = (shard.view.seat c).isSome := by
  simp [channelOf, view]

/-- The items a command asks to start. -/
def BrokerCommandBatch.startItems : BrokerCommandBatch → List ConsumeStart
  | .shard (.consume items) => items
  | _ => []

theorem BrokerCommandBatch.Permits.start {cmd : BrokerCommandBatch} {item : ConsumeStart}
    (h : (cmd.Permits : Action σ → Prop) (.start item)) : item ∈ cmd.startItems := by
  match cmd, h with
  | .shard (.consume items), .inr hin => exact hin
  | .ingress _, .inr ⟨_, heq⟩ => cases heq

variable {c ch k : Nat}

/-- **Who is registered after a command of connection `j`**: consumers of
`k` were so before, on the same channel, or `j` is `k` and starts them. -/
theorem Ledger.execute_channelOf (store : ShardStorage σ) (h : Ledger s) (j : Nat)
    (cmd : BrokerCommandBatch) (howner : (s.execute store j cmd).owner c = some k)
    (hch : (s.execute store j cmd).shard.channelOf c = some ch) :
    s.owner c = some k ∧ s.shard.channelOf c = some ch ∨
      j = k ∧ ∃ item ∈ cmd.startItems, item.consumerId = c ∧ item.channelId = ch := by
  have hreach : Reaches cmd.Permits s.shard (s.execute store j cmd).shard :=
    (s.service.performs_execute store cmd).1
  obtain ⟨es, hsink, hregisters⟩ := h.registers j cmd hreach
  have hes : (s.service.execute store cmd).1.broker.broker.shard.sink.drop
      s.service.broker.broker.shard.sink.length = es := by
    rw [show (s.service.execute store cmd).1.broker.broker.shard.sink =
      s.service.broker.broker.shard.sink ++ es from hsink, drop_left]
  have hnew : (s.execute store j cmd).owner = (es.foldl (trackOwner j) (s.owner, [])).1 := by
    simp only [System.execute, hes]
  have hlive : (s.owner c).isSome = (s.shard.channelOf c).isSome :=
    (h.live c).trans (isSome_channelOf _ c).symm
  obtain ⟨es', htracked, -, hnew', -⟩ := h.executed store j cmd
  have hchanges := htracked.changes c
  rw [← hnew', howner] at hchanges
  have hold := Reaches.channelOf_cases hreach hch
  cases hchannel : s.shard.channelOf c with
  | none =>
    -- It is started.
    rw [hchannel, isSome_none, isSome_eq_false_iff, isNone_iff_eq_none]
      at hlive
    rcases hchanges with heq | ⟨-, heq⟩ | ⟨-, heq⟩
    · rw [hlive] at heq
      cases heq
    · rcases hold with hold | ⟨item, hitem, hc, hch⟩
      · rw [hchannel] at hold
        cases hold
      · exact .inr ⟨(some.inj heq).symm, item, hitem.start, hc, hch⟩
    · cases heq
  | some ch' =>
    refine .inl ?_
    by_cases hcancel : c ∈ cmd.cancels
    · -- A cancel starts nobody.
      have hstarts : ∀ d, d ∉ cmd.starts := by
        obtain ⟨items, rfl⟩ := of_mem_cancels hcancel
        exact fun _ => not_mem_nil
      rcases hchanges with heq | ⟨hin, -⟩ | ⟨-, heq⟩
      · rcases hold with hold | ⟨item, hitem, hc, -⟩
        · exact ⟨heq.symm, hchannel ▸ hold⟩
        · exact absurd (hitem.starts ⟨hc, rfl⟩) (hstarts c)
      · exact absurd hin (hstarts c)
      · cases heq
    · have hseat : (s.shard.view.seat c).isSome := by
        rw [← isSome_channelOf, hchannel]
        rfl
      have hkept := (hregisters.kept c hseat hcancel).2
      rw [← hnew, howner] at hkept
      have hsame := Reaches.channelOf_kept hreach
        (fun disp hQ => hcancel (hQ.cancels ⟨rfl, rfl⟩)) hchannel
      exact ⟨hkept.symm, hsame.symm.trans hch⟩

/-- The consumers connection `k` has at the broker, with their channels. -/
def System.registered (s : System σ) (k : Nat) : List (Nat × Nat) :=
  s.shard.sink.filterMap fun
    | .consumer c .started =>
      if s.owner c = some k then (s.shard.channelOf c).map (Prod.mk c) else none
    | _ => none

/-- Every registered consumer was reported as started, and no pushed output
has errors. -/
structure Registry (s : System σ) : Prop where
  ledger : Ledger s
  listed : ∀ c, (s.owner c).isSome → Event.consumer c .started ∈ s.shard.sink
  pushed : ∀ k, ∀ o ∈ s.service.outboxes k, o.errors = []

theorem Registry.mem_registered (h : Registry s) :
    (c, ch) ∈ s.registered k ↔ s.owner c = some k ∧ s.shard.channelOf c = some ch := by
  rw [System.registered, mem_filterMap]
  constructor
  · rintro ⟨e, -, he⟩
    split at he
    · next c' =>
      split at he
      · next howner =>
        obtain ⟨ch', hch, heq⟩ := map_eq_some_iff.mp he
        obtain ⟨rfl, rfl⟩ := Prod.mk.inj heq
        exact ⟨howner, hch⟩
      · cases he
    · cases he
  · rintro ⟨howner, hch⟩
    refine ⟨_, h.listed c (by rw [howner]; rfl), ?_⟩
    simp only [if_pos howner, hch, map_some]

theorem Registry.step (store : ShardStorage σ) (h : Registry s) (a : Step) :
    Registry (s.step store a) := by
  refine ⟨h.ledger.step store a, ?_, ?_⟩
  · intro c hc
    rcases s.step_cases store a with ⟨k, cmd, rfl, -, heq⟩ | ⟨cmd, rfl⟩ | ⟨hshard, howner, -⟩
    · rw [heq] at hc ⊢
      obtain ⟨es, hsink, hregisters⟩ :=
        h.ledger.registers k cmd (s.service.performs_execute store cmd).1
      have hsink : (s.execute store k cmd).shard.sink = s.shard.sink ++ es := hsink
      rw [(h.ledger.execute store k cmd).live c] at hc
      rw [hsink]
      refine (hregisters.listed c hc).elim (fun hold => ?_) (mem_append_right _)
      exact mem_append_left _ (h.listed c ((h.ledger.live c).trans hold))
    · obtain ⟨es, hsink, -⟩ := h.ledger.registers 0 (.ingress (.resolveRoute []))
        ((reaches_control store s.service.broker cmd).mono fun a ha => .inl ha)
      have hsink : (s.step store (.control cmd)).shard.sink = s.shard.sink ++ es := hsink
      rw [hsink]
      exact mem_append_left _ (h.listed c hc)
    · rw [hshard]
      exact h.listed c (howner ▸ hc)
  · intro k o ho
    rcases s.step_cases store a with ⟨j, cmd, rfl, -, heq⟩ | ⟨cmd, rfl⟩ | ⟨-, -, hboxes⟩
    · rw [heq] at ho
      exact h.pushed k o ho
    · exact h.pushed k o ho
    · exact (hboxes k o ho).elim (h.pushed k o) id

/-- **Who is registered after a step.** -/
theorem Registry.step_channelOf (store : ShardStorage σ) (h : Registry s) {a : Step}
    (howner : (s.step store a).owner c = some k)
    (hch : (s.step store a).shard.channelOf c = some ch) :
    s.owner c = some k ∧ s.shard.channelOf c = some ch ∨
      ∃ cmd, a = .execute k ∧ ⟨k, [], cmd⟩ ∈ s.calls ∧
        ∃ item ∈ cmd.startItems, item.consumerId = c ∧ item.channelId = ch := by
  rcases s.step_cases store a with ⟨j, cmd, rfl, hcall, heq⟩ | ⟨cmd, rfl⟩ | ⟨hshard, hsame, -⟩
  · rw [heq] at howner hch
    rcases h.ledger.execute_channelOf store j cmd howner hch with hold | ⟨rfl, hitem⟩
    · exact .inl hold
    · exact .inr ⟨cmd, rfl, hcall, hitem⟩
  · have hreach : Reaches (fun a => a.plain = true) s.shard (s.step store (.control cmd)).shard :=
      reaches_control store s.service.broker cmd
    rcases Reaches.channelOf_cases hreach hch with hold | ⟨item, hplain, -⟩
    · exact .inl ⟨howner, hold⟩
    · cases hplain
  · exact .inl ⟨hsame ▸ howner, hshard ▸ hch⟩

theorem registry_new {broker : SingleNodeBroker σ} {shardId : Nat} {durable : Option σ}
    (h : broker.broker.shard = .new shardId durable) : Registry (System.new broker) :=
  ⟨ledger_new h, fun _ hc => (nomatch hc), fun _ _ ho => (nomatch ho)⟩

end Aurum.Service
