import Aurum.Server.Sessions

/-!
# Server — consumer ids

The executor knows consumers by their id. The ids come from counters that
know nothing of each other, one for each AMQP channel from the time it is
opened and one for each native session, and from the hints of native
clients. `consumer_ids_distinct` says when no two live consumers meet:
only one counter is used, and hints stay above the ids it gives.
`second_channel_refused` shows two channels of one connection that do.
-/

namespace Aurum.Server

open Aurum.Runs Aurum.Protocol Aurum.Broker Aurum.Service Aurum.Amqp Aurum.Native List BrokerServer
open Peer
open NativeSessionState
open InMemoryShardExecutor
open AmqpServerSession
open NativeServerSession
open NativeInboundAdapter
  InMemoryShardExecutor

variable {σ : Type}

/-! ## Definitions -/

/-- A counter that hands out consumer ids. -/
inductive Allocator where
  | channel (connectionId channel : Nat)
  | session (connectionId : Nat)
deriving DecidableEq

/-- The connection of a counter. -/
def Allocator.connection : Allocator → Nat
  | .channel k _ => k
  | .session k => k

/-- The next id of the counter of a channel. -/
def nextId (session : AmqpSession) (channel : Nat) : Nat :=
  ((session.consumersOf channel).map (·.nextConsumerId)).getD 0 + 1

/-- The next id of a counter in a session. -/
def Allocator.nextOf : Allocator → Option Peer → Nat
  | .channel _ ch, some (.amqp p) => nextId p.session ch
  | .session _, some (.native p) => p.inbound.session.nextConsumerId
  | _, _ => 1

/-- The next id of a counter. -/
def Allocator.next (alloc : Allocator) (s : BrokerServer σ) : Nat :=
  alloc.nextOf (s.peers alloc.connection)

/-- The consumers a connection asked to start. -/
def Peer.starts : Peer → List Nat
  | .amqp ⟨_, _, some (.control _ (.consuming _ _ id)), _⟩ => [id]
  | p => (p.command.map BrokerCommandBatch.starts).getD []

/-- The consumers connection `k` is about to start; the executor has not
seen them yet. -/
def BrokerServer.starting (s : BrokerServer σ) (k : Nat) : List Nat :=
  if ∃ e ∈ s.system.waiting, e.source = k then [] else ((s.peers k).map starts).getD []

/-- The consumers of a frame come from the counter `alloc`, which gives
ids up to `bound`, and no tag of the channel is used again. A channel whose
counter is in use is not opened again. -/
def AllocatesFrame (alloc : Allocator) (bound k : Nat) (session : AmqpSession) (f : Frame) : Prop :=
  (∀ x ∈ f.consumes, ∀ ch ∈ session.openChannel x.1, x.2.noAck = true ∨
    alloc = .channel k x.1 ∧ ch.consumers.nextConsumerId < bound ∧
      ch.consumers.get (effectiveTag x.2.consumerTag) = none) ∧
  ∀ channel ∈ f.opens, alloc = .channel k channel → nextId session channel = 1

/-- A hint lies above `bound`, and no connection is using it. Without a
hint the id comes from the counter `alloc`. -/
def AllocatesNative (connections : List Nat) (alloc : Allocator) (bound k : Nat)
    (s : BrokerServer σ) (inbound : NativeInboundAdapter) (body : NativeBody) : Prop :=
  ∀ hint ∈ body.hint,
    if hint = 0 then alloc = .session k ∧ inbound.session.nextConsumerId ≤ bound
    else bound < hint ∧ s.system.owner hint = none ∧ ∀ j ∈ connections, hint ∉ s.starting j

/-- **What the clients have to respect** for their consumers to get ids of
their own. `connections` are the connections of the run. -/
def Allocates (connections : List Nat) (alloc : Allocator) (bound : Nat) (s : BrokerServer σ) :
    Act → Prop
  | .accept k _ => k ∈ connections
  | .advance k =>
    (∀ x ∈ (s.peers k).bind nextFrame, AllocatesFrame alloc bound k x.1 x.2) ∧
      ∀ x ∈ (s.peers k).bind nextNative,
        AllocatesNative connections alloc bound k s x.1 x.2.body
  | .receive _ _ => True
  | .receiveNative _ _ => True

/-- **Ids handed to the executor are unique**: they are not in use, no
other command under way has them, and the executor does not answer
`DuplicateConsumer`. -/
structure IdsDistinct (s : BrokerServer σ) : Prop where
  fresh : ∀ call ∈ s.system.calls, ∀ c ∈ call.cmd.starts, s.system.shard.consumers c = none
  distinct : ∀ call ∈ s.system.calls, ∀ call' ∈ s.system.calls, call.source ≠ call'.source →
    ∀ c ∈ call.cmd.starts, c ∉ call'.cmd.starts
  accepted : ∀ call ∈ s.system.calls, ∀ item, call.cmd = .shard (.consume [item]) →
    s.system.shard.execConsumeStart item ≠
      s.system.shard.emit (.error [.consumer .duplicateConsumer item.consumerId])

instance (alloc : Allocator) (bound k : Nat) (session : AmqpSession) (f : Frame) :
    Decidable (AllocatesFrame alloc bound k session f) := inferInstanceAs (Decidable (_ ∧ _))

instance (connections : List Nat) (alloc : Allocator) (bound k : Nat) (s : BrokerServer σ)
    (inbound : NativeInboundAdapter) (body : NativeBody) :
    Decidable (AllocatesNative connections alloc bound k s inbound body) :=
  inferInstanceAs (Decidable (∀ _ ∈ _, _))

instance (connections : List Nat) (alloc : Allocator) (bound : Nat) (s : BrokerServer σ) :
    ∀ a, Decidable (Allocates connections alloc bound s a)
  | .accept _ _ => inferInstanceAs (Decidable (_ ∈ _))
  | .advance _ => inferInstanceAs (Decidable (_ ∧ _))
  | .receive _ _ | .receiveNative _ _ => .isTrue trivial

/-! ## The invariant -/

/-- Every id in use was given by the counter or is a hint, and ids under
way are not in use yet. -/
structure Allocated (connections : List Nat) (alloc : Allocator) (bound : Nat)
    (s : BrokerServer σ) : Prop where
  aligned : Aligned s
  known : ∀ k p, s.peers k = some p → k ∈ connections
  live : ∀ c, (s.system.owner c).isSome → c < alloc.next s ∨ bound < c
  starting : ∀ k, ∀ c ∈ s.starting k, (c < alloc.next s ∨ bound < c) ∧ s.system.owner c = none
  distinct : ∀ k j, ∀ c ∈ s.starting k, c ∈ s.starting j → k = j

section

variable {store : ShardStorage σ} {connections : List Nat} {alloc : Allocator} {bound k c : Nat}
  {s s' : BrokerServer σ} {cmd : BrokerCommandBatch} {session : AmqpSession} {system : System σ}
  {order : HashOrder} {p p' : NativeServerSession}

theorem mem_starting : c ∈ s.starting k ↔
    (∀ e ∈ s.system.waiting, e.source ≠ k) ∧ ∃ p, s.peers k = some p ∧ c ∈ p.starts := by
  unfold starting
  split
  · next h =>
    obtain ⟨e, he, hk⟩ := h
    simp only [not_mem_nil, false_iff, not_and]
    exact fun hall => absurd hk (hall e he)
  · next h =>
    have hall : ∀ e ∈ s.system.waiting, e.source ≠ k := fun e he hk => h ⟨e, he, hk⟩
    rw [and_iff_right hall]
    cases s.peers k <;> simp

theorem starts_of_command {p : Peer} (h : p.command = some cmd) : p.starts = cmd.starts := by
  unfold starts
  split
  · cases h
  · rw [h]
    rfl

/-- Only executing the command of `k` makes a consumer live, and then `k`
is not about to start it any more. -/
theorem Moves.owner (h : Aligned s) (hm : Moves store s k s') (hc : (s'.system.owner c).isSome) :
    (s.system.owner c).isSome ∨ c ∈ s.starting k ∧ s'.starting k = [] := by
  cases hm with
  | stay => exact .inl hc
  | own p' hnone => exact .inl hc
  | control cmd p p' hp hnone => exact .inl hc
  | drain p p' hp hnone =>
    refine .inl ?_
    simp only [put, System.step] at hc
    split at hc <;> exact hc
  | serves cmd p p' hp hcmd hstay =>
    have hserves : Serves store s.system k cmd _ _ := h.serves hp hcmd
    revert hc hserves
    simp only [put]
    generalize (serve store s.system k cmd).1 = system
    generalize (serve store s.system k cmd).2 = answer
    intro hc hserves
    cases hserves with
    | call hidle => exact .inl hc
    | track u us hcall => cases u <;> exact .inl hc
    | route e he hcalls =>
      simp only [System.route, BrokerService.routeOutput_eq] at hc
      exact .inl hc
    | execute hcall =>
      obtain ⟨es, htracked, -, howner, hwaiting⟩ := h.ledger.executed store k cmd
      rw [howner] at hc
      rcases htracked.changes c with heq | ⟨hin, -⟩ | ⟨-, heq⟩
      · exact .inl (heq ▸ hc)
      · refine .inr ⟨mem_starting.mpr ⟨fun e he hk => ?_, p, hp, ?_⟩, ?_⟩
        · exact h.once.apart hcall he hk
        · rwa [starts_of_command hcmd]
        · simp [starting, hwaiting]
      · rw [heq] at hc
        cases hc

/-- **What one move has to show**: the counter does not go back, and what
`k` is about to start it was before, or nobody else knows. -/
theorem Allocated.moves (h : Allocated connections alloc bound s) (hm : Moves store s k s')
    (hk : k ∈ connections) (hnext : alloc.next s ≤ alloc.next s')
    (hself : ∀ c ∈ s'.starting k, c ∈ s.starting k ∨
      (c < alloc.next s' ∨ bound < c) ∧ s.system.owner c = none ∧ ∀ j ≠ k, c ∉ s.starting j) :
    Allocated connections alloc bound s' := by
  have hothers : ∀ j ≠ k, ∀ c ∈ s'.starting j, c ∈ s.starting j := by
    intro j hj c hc
    obtain ⟨hpeers, hwaits⟩ := hm.others h.aligned hj
    obtain ⟨hnone, p, hp, hin⟩ := mem_starting.mp hc
    exact mem_starting.mpr ⟨fun e he hk => hnone e (hwaits e he hk) hk, p, hpeers ▸ hp, hin⟩
  have hmono : ∀ {c}, c < alloc.next s ∨ bound < c → c < alloc.next s' ∨ bound < c :=
    fun hc => hc.imp_left fun hlt => by omega
  -- nobody else is about to start a consumer of `k`
  have hfresh : ∀ j, ∀ c ∈ s'.starting j, s.system.owner c = none → s'.system.owner c = none := by
    intro j c hc hnone
    cases hsome : s'.system.owner c with
    | none => rfl
    | some i =>
      rcases hm.owner h.aligned (c := c) (by simp [hsome]) with hlive | ⟨hin, hnil⟩
      · simp [hnone] at hlive
      · by_cases hj : j = k
        · simp [hj, hnil] at hc
        · exact absurd (h.distinct k j c hin (hothers j hj c hc)).symm hj
  constructor
  case aligned => exact h.aligned.moves hm
  case known =>
    intro j p hp
    by_cases hj : j = k
    · exact hj ▸ hk
    · exact h.known j p ((hm.others h.aligned hj).1 ▸ hp)
  case live =>
    intro c hc
    rcases hm.owner h.aligned hc with hlive | ⟨hin, -⟩
    · exact hmono (h.live c hlive)
    · exact hmono (h.starting k c hin).1
  case starting =>
    intro j c hc
    by_cases hj : j = k
    · subst hj
      rcases hself c hc with hold | ⟨hbound, hnone, -⟩
      · obtain ⟨hbound, hnone⟩ := h.starting j c hold
        exact ⟨hmono hbound, hfresh j c hc hnone⟩
      · exact ⟨hbound, hfresh j c hc hnone⟩
    · obtain ⟨hbound, hnone⟩ := h.starting j c (hothers j hj c hc)
      exact ⟨hmono hbound, hfresh j c hc hnone⟩
  case distinct =>
    -- what `k` is about to start is nobody else's
    have hk : ∀ j ≠ k, ∀ c ∈ s'.starting k, c ∉ s'.starting j := by
      intro j hj c hc hin
      rcases hself c hc with hold | ⟨-, -, hnot⟩
      · exact hj (h.distinct k j c hold (hothers j hj c hin)).symm
      · exact hnot j hj (hothers j hj c hin)
    intro i j c hi hj
    by_cases hik : i = k <;> by_cases hjk : j = k
    · rw [hik, hjk]
    · exact absurd hj (hk j hjk c (hik ▸ hi))
    · exact absurd hi (hk i hik c (hjk ▸ hj))
    · exact h.distinct i j c (hothers i hik c hi) (hothers j hjk c hj)

/-! ## Sessions -/

theorem starts_resume_plain (p : AmqpServerSession) {r : AmqpSession × Outcome}
    (h : r.2.plain = true) : (amqp (p.resume r)).starts = [] := by
  obtain ⟨session, o⟩ := r
  cases o with
  | ask call =>
    cases call with
    | control cmd reply => cases reply <;> first | rfl | cases h
    | command cmd reply => cases h
    | _ => rfl
  | _ => rfl

theorem nextId_congr {session' : AmqpSession} (h : session'.consumersOf = session.consumersOf) :
    nextId session' = nextId session := by
  funext ch
  simp only [nextId, h]

/-- What a step of an AMQP session has to show about its counters. -/
theorem next_put_amqp {p p' : AmqpServerSession} (hp : s.peers k = some (.amqp p))
    (h : ∀ channel, alloc = .channel k channel →
      nextId p.session channel ≤ nextId p'.session channel) :
    alloc.next s ≤ alloc.next (s.put k system (.amqp p')) := by
  by_cases hk : alloc.connection = k
  · cases alloc with
    | channel i channel =>
      obtain rfl : i = k := hk
      simpa [Allocator.next, Allocator.connection, Allocator.nextOf, put, hp]
        using h _ rfl
    | session i =>
      obtain rfl : i = k := hk
      simp [Allocator.next, Allocator.connection, put, hp, Allocator.nextOf]
  · simp [Allocator.next, put, hk]

theorem not_starting_put {p' : Peer} (h : p'.starts = []) (c : Nat) :
    c ∉ (s.put k system p').starting k := by
  intro hc
  obtain ⟨-, p, hp, hin⟩ := mem_starting.mp hc
  obtain rfl : p' = p := by simpa [put] using hp
  simp [h] at hin

/-- A step of an AMQP session that keeps its consumers and starts none. -/
theorem Allocated.quietAmqp (h : Allocated connections alloc bound s) {p p' : AmqpServerSession}
    (hp : s.peers k = some (.amqp p)) (hm : Moves store s k (s.put k system (.amqp p')))
    (hnext : ∀ channel, alloc = .channel k channel →
      nextId p.session channel ≤ nextId p'.session channel) (hstarts : (amqp p').starts = []) :
    Allocated connections alloc bound (s.put k system (.amqp p')) :=
  h.moves hm (h.known k _ hp) (next_put_amqp hp hnext) fun c hc =>
    absurd hc (not_starting_put hstarts c)

/-- An id the counter has not given yet is unknown. -/
theorem Allocated.unknown (h : Allocated connections alloc bound s) (hc : alloc.next s ≤ c)
    (hbound : c ≤ bound) : s.system.owner c = none ∧ ∀ j, c ∉ s.starting j := by
  refine ⟨?_, fun j hin => ?_⟩
  · cases howner : s.system.owner c with
    | none => rfl
    | some i =>
      have := h.live c (by simp [howner])
      omega
  · have := (h.starting j c hin).1
    omega

/-- A step that takes the next id of the counter. -/
theorem Allocated.gives (h : Allocated connections alloc bound s) {p' : Peer}
    (hk : k ∈ connections) (hm : Moves store s k (s.put k system p')) (hc : alloc.next s = c)
    (hbound : c ≤ bound) (hnext : alloc.next (s.put k system p') = c + 1)
    (hstarts : p'.starts = [c]) : Allocated connections alloc bound (s.put k system p') := by
  refine h.moves hm hk (by omega) fun c' hc' => .inr ?_
  obtain ⟨-, q, hq, hin⟩ := mem_starting.mp hc'
  obtain rfl : p' = q := by simpa [put] using hq
  rw [hstarts] at hin
  obtain rfl := mem_singleton.mp hin
  obtain ⟨howner, hstarting⟩ := h.unknown hc.le hbound
  exact ⟨.inl (by omega), howner, fun j _ => hstarting j⟩

/-- **A frame of an AMQP session.** -/
theorem Allocated.frame (store : ShardStorage σ) (h : Allocated connections alloc bound s)
    {f : Frame} {rest : List Frame} {draining : Bool}
    (hp : s.peers k = some (.amqp ⟨session, f :: rest, none, draining⟩))
    (hok : AllocatesFrame alloc bound k session f) :
    Allocated connections alloc bound (s.put k s.system (.amqp (resume
      ⟨session, rest, none, draining⟩ (session.onFrame order f)))) := by
  have hm : ∀ p', Moves store s k (s.put k s.system p') := fun p' => .own p' (no_command hp rfl)
  have hh := AmqpSession.handles_onFrame order session f
  generalize session.onFrame order f = r at hh
  cases hh with
  | plain f r hsame hplain =>
    refine h.quietAmqp hp (hm _) (fun channel _ => ?_) (starts_resume_plain _ hplain)
    rw [resume_session, nextId_congr hsame.consumers]
  | opened channel text =>
    refine h.quietAmqp hp (hm _) (fun i halloc => ?_) rfl
    by_cases hi : i = channel
    · -- the counter starts again, but it had not given an id
      subst hi
      rw [hok.2 i rfl halloc]
      exact Nat.le_add_left 1 _
    · refine le_of_eq ?_
      simp [nextId, AmqpSession.consumersOf, resume, AmqpSession.sendMethod, hi]
  | consume channel ch m hopen hack =>
    obtain ⟨rfl, hlt, hget⟩ := (hok.1 (channel, m) rfl ch hopen).resolve_left (by simp [hack])
    have hch := openChannel_some hopen
    refine @Allocated.gives _ _ _ _ _ _ (ch.consumers.nextConsumerId + 1) _ _ h _
      (h.known k _ hp) (hm _) ?_ hlt ?_ ?_
    · simp [Allocator.next, Allocator.connection, hp, Allocator.nextOf, nextId,
        AmqpSession.consumersOf, hch]
    · simp [Allocator.next, Allocator.connection, Allocator.nextOf, put, nextId,
        resume, AmqpSession.consumersOf, AmqpSession.map_mapChannel, hch,
        ConsumerTagMap.insert, hget]
    · simp [resume, starts, ConsumerTagMap.insert, hget]
  | cancel channel ch tag noWait id hopen hget =>
    exact h.quietAmqp hp (hm _) (fun _ _ => le_rfl) rfl
  | settle channel ch m tag cmd id hset hopen hid =>
    exact h.quietAmqp hp (hm _) (fun _ _ => le_rfl) (starts_settles hset id)

/-- A cancelled consumer gives no id back. -/
theorem nextId_afterCancel (session : AmqpSession) (channel : Nat) (tag : ShortStr) :
    nextId (afterCancel session channel tag) = nextId session := by
  funext i
  have hmap := session.map_mapChannel_eq channel
    (f := fun ch => { ch with consumers := ch.consumers.remove tag })
    (g := fun ch => ch.consumers.nextConsumerId) (fun _ => rfl) i
  simp only [nextId, AmqpSession.consumersOf, Option.map_map, Function.comp_def] at hmap ⊢
  rw [← hmap]
  rfl

/-- A connection in the middle of a call, before the answer. -/
theorem Allocated.pending (store : ShardStorage σ) (h : Allocated connections alloc bound s)
    {p : Peer} (hp : s.peers k = some p) (hcmd : p.command = some cmd)
    (hanswer : (serve store s.system k cmd).2 = none) :
    Allocated connections alloc bound (s.put k (serve store s.system k cmd).1 p) := by
  have hm : Moves store s k (s.put k (serve store s.system k cmd).1 p) :=
    .serves cmd p p hp hcmd fun _ => hcmd
  refine h.moves hm (h.known k _ hp) (le_of_eq ?_) fun c hc => .inl ?_
  · by_cases hk : alloc.connection = k
    · simp [Allocator.next, put, hk, hp]
    · simp [Allocator.next, put, hk]
  · obtain ⟨hnone, q, hq, hin⟩ := mem_starting.mp hc
    obtain rfl : p = q := by simpa [put] using hq
    refine mem_starting.mpr ⟨fun e he hk => ?_, p, hp, hin⟩
    -- a connection that has no answer yet was not waiting for one
    have hserves : Serves store s.system k cmd _ _ := h.aligned.serves hp hcmd
    rw [hanswer] at hserves
    revert hnone hserves
    simp only [put]
    generalize (serve store s.system k cmd).1 = system
    intro hnone hserves
    cases hserves with
    | call hidle => exact hidle.2 e he hk
    | track u us hcall => exact hnone e he hk
    | execute hcall => exact hnone e (mem_append_left _ he) hk

theorem Allocated.advanceAmqp (h : Allocated connections alloc bound s) {p : AmqpServerSession}
    (hp : s.peers k = some (.amqp p)) (hok : Allocates connections alloc bound s (.advance k)) :
    Allocated connections alloc bound (s.advanceAmqp store order k p) := by
  have hm : Moves store s k (s.advanceAmqp store order k p) := moves_advanceAmqp hp
  obtain ⟨system, p', hstep, heq⟩ := amqpStep store order hp
  rw [heq] at hm ⊢
  -- most steps leave the consumers alone
  have hquiet : ∀ {session session' : AmqpSession}, session'.consumersOf = session.consumersOf →
      ∀ channel, alloc = .channel k channel → nextId session channel ≤ nextId session' channel :=
    fun hcons channel _ => by rw [nextId_congr hcons]
  cases hstep with
  | idle session => rwa [put_same hp]
  | frame session f rest draining hh =>
    exact h.frame store hp (hok.1 (session, f) (by rw [hp]; rfl))
  | drain session session' sent hpre hsends =>
    exact h.quietAmqp hp hm (hquiet hsends.consumers) rfl
  | replied session session' inbox cmd reply draining hsame =>
    exact h.quietAmqp hp hm (hquiet hsame.consumers) rfl
  | consuming session inbox cmd channel tag id queueId prefetch draining =>
    -- the consumer is on its way already
    refine h.moves hm (h.known k _ hp) (next_put_amqp hp fun channel _ => le_rfl)
      fun c hc => .inl ?_
    obtain ⟨-, q, hq, hin⟩ := mem_starting.mp hc
    obtain rfl : _ = q := by simpa [put] using hq
    exact mem_starting.mpr ⟨(h.aligned.free (no_command hp rfl)).2, _, hp, hin⟩
  | resolve session inbox q draining => exact h.quietAmqp hp hm (hquiet rfl) rfl
  | unrouted session session' inbox q draining hsame =>
    exact h.quietAmqp hp hm (hquiet hsame.consumers) rfl
  | publish session session' inbox call q target draining hcall hsame =>
    refine h.quietAmqp hp hm (hquiet ?_) rfl
    rw [resume_session]
    exact hsame.consumers
  | waits session inbox cmd reply draining hnone => exact h.pending store hp rfl hnone
  | answer session session' inbox inbox' cmd reply channel output sent draining hreply hanswer
      hpre hsends => exact h.quietAmqp hp hm (hquiet hsends.consumers) rfl
  | cancelled session inbox cmd channel tag output draining hanswer =>
    refine h.quietAmqp hp hm (fun channel _ => ?_) rfl
    rw [nextId_afterCancel]

/-! ## Native sessions -/

/-- What a step of a native session has to show about its counter. -/
theorem next_put_native (hp : s.peers k = some (.native p))
    (h : p.inbound.session.nextConsumerId ≤ p'.inbound.session.nextConsumerId) :
    alloc.next s ≤ alloc.next (s.put k system (.native p')) := by
  by_cases hk : alloc.connection = k
  · cases alloc with
    | channel i channel =>
      obtain rfl : i = k := hk
      simp [Allocator.next, Allocator.connection, Allocator.nextOf, put, hp]
    | session i =>
      obtain rfl : i = k := hk
      simpa [Allocator.next, Allocator.connection, Allocator.nextOf, put, hp] using h
  · simp [Allocator.next, put, hk]

/-- A step of a native session that starts no consumer. -/
theorem Allocated.quietNative (h : Allocated connections alloc bound s)
    (hp : s.peers k = some (.native p)) (hm : Moves store s k (s.put k system (.native p')))
    (hnext : p.inbound.session.nextConsumerId ≤ p'.inbound.session.nextConsumerId)
    (hstarts : (native p').starts = []) :
    Allocated connections alloc bound (s.put k system (.native p')) :=
  h.moves hm (h.known k _ hp) (next_put_native hp hnext) fun c hc =>
    absurd hc (not_starting_put hstarts c)

/-- Only `CONSUME_START` takes an id or starts a consumer. -/
theorem translateFrame_quiet (a : NativeInboundAdapter) (f : NativeFrame)
    (h : ∀ queueId hint prefetch, f.body ≠ .consumeStart queueId hint prefetch) :
    (a.translateFrame f).1.session.nextConsumerId = a.session.nextConsumerId ∧
      ∀ cmd, (a.translateFrame f).2 = .ok (.brokerCommand cmd) → cmd.starts = [] := by
  obtain ⟨correlationId, streamId, body⟩ := f
  -- a translation that may fail
  have hmap : ∀ {α : Type} {x : Except NativeAdapterError α} {g : α → BrokerCommandBatch} {cmd},
      (∀ v, (g v).starts = []) → x.map (fun v => NativeInboundResult.brokerCommand (g v)) =
        .ok (.brokerCommand cmd) → cmd.starts = [] := by
    intro α x g cmd hg heq
    cases x with
    | error e => cases heq
    | ok v =>
      obtain rfl : g v = cmd := NativeInboundResult.brokerCommand.inj (Except.ok.inj heq)
      exact hg v
  cases body with
  | consumeStart queueId hint prefetch => exact absurd rfl (h queueId hint prefetch)
  | hello major minor capabilities =>
    simp only [translateFrame]
    split
    · exact ⟨rfl, fun cmd heq => by cases heq⟩
    · exact ⟨rfl, fun cmd heq => by cases heq⟩
  | publish version packed descriptors payloads => exact ⟨rfl, fun cmd => hmap fun _ => rfl⟩
  | ack consumerId ops => exact ⟨rfl, fun cmd => hmap fun _ => rfl⟩
  | nack consumerId ops => exact ⟨rfl, fun cmd => hmap fun _ => rfl⟩
  | heartbeat => exact ⟨rfl, fun cmd heq => by cases heq⟩
  | unreadable => exact ⟨rfl, fun cmd heq => by cases heq⟩
  | resolveRoute hint exchange routingKey => exact ⟨rfl, fun cmd heq => by cases heq; rfl⟩
  | credit consumerId => exact ⟨rfl, fun cmd heq => by cases heq; rfl⟩
  | cancel consumerId disposition => exact ⟨rfl, fun cmd heq => by cases heq; rfl⟩

theorem onFrame_inbound (p : NativeServerSession) (f : NativeFrame) :
    (p.onFrame f).inbound = (p.inbound.translateFrame f).1 := by
  simp only [onFrame]
  split <;> rfl

/-- **A frame of a native session.** -/
theorem Allocated.frameNative (store : ShardStorage σ) (h : Allocated connections alloc bound s)
    {inbound : NativeInboundAdapter} {f : NativeFrame} {rest : List NativeFrame}
    {out : List NativeWritten} (hp : s.peers k = some (.native ⟨inbound, f :: rest, none, out⟩))
    (hok : AllocatesNative connections alloc bound k s inbound f.body) :
    Allocated connections alloc bound (s.put k s.system (.native
      (onFrame ⟨inbound, rest, none, out⟩ f))) := by
  have hm : ∀ p', Moves store s k (s.put k s.system p') := fun p' => .own p' (no_command hp rfl)
  by_cases hquiet : ∀ queueId hint prefetch, f.body ≠ .consumeStart queueId hint prefetch
  · obtain ⟨hnext, hcmd⟩ := translateFrame_quiet inbound f hquiet
    refine h.quietNative hp (hm _) ?_ ?_
    · rw [onFrame_inbound, hnext]
    · simp only [onFrame]
      split
      · rfl
      · next cmd heq => exact hcmd cmd heq
      · rfl
  · push Not at hquiet
    obtain ⟨queueId, hint, prefetch, hbody⟩ := hquiet
    obtain ⟨correlationId, streamId, body⟩ := f
    obtain rfl : body = .consumeStart queueId hint prefetch := hbody
    by_cases hhint : hint = 0
    · subst hhint
      obtain ⟨rfl, hle⟩ : alloc = .session k ∧ inbound.session.nextConsumerId ≤ bound := hok 0 rfl
      refine @Allocated.gives _ _ _ _ _ _ inbound.session.nextConsumerId _ _ h _
        (h.known k _ hp) (hm _) ?_ hle ?_ rfl
      · simp [Allocator.next, Allocator.connection, hp, Allocator.nextOf]
      · simp [Allocator.next, Allocator.connection, Allocator.nextOf, put,
          onFrame, translateFrame,
          translateConsumeStart, assignConsumerId]
    · have hfree := hok hint rfl
      rw [if_neg hhint] at hfree
      obtain ⟨hlt, howner, hstarting⟩ := hfree
      refine h.moves (hm _) (h.known k _ hp) (next_put_native hp ?_) fun c hc => .inr ?_
      · simp [onFrame, translateFrame,
          translateConsumeStart, assignConsumerId, hhint]
      · obtain ⟨-, q, hq, hin⟩ := mem_starting.mp hc
        obtain rfl : _ = q := by simpa [put] using hq
        obtain rfl : c = hint := by
          simpa [onFrame, translateFrame, starts,
            translateConsumeStart, assignConsumerId, hhint,
            command, BrokerCommandBatch.starts] using hin
        refine ⟨.inr hlt, howner, fun j _ hin => ?_⟩
        obtain ⟨-, q, hq, -⟩ := mem_starting.mp hin
        exact hstarting j (h.known j q hq) hin

theorem Allocated.advanceNative (h : Allocated connections alloc bound s)
    (hp : s.peers k = some (.native p)) (hok : Allocates connections alloc bound s (.advance k)) :
    Allocated connections alloc bound (s.advanceNative store k p) := by
  have hm : Moves store s k (s.advanceNative store k p) := moves_advanceNative hp
  obtain ⟨inbound, inbox, task, out⟩ := p
  cases task with
  | none =>
    cases inbox with
    | nil => exact h
    | cons f rest =>
      exact h.frameNative store hp (hok.2 (inbound, f) (by rw [hp]; rfl))
  | some task =>
    cases task with
    | drain f immediate => exact h.quietNative hp hm le_rfl rfl
    | command f cmd =>
      simp only [advanceNative] at hm ⊢
      split at hm
      · next system heq =>
        have hpend := h.pending store hp rfl (by rw [heq])
        rw [heq] at hpend
        exact hpend
      · next system output heq => exact h.quietNative hp hm le_rfl rfl

/-! ## Runs -/

theorem Allocated.step {order : Nat → HashOrder} (h : Allocated connections alloc bound s) {a : Act}
    (hok : Allocates connections alloc bound s a) :
    Allocated connections alloc bound (s.step store order a) := by
  have hacts := @acts_step _ store order s a
  have hm := hacts.moves
  generalize s.step store order a = s' at hacts hm
  cases hacts with
  | stays a hnone => exact h
  | accepts k amqp hnone =>
    refine h.moves hm hok (le_of_eq ?_) fun c hc => absurd hc (not_starting_put ?_ c)
    · -- a counter nobody used yet
      by_cases hk : alloc.connection = k
      · subst hk
        cases alloc <;> cases amqp <;>
          simp [Allocator.next, put, hnone, Allocator.nextOf, nextId,
            AmqpServerSession.new, AmqpSession.new, AmqpSession.consumersOf,
            NativeServerSession.new, NativeInboundAdapter.new, NativeSessionState.new]
      · simp [Allocator.next, put, hk]
    · cases amqp <;> rfl
  | receives k frames session hp => exact h.quietAmqp hp hm (fun _ _ => le_rfl) rfl
  | receivesNative k frames inbound out hp => exact h.quietNative hp hm le_rfl rfl
  | advances k p hp => exact h.advanceAmqp hp hok
  | advancesNative k p hp => exact h.advanceNative hp hok

/-- A consumer whose id is free is not refused as a duplicate. -/
theorem execConsumeStart_ne_duplicate {shard : InMemoryShardExecutor σ} {item : ConsumeStart}
    (h : shard.consumers item.consumerId = none) :
    shard.execConsumeStart item ≠
      shard.emit (.error [.consumer .duplicateConsumer item.consumerId]) := by
  intro heq
  have hsink := congrArg sink heq
  unfold execConsumeStart at hsink
  split at hsink
  · simp [emit, CommandError.queue, CommandError.consumer] at hsink
  · simp only [h] at hsink
    -- what follows the start only adds to the sink
    obtain ⟨es, hes⟩ := Reaches.sink (reaches_driveQueue (P := fun _ => True)
      (fun _ _ => trivial) (((shard.setConsumer item.consumerId (startState item)).setQueue
        item.queueId _).emit (.consumer item.consumerId .started)) item.queueId)
    rw [hes] at hsink
    simp [emit, setConsumer, setQueue] at hsink

theorem Allocated.idsDistinct (h : Allocated connections alloc bound s) : IdsDistinct s := by
  -- a call that is under way has not been executed
  have hstarting : ∀ call ∈ s.system.calls, ∀ c ∈ call.cmd.starts, c ∈ s.starting call.source := by
    intro call hin c hc
    obtain ⟨⟨p, hp, hcmd⟩, -⟩ := h.aligned.calls call hin
    refine mem_starting.mpr ⟨fun e he hk => ?_, p, hp, starts_of_command hcmd ▸ hc⟩
    exact h.aligned.once.apart hin he hk
  have hfresh : ∀ call ∈ s.system.calls, ∀ c ∈ call.cmd.starts,
      s.system.shard.consumers c = none := by
    intro call hin c hc
    have hlive := h.aligned.ledger.live c
    rw [(h.starting _ c (hstarting call hin c hc)).2] at hlive
    simpa [view] using hlive.symm
  refine ⟨hfresh, fun call hin call' hin' hne c hc hc' => ?_, fun call hin item hcmd => ?_⟩
  · exact hne (h.distinct _ _ c (hstarting call hin c hc) (hstarting call' hin' c hc'))
  · exact execConsumeStart_ne_duplicate (hfresh call hin _ (by rw [hcmd]; exact mem_cons_self))

end

/-- **Consumer ids are unique** if one counter gives all of them up to
`bound` and hints lie above. In every run of native and AMQP sessions that
respects this, no consumer handed to the executor is a live one or one
that another connection is about to start. -/
theorem consumer_ids_distinct (store : ShardStorage σ) (order : Nat → HashOrder)
    {routing : RoutingBootstrapConfig} {durable : Option σ} {broker : SingleNodeBroker σ}
    (hnew : SingleNodeBroker.new routing durable = .ok broker) {connections : List Nat}
    {alloc : Allocator} {bound : Nat} {acts : List Act}
    (hmeets : Meets (BrokerServer.step store order) (Allocates connections alloc bound)
      (.new broker) acts) :
    IdsDistinct ((BrokerServer.new broker).run store order acts) := by
  have hstarting : ∀ k, (BrokerServer.new broker).starting k = [] := fun _ => rfl
  have hinit : Allocated connections alloc bound (BrokerServer.new broker) := by
    constructor
    case aligned => exact aligned_new (SingleNodeBroker.new_shard hnew)
    case known => exact fun k p hp => by cases hp
    case live => exact fun c hc => by cases hc
    case starting => exact fun k c hc => by rw [hstarting] at hc; cases hc
    case distinct => exact fun k j c hc => by rw [hstarting] at hc; cases hc
  exact (hmeets.invariant (fun s a h hok => h.step hok) hinit).idsDistinct

/-- One channel starts two consumers, and a native client hints 9. -/
def oneCounter : List Act :=
  [.accept 1 true, .accept 2 false] ++
    talks 1 (handshake ++ [openFrame 1, declareFrame 1,
      consumeFrame 1 [97], consumeFrame 1 [98]]) ++
    [.receiveNative 2 [⟨0, 0, .consumeStart 1 9 10⟩], .advance 2, .advance 2]

/-- The command of the native client is under way. -/
theorem consumer_ids_distinct_one :
    let s := (BrokerServer.new .dev).run .null (fun _ => .insertion) oneCounter
    s.system.calls.map (·.cmd.starts) = [[9]] ∧
      [1, 2, 9].map (fun c => (s.system.shard.consumers c).isSome) = [true, true, false] ∧
      IdsDistinct s :=
  ⟨by decide +kernel, by decide +kernel, @consumer_ids_distinct _ .null (fun _ => .insertion) _ _ _
    SingleNodeBroker.new_dev [1, 2] (.channel 1 1) 2 oneCounter (by decide +kernel)⟩

/-- Two channels of one connection, each with one consumer: both counters
begin at 1, and the executor refuses the second consumer. -/
theorem second_channel_refused : let acts := .accept 1 true :: talks 1 (handshake ++
      [openFrame 1, openFrame 2, declareFrame 1, consumeFrame 1 [97], consumeFrame 2 [98]])
    let s := (BrokerServer.new .dev).run .null (fun _ => .insertion) acts
    Event.consumer 1 .started ∈ s.system.shard.sink ∧
      Event.error [.consumer .duplicateConsumer 1] ∈ s.system.shard.sink := by
  decide +kernel

end Aurum.Server
