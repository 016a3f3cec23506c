import Aurum.Amqp.Attended
import Aurum.Server.Channels
import Aurum.Service.Registered

/-!
# Server — consumers without a client

A client can settle what it was sent only on an open channel of an open
connection. A session closes channels and the connection on many paths,
and none of them cancels a consumer at the broker. `no_orphaned_consumers`
says when none is left behind: whatever closes a channel happens when it
has no consumer. `closed_channel_keeps_consumer` shows one that is left
behind, with a message inflight.
-/

namespace Aurum.Server

open Aurum.Runs Aurum.Protocol Aurum.Broker Aurum.Service Aurum.Amqp InMemoryShardExecutor List
open AmqpSession
open SingleNodeBroker
open BrokerServer

variable {σ : Type}

/-! ## Definitions -/

def refuses (b : SingleNodeBroker σ) : AmqpControlCommand → Bool
  | .bindQueue _ exchange _ => (b.exchangeNames exchange).isNone
  | .resolveQueueId name => (b.queueNames name).isNone
  | .declareExchange _ _ | .declareQueue _ => false

/-- **What a client has to respect**, and what must not happen to it.
Frames that open or close a channel, or have it closed with an error, come
when no consumer is on the channel, and so do the answers that close it: a
refused control command, a mandatory message without a route, and an error
of the broker. A method of the connection other than `open`, and an error
of the scope of the connection, come when the connection has no consumer. -/
def SessionSpares (s : System σ) (k : Nat) (p : AmqpServerSession) : Prop :=
  match p.ask with
  | none => ∀ f ∈ p.inbox.head?, (f.endsConnection = true → s.registered k = []) ∧
      ∀ channel ∈ p.session.endsChannel f, ∀ x ∈ s.registered k, x.2 ≠ channel
  | some (.control cmd reply) => refuses s.service.broker cmd = true →
      ∀ channel ∈ reply.closing, ∀ x ∈ s.registered k, x.2 ≠ channel
  | some (.routeVersion _) => True
  | some (.resolveRoute q) =>
    let m := q.content.publish
    m.mandatory = true → s.service.broker.resolveAmqpRoute (toStringLossy m.exchange)
      (toStringLossy m.routingKey) = none → ∀ x ∈ s.registered k, x.2 ≠ q.channel
  | some (.command _ reply) => ∀ e ∈ s.waiting.find? (·.source = k), ∀ channel ∈ reply.channel,
      ∀ err ∈ e.output.errors, ∀ x ∈ s.registered k, CommandError.Spares err channel x.2

/-- The condition on a connection. -/
def Peer.Spares (s : System σ) (k : Nat) : Peer → Prop
  | .amqp p => SessionSpares s k p
  | .native _ => True

/-- The condition on an act. -/
def Spares (s : BrokerServer σ) : Act → Prop
  | .advance k => ∀ p ∈ s.peers k, p.Spares s.system k
  | .accept _ _ | .receive _ _ | .receiveNative _ _ => True

instance (err : CommandError) (replyChannel channel : Nat) :
    Decidable (CommandError.Spares err replyChannel channel) := inferInstanceAs (Decidable (_ ∧ _))

instance (s : System σ) (k : Nat) : ∀ p, Decidable (SessionSpares s k p)
  | ⟨session, inbox, none, _⟩ => inferInstanceAs (Decidable (∀ f ∈ inbox.head?,
      (f.endsConnection = true → s.registered k = []) ∧
        ∀ channel ∈ session.endsChannel f, ∀ x ∈ s.registered k, x.2 ≠ channel))
  | ⟨_, _, some (.control cmd reply), _⟩ => inferInstanceAs (Decidable
      (refuses s.service.broker cmd = true → ∀ channel ∈ reply.closing,
        ∀ x ∈ s.registered k, x.2 ≠ channel))
  | ⟨_, _, some (.routeVersion _), _⟩ => .isTrue trivial
  | ⟨_, _, some (.resolveRoute q), _⟩ => inferInstanceAs (Decidable
      (q.content.publish.mandatory = true → s.service.broker.resolveAmqpRoute
        (toStringLossy q.content.publish.exchange)
        (toStringLossy q.content.publish.routingKey) = none →
          ∀ x ∈ s.registered k, x.2 ≠ q.channel))
  | ⟨_, _, some (.command _ reply), _⟩ => inferInstanceAs (Decidable
      (∀ e ∈ s.waiting.find? (·.source = k), ∀ channel ∈ reply.channel,
        ∀ err ∈ e.output.errors, ∀ x ∈ s.registered k, CommandError.Spares err channel x.2))

instance (s : System σ) (k : Nat) : ∀ p : Peer, Decidable (p.Spares s k)
  | .amqp p => inferInstanceAs (Decidable (SessionSpares s k p))
  | .native _ => .isTrue trivial

instance (s : BrokerServer σ) : ∀ a, Decidable (Spares s a)
  | .advance k => inferInstanceAs (Decidable (∀ p ∈ s.peers k, p.Spares s.system k))
  | .accept _ _ | .receive _ _ | .receiveNative _ _ => .isTrue trivial

/-! ## The invariant -/

/-- The channels of the consumers a call is about to start. -/
def startChannels : Option Ask → List Nat
  | some (.control _ (.consuming channel _ _)) => [channel]
  | some (.command cmd _) => cmd.startItems.map ConsumeStart.channelId
  | _ => []

/-- The consumers of a session are attended, and so are those it starts. -/
structure SessionAttends (s : System σ) (k : Nat) (p : AmqpServerSession) : Prop where
  steady : Steady p.session
  live : ∀ c channel, s.owner c = some k → s.shard.channelOf c = some channel →
    p.session.attends channel
  starting : ∀ channel ∈ startChannels p.ask, p.session.attends channel

/-- **Every consumer of an AMQP connection is attended.** -/
structure Attended (s : BrokerServer σ) : Prop where
  aligned : Aligned s
  registry : Registry s.system
  connected : ∀ k c, s.system.owner c = some k → s.peers k ≠ none
  sessions : ∀ k p, s.peers k = some (.amqp p) → SessionAttends s.system k p

section

variable {store : ShardStorage σ} {s s' : BrokerServer σ} {k : Nat}

/-- The step of the service in a move of connection `k`. -/
theorem Moves.system (hm : Moves store s k s') :
    s'.system = s.system ∨ ∃ a, s'.system = s.system.step store a ∧
      (∀ j, a = .execute j → j = k) := by
  cases hm with
  | stay => exact .inl rfl
  | own p' hnone => exact .inl rfl
  | control cmd p p' hp hnone => exact .inr ⟨.control cmd, rfl, fun j h => nomatch h⟩
  | drain p p' hp hnone => exact .inr ⟨.drain k, rfl, fun j h => nomatch h⟩
  | serves cmd p p' hp hcmd hstay =>
    refine .inr ⟨serveStep s.system k cmd, serve_eq_step store s.system k cmd, fun j h => ?_⟩
    unfold serveStep at h
    split at h
    · cases h
    · split at h
      · cases h
      · cases h
        rfl
      · cases h

/-- **Who is registered after a move of connection `k`.** -/
theorem Moves.channelOf (h : Registry s.system) (hm : Moves store s k s') {j c channel : Nat}
    (howner : s'.system.owner c = some j)
    (hch : s'.system.shard.channelOf c = some channel) :
    s.system.owner c = some j ∧ s.system.shard.channelOf c = some channel ∨
      j = k ∧ ∃ cmd, ⟨k, [], cmd⟩ ∈ s.system.calls ∧
        ∃ item ∈ cmd.startItems, item.channelId = channel := by
  rcases hm.system with heq | ⟨a, heq, hexecute⟩
  · rw [heq] at howner hch
    exact .inl ⟨howner, hch⟩
  · rw [heq] at howner hch
    rcases h.step_channelOf store howner hch with hold | ⟨cmd, rfl, hcall, item, hitem, -, hitem'⟩
    · exact .inl hold
    · obtain rfl := hexecute j rfl
      exact .inr ⟨rfl, cmd, hcall, item, hitem, hitem'⟩

theorem Moves.registry (h : Registry s.system) (hm : Moves store s k s') : Registry s'.system := by
  rcases hm.system with heq | ⟨a, heq, -⟩
  · rwa [heq]
  · rw [heq]
    exact h.step store a

/-- **A move of connection `k`** only has to show what happens to its own
session. -/
theorem Attended.moves (h : Attended s) (hm : Moves store s k s')
    (hself : ∀ p, s'.peers k = some (.amqp p) → SessionAttends s'.system k p) : Attended s' := by
  have hregistry := hm.registry h.registry
  have hothers : ∀ j ≠ k, s'.peers j = s.peers j := fun j hj => (hm.others h.aligned hj).1
  -- Who owns a consumer was connected, and stays so.
  have hkept : s.peers k ≠ none → s'.peers k ≠ none := by
    intro hsome
    cases hm with
    | stay => exact hsome
    | _ => simp [put]
  refine ⟨h.aligned.moves hm, hregistry, ?_, ?_⟩
  · intro j c howner
    have hlive : (s'.system.shard.channelOf c).isSome := by
      rw [isSome_channelOf, ← hregistry.ledger.live, howner]
      rfl
    obtain ⟨channel, hch⟩ := Option.isSome_iff_exists.mp hlive
    rcases hm.channelOf h.registry howner hch with ⟨hold, -⟩ | ⟨rfl, cmd, hcall, -⟩
    · by_cases hj : j = k
      · subst hj
        exact hkept (h.connected j c hold)
      · rw [hothers j hj]
        exact h.connected j c hold
    · obtain ⟨⟨p, hp, -⟩, -⟩ := h.aligned.calls _ hcall
      exact hkept (by rw [hp]; exact Option.some_ne_none p)
  · intro j p hp
    by_cases hj : j = k
    · subst hj
      exact hself p hp
    · have hp' : s.peers j = some (.amqp p) := hothers j hj ▸ hp
      have hsession := h.sessions j p hp'
      refine ⟨hsession.steady, fun c channel howner hch => ?_, hsession.starting⟩
      rcases hm.channelOf h.registry howner hch with ⟨hown, hold⟩ | ⟨hjk, -⟩
      · exact hsession.live c channel hown hold
      · exact absurd hjk hj

/-- **A move of a session without a call under way**: the session keeps
attending the channels of its consumers. -/
theorem Attended.keeps (h : Attended s) {p p' : AmqpServerSession} {system : System σ}
    (hp : s.peers k = some (.amqp p)) (hm : Moves store s k (s.put k system (.amqp p')))
    (hcalls : ∀ call ∈ s.system.calls, call.source ≠ k) (hsteady : Steady p'.session)
    (hkeeps : ∀ c channel, (c, channel) ∈ s.system.registered k → p.session.attends channel →
      p'.session.attends channel)
    (hstarting : ∀ channel ∈ startChannels p'.ask, p'.session.attends channel) :
    Attended (s.put k system (.amqp p')) := by
  refine h.moves hm fun q hq => ?_
  rw [put_peers] at hq
  cases hq
  refine ⟨hsteady, fun c channel howner hch => ?_, hstarting⟩
  rcases hm.channelOf h.registry howner hch with ⟨hown, hold⟩ | ⟨-, cmd, hcall, -⟩
  · exact hkeeps c channel (h.registry.mem_registered.mpr ⟨hown, hold⟩)
      ((h.sessions k p hp).live c channel hown hold)
  · exact absurd rfl (hcalls _ hcall)

end

/-! ## One step of a session -/

theorem handleAmqpControl_ok (store : ShardStorage σ) (b : SingleNodeBroker σ)
    (cmd : AmqpControlCommand) : (b.handleAmqpControl store cmd).2.ok = !refuses b cmd := by
  cases cmd with
  | declareExchange name exchangeType => rfl
  | declareQueue name => rfl
  | resolveQueueId name =>
    rw [handleAmqpControl, refuses]
    cases b.queueNames name <;> rfl
  | bindQueue queue exchange routingKey =>
    rw [handleAmqpControl, bindQueue, refuses]
    cases b.exchangeNames exchange <;> rfl

/-- Pushed outputs have no errors. -/
theorem drained_errors {s : System σ} (h : Registry s) (k : Nat) :
    (s.service.drainConnectionOutputs k).2.errors = [] := by
  have hfold : ∀ (outs : List ShardOutputBatch) (acc : ShardOutputBatch), acc.errors = [] →
      (∀ o ∈ outs, o.errors = []) → (outs.foldl ShardOutputBatch.merge acc).errors = [] := by
    intro outs
    induction outs with
    | nil => exact fun acc hacc _ => hacc
    | cons o outs ih =>
      intro acc hacc houts
      obtain ⟨ho, houts⟩ := forall_mem_cons.mp houts
      refine ih _ ?_ houts
      simp [ShardOutputBatch.merge, hacc, ho]
  exact hfold _ _ rfl (h.pushed k)

/-- The call of a frame starts consumers on attended channels only. -/
theorem onFrame_starting (order : HashOrder) (session : AmqpSession) (f : Frame) {call : Ask}
    (hcall : (session.onFrame order f).2 = .ask call) :
    ∀ channel ∈ startChannels (some call), (session.onFrame order f).1.attends channel := by
  have hturn := session.turn_onFrame order f
  have hhandles := session.handles_onFrame order f
  generalize session.onFrame order f = r at hcall hturn hhandles
  intro channel hchannel
  cases hhandles with
  | plain _ _ _ hplain =>
    rw [hcall] at hplain
    cases call with
    | control cmd reply =>
      cases reply with
      | consuming _ _ _ => cases hplain
      | _ => cases hchannel
    | command cmd reply => cases hplain
    | _ => cases hchannel
  | opened ch text => cases hcall
  | consume ch c m hopen hack =>
    cases hcall
    obtain rfl := mem_singleton.mp hchannel
    have hconnection := hturn.open_of_ask rfl rfl
    obtain ⟨hc, hphase⟩ := Option.filter_eq_some_iff.mp hopen
    have hattends : session.attends channel := by
      refine ⟨hconnection, ?_⟩
      rw [phaseOf, hc]
      exact congrArg some (of_decide_eq_true hphase)
    exact attends_mapChannel (fun _ => rfl) hattends
  | cancel ch c tag noWait id =>
    cases hcall
    cases hchannel
  | settle ch c m tag cmd id hm =>
    cases hcall
    cases m with
    | ack _ _ | nack _ _ _ | reject _ _ =>
      obtain ⟨-, rfl⟩ := Prod.mk.inj (Option.some.inj hm)
      cases hchannel
    | _ => cases hm

section

variable {store : ShardStorage σ} {order : HashOrder} {s : BrokerServer σ} {k : Nat}
  {session : AmqpSession} {inbox : List Frame} {draining : Bool}

/-- The call a session goes on with. -/
theorem resume_ask (p : AmqpServerSession) (r : AmqpSession × Outcome) :
    (p.resume r).ask = none ∨ ∃ call, r.2 = .ask call ∧ (p.resume r).ask = some call := by
  unfold AmqpServerSession.resume
  split
  · exact .inl rfl
  · exact .inl rfl
  · next call hcall => exact .inr ⟨call, hcall, rfl⟩

/-- **A session goes on after an outcome**, without a call under way. -/
theorem Attended.resumes (h : Attended s) {p p' : AmqpServerSession} {system : System σ}
    {r : AmqpSession × Outcome} (hp : s.peers k = some (.amqp p))
    (hm : Moves store s k (s.put k system (.amqp (p'.resume r))))
    (hcalls : ∀ call ∈ s.system.calls, call.source ≠ k) (hsteady : Steady r.1)
    (hkeeps : ∀ c channel, (c, channel) ∈ s.system.registered k → p.session.attends channel →
      r.1.attends channel)
    (hstarts : ∀ call, r.2 = .ask call → ∀ channel ∈ startChannels (some call),
      r.1.attends channel) : Attended (s.put k system (.amqp (p'.resume r))) := by
  refine h.keeps hp hm hcalls ?_ ?_ ?_ <;> rw [resume_session]
  · exact hsteady
  · exact hkeeps
  · rcases resume_ask p' r with hnone | ⟨call, hcall, hask⟩
    · rw [hnone]
      exact forall_mem_nil _
    · rw [hask]
      exact hstarts call hcall

theorem Attended.no_calls (h : Attended s) {p : Peer} (hp : s.peers k = some p)
    (hnone : p.command = none) : ∀ call ∈ s.system.calls, call.source ≠ k := by
  exact (h.aligned.free (no_command hp hnone)).1

theorem Attended.frame (h : Attended s) {f : Frame} {rest : List Frame}
    (hp : s.peers k = some (.amqp ⟨session, f :: rest, none, draining⟩))
    (hspares : SessionSpares s.system k ⟨session, f :: rest, none, draining⟩) :
    Attended (s.advanceAmqp store order k ⟨session, f :: rest, none, draining⟩) := by
  have hm : Moves store s k (s.advanceAmqp store order k _) := moves_advanceAmqp hp
  have hturn := session.turn_onFrame order f
  have hsession := h.sessions k _ hp
  obtain ⟨hconnection, hchannel⟩ := hspares f rfl
  refine h.resumes hp hm (h.no_calls hp rfl) (hturn.steady hsession.steady)
    (fun c channel hc hattends => ?_) fun call => onFrame_starting order session f
  refine hturn.attends hsession.steady hattends ?_ ?_
  · by_contra hends
    rw [hconnection (Bool.eq_true_of_not_eq_false hends)] at hc
    cases hc
  · intro hends
    exact hchannel channel hends (c, channel) hc rfl

/-- Pushed deliveries. -/
theorem Attended.drain (h : Attended s) (hp : s.peers k = some (.amqp ⟨session, [], none, true⟩)) :
    Attended (s.advanceAmqp store order k ⟨session, [], none, true⟩) := by
  have hm : Moves store s k (s.advanceAmqp store order k _) := moves_advanceAmqp hp
  have hquiet := quiet_onPushed session (drained_errors h.registry k)
  refine h.keeps hp hm (h.no_calls hp rfl) ?_ ?_ (forall_mem_nil _)
  · exact (h.sessions k _ hp).steady.loose hquiet.loose
  · exact fun c channel _ hattends => hquiet.attends hattends

/-- The answer to a control command. -/
theorem Attended.control (h : Attended s) {cmd : AmqpControlCommand} {reply : ControlReply}
    (hp : s.peers k = some (.amqp ⟨session, inbox, some (.control cmd reply), draining⟩))
    (hspares : SessionSpares s.system k ⟨session, inbox, some (.control cmd reply), draining⟩) :
    Attended (s.advanceAmqp store order k
      ⟨session, inbox, some (.control cmd reply), draining⟩) := by
  have hm : Moves store s k (s.advanceAmqp store order k _) := moves_advanceAmqp hp
  have hsession := h.sessions k _ hp
  refine h.resumes hp hm (h.no_calls hp rfl)
    (hsession.steady.loose (session.loose_onControl reply _)) (fun c channel hc hattends => ?_)
    fun call hcall channel hchannel => ?_
  · refine attends_onControl hattends fun hok hclosing => ?_
    rw [handleAmqpControl_ok, Bool.not_eq_false'] at hok
    exact hspares hok channel hclosing (c, channel) hc rfl
  · -- Only the resolved queue of a `basic.consume` leads to another call.
    rcases onControl_cases session reply
      (s.system.service.broker.handleAmqpControl store cmd).2 with
      ⟨-, hdone⟩ | ⟨ch, tag, id, prefetch, rfl, heq⟩
    · rw [hdone] at hcall
      cases hcall
    · rw [heq] at hcall ⊢
      cases hcall
      exact hsession.starting channel hchannel

/-- The version of the route table. -/
theorem Attended.routeVersion (h : Attended s) {q : Publishing}
    (hp : s.peers k = some (.amqp ⟨session, inbox, some (.routeVersion q), draining⟩)) :
    Attended (s.advanceAmqp store order k
      ⟨session, inbox, some (.routeVersion q), draining⟩) := by
  have hm : Moves store s k (s.advanceAmqp store order k _) := moves_advanceAmqp hp
  have hquiet := session.quiet_onRouteVersion q s.system.service.broker.broker.routeTable.version
  refine h.resumes hp hm (h.no_calls hp rfl) ((h.sessions k _ hp).steady.loose hquiet.loose)
    (fun c channel _ => hquiet.attends) fun call hcall channel hchannel => ?_
  rcases onRouteVersion_cases session q
    s.system.service.broker.broker.routeTable.version with heq | ⟨target, heq⟩ <;>
  · rw [heq] at hcall
    cases hcall
    cases hchannel

/-- The resolved route of a message. -/
theorem Attended.resolveRoute (h : Attended s) {q : Publishing}
    (hp : s.peers k = some (.amqp ⟨session, inbox, some (.resolveRoute q), draining⟩))
    (hspares : SessionSpares s.system k ⟨session, inbox, some (.resolveRoute q), draining⟩) :
    Attended (s.advanceAmqp store order k
      ⟨session, inbox, some (.resolveRoute q), draining⟩) := by
  have hm : Moves store s k (s.advanceAmqp store order k _) := moves_advanceAmqp hp
  refine h.resumes hp hm (h.no_calls hp rfl)
    ((h.sessions k _ hp).steady.loose (session.loose_onResolved q _))
    (fun c channel hc hattends => attends_onResolved hattends fun hentry hmandatory =>
      hspares hmandatory hentry (c, channel) hc) fun call hcall channel hchannel => ?_
  · unfold onResolved at hcall
    split at hcall
    · cases hcall
      cases hchannel
    · split at hcall <;> cases hcall

/-- A step of a command. -/
theorem Attended.command (h : Attended s) {cmd : BrokerCommandBatch} {reply : CommandReply}
    (hp : s.peers k = some (.amqp ⟨session, inbox, some (.command cmd reply), draining⟩))
    (hspares : SessionSpares s.system k ⟨session, inbox, some (.command cmd reply), draining⟩) :
    Attended (s.advanceAmqp store order k
      ⟨session, inbox, some (.command cmd reply), draining⟩) := by
  have hm : Moves store s k (s.advanceAmqp store order k _) := moves_advanceAmqp hp
  have hsession := h.sessions k _ hp
  have hserves : Serves store s.system k cmd _ _ := h.aligned.serves hp rfl
  simp only [advanceAmqp] at hm ⊢
  split at hm
  · next system hserve =>
    -- The session waits; a consumer it starts is on a channel it attends.
    refine h.moves hm fun q hq => ?_
    rw [put_peers] at hq
    cases hq
    refine ⟨hsession.steady, fun c channel howner hch => ?_, hsession.starting⟩
    rcases hm.channelOf h.registry howner hch with ⟨hown, hold⟩ | ⟨-, cmd', hcall, item, hitem, rfl⟩
    · exact hsession.live c channel hown hold
    · obtain ⟨⟨q, hq, hcmd⟩, -⟩ := h.aligned.calls _ hcall
      rw [hp] at hq
      cases hq
      cases hcmd
      exact hsession.starting _ (mem_map_of_mem hitem)
  · next system output hserve =>
    simp only [hserve] at hserves ⊢
    cases hserves with
    | route e he hcalls =>
      have herrors : (s.system.service.routeOutput e.source e.output).2.errors =
          e.output.errors := by
        rw [BrokerService.routeOutput_eq]
      refine h.resumes hp hm hcalls (hsession.steady.loose (session.loose_onOutput reply _))
        (fun c channel hc hattends => ?_) fun call hcall => ?_
      · refine attends_onOutput hattends fun ch hch err herr => ?_
        exact hspares e he ch hch err (herrors ▸ herr) (c, channel) hc
      · have hcalls' := calls_onOutput session reply
          (s.system.service.routeOutput e.source e.output).2
        rw [hcall] at hcalls'
        exact absurd hcalls' (Outcome.calls_pos call).ne'

/-- **A step of an AMQP session.** -/
theorem Attended.advance (h : Attended s) {p : AmqpServerSession}
    (hp : s.peers k = some (.amqp p)) (hspares : SessionSpares s.system k p) :
    Attended (s.advanceAmqp store order k p) := by
  obtain ⟨session, inbox, ask, draining⟩ := p
  cases ask with
  | some call =>
    cases call with
    | control cmd reply => exact h.control hp hspares
    | routeVersion q => exact h.routeVersion hp
    | resolveRoute q => exact h.resolveRoute hp hspares
    | command cmd reply => exact h.command hp hspares
  | none =>
    cases inbox with
    | cons f rest => exact h.frame hp hspares
    | nil =>
      cases draining with
      | true => exact h.drain hp
      | false => exact h

end

/-! ## Runs -/

section

variable {store : ShardStorage σ} {order : Nat → HashOrder} {s : BrokerServer σ}

/-- A connection has no consumers before it is accepted. -/
theorem Attended.accept (h : Attended s) {k : Nat} (hnone : s.peers k = none)
    (hm : Moves store s k (s.put k s.system (.amqp .new))) :
    Attended (s.put k s.system (.amqp .new)) := by
  refine h.moves hm fun p hp => ?_
  rw [put_peers] at hp
  cases hp
  refine ⟨steady_new, fun c channel howner _ => ?_, forall_mem_nil _⟩
  exact absurd hnone (h.connected k c howner)

theorem advanceNative_peers (store : ShardStorage σ) {k : Nat} {p : NativeServerSession}
    (hp : s.peers k = some (.native p)) :
    ∃ p', (s.advanceNative store k p).peers k = some (.native p') := by
  unfold advanceNative
  split
  · split <;> exact ⟨_, put_peers _ _⟩
  · exact ⟨_, put_peers _ _⟩
  · split
    · exact ⟨_, put_peers _ _⟩
    · exact ⟨p, hp⟩

/-- **One act.** -/
theorem Attended.step (h : Attended s) {a : Act} (hspares : Spares s a) :
    Attended (s.step store order a) := by
  have hacts := @acts_step _ store order s a
  have hm := hacts.moves
  generalize s.step store order a = s' at hacts hm
  cases hacts with
  | stays a hnone => exact h
  | accepts k amqp hnone =>
    cases amqp with
    | true => exact h.accept hnone hm
    | false =>
      refine h.moves hm fun p hp => ?_
      rw [Act.connection, put_peers] at hp
      cases hp
  | receives k frames session hp =>
    have hsession := h.sessions k _ hp
    refine h.moves hm fun q hq => ?_
    rw [Act.connection, put_peers] at hq
    cases hq
    exact ⟨hsession.steady, hsession.live, hsession.starting⟩
  | receivesNative k frames inbound out hp =>
    refine h.moves hm fun q hq => ?_
    rw [Act.connection, put_peers] at hq
    cases hq
  | advances k p hp => exact h.advance hp (hspares _ hp)
  | advancesNative k p hp =>
    -- A native session attends no channels.
    refine h.moves hm fun q hq => ?_
    obtain ⟨p', hp'⟩ := advanceNative_peers store hp
    rw [Act.connection, hp'] at hq
    cases hq

end

theorem attended_new {broker : SingleNodeBroker σ} {shardId : Nat} {durable : Option σ}
    (h : broker.broker.shard = .new shardId durable) : Attended (new broker) :=
  ⟨aligned_new h, registry_new h, fun _ _ hc => (nomatch hc), fun _ _ hp => (nomatch hp)⟩

/-- **No orphaned consumers.** In every run whose acts all meet `Spares`,
each consumer an AMQP connection started and the broker still has
registered belongs to an open channel of the connection, which is open;
and every inflight message is at such a consumer, or at one of a native
connection. -/
theorem no_orphaned_consumers (store : ShardStorage σ) (order : Nat → HashOrder)
    {routing : RoutingBootstrapConfig} {durable : Option σ} {broker : SingleNodeBroker σ}
    (hnew : SingleNodeBroker.new routing durable = .ok broker) {acts : List Act}
    (hmeets : Meets (BrokerServer.step store order) Spares (.new broker) acts) :
    let s := (BrokerServer.new broker).run store order acts
    (∀ k p c channel, s.peers k = some (.amqp p) → s.system.owner c = some k →
      s.system.shard.channelOf c = some channel → p.session.attends channel) ∧
    ∀ q x, s.system.shard.stateOf q x = some .inflight →
      ∃ c t channel, s.system.shard.Holds c q t x ∧ s.system.shard.channelOf c = some channel ∧
        ∀ k p, s.system.owner c = some k → s.peers k = some (.amqp p) →
          p.session.attends channel := by
  intro s
  have hattended : Attended s :=
    hmeets.invariant (fun s a h hspares => h.step hspares)
      (attended_new (SingleNodeBroker.new_shard hnew))
  refine ⟨fun k p c channel hp howner hch =>
    (hattended.sessions k p hp).live c channel howner hch, fun q x hin => ?_⟩
  have howned := hattended.registry.ledger.sound.coherent.owned
  obtain ⟨c, t, hview⟩ := (howned.inflight q x).mp hin
  have hholds := holds_view.mp hview
  obtain ⟨state, hstate, -⟩ := hholds
  have hch : s.system.shard.channelOf c = some state.channelId := by
    rw [InMemoryShardExecutor.channelOf, hstate]
    rfl
  exact ⟨c, t, state.channelId, holds_view.mp hview, hch, fun k p howner hp =>
    (hattended.sessions k p hp).live c _ howner hch⟩

/-- `channel.close`. -/
def channelCloseFrame (channel : Nat) : Frame :=
  .method channel (some (.channel (.close ⟨200, [], 0, 0⟩)))

/-- The phase of a channel of connection `k`. -/
def phaseAt (s : BrokerServer σ) (k channel : Nat) : Option ChannelPhase :=
  match s.peers k with
  | some (.amqp p) => p.session.phaseOf channel
  | _ => none

/-- Connection 1 consumes on channel 2, publishes on channel 1 and closes
channel 1. -/
def closesFreeChannel : List Act :=
  .accept 1 true :: talks 1 (handshake ++ [openFrame 1, openFrame 2, declareFrame 1,
    consumeFrame 2 [97]] ++ publishFrames 1 [5] ++ [channelCloseFrame 1])

theorem free_channel_is_closed :
    let s := (BrokerServer.new .dev).run .null (fun _ => .insertion) closesFreeChannel
    s.system.registered 1 = [(1, 2)] ∧ s.system.shard.stateOf 1 0 = some .inflight ∧
      ∀ p c channel, s.peers 1 = some (.amqp p) → s.system.owner c = some 1 →
        s.system.shard.channelOf c = some channel → p.session.attends channel :=
  ⟨by decide +kernel, by decide +kernel, (@no_orphaned_consumers _ .null (fun _ => .insertion) _ _ _
    SingleNodeBroker.new_dev closesFreeChannel (by decide +kernel)).1 1⟩

/-- Channel 1 is closed while its consumer has a message: the consumer
stays registered, and the message stays inflight. -/
theorem closed_channel_keeps_consumer :
    let acts := .accept 1 true :: talks 1 (handshake ++ [openFrame 1, declareFrame 1,
      consumeFrame 1 [97]] ++ publishFrames 1 [5] ++ [channelCloseFrame 1])
    let s := (BrokerServer.new .dev).run .null (fun _ => .insertion) acts
    s.system.registered 1 = [(1, 1)] ∧ s.system.owner 1 = some 1 ∧
      s.system.shard.channelOf 1 = some 1 ∧ s.system.shard.stateOf 1 0 = some .inflight ∧
      phaseAt s 1 1 = some .closed := by
  decide +kernel

end Aurum.Server
