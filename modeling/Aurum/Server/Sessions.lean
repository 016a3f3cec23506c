import Aurum.Amqp.Steps
import Aurum.Server.Runs

/-!
# Server — the steps of an AMQP session

`AmqpStep` lists what the thread of an AMQP connection can do in one step,
with what is known about the session afterwards. The invariants of the
following modules go through its cases and never look at a handler.
-/

namespace Aurum.Server

open Aurum.Protocol Aurum.Broker Aurum.Service Aurum.Amqp AmqpServerSession BrokerServer AmqpSession

variable {σ : Type}

/-- The session after its counterpart cancelled a consumer. -/
def afterCancel (session : AmqpSession) (channel : Nat) (tag : ShortStr) : AmqpSession :=
  (session.mapChannel channel fun ch => { ch with consumers := ch.consumers.remove tag }).sendMethod
    channel (.basic .cancelOk)

/-- **What an AMQP session of connection `k` does in one step**, with the
service after it. -/
inductive AmqpStep (store : ShardStorage σ) (order : HashOrder) (s : System σ) (k : Nat) :
    AmqpServerSession → System σ → AmqpServerSession → Prop
  | idle (session : AmqpSession) :
      AmqpStep store order s k ⟨session, [], none, false⟩ s ⟨session, [], none, false⟩
  | frame (session : AmqpSession) (f : Frame) (rest : List Frame) (draining : Bool)
      (hh : Handles order session f (session.onFrame order f)) :
      AmqpStep store order s k ⟨session, f :: rest, none, draining⟩ s
        (resume ⟨session, rest, none, draining⟩ (session.onFrame order f))
  | drain (session session' : AmqpSession) (sent : List Delivery)
      (hpre : sent <+:
        (s.service.drainConnectionOutputs k).2.deliveries.flatMap (session.outgoing 1))
      (hsends : Sends session sent session') :
      AmqpStep store order s k ⟨session, [], none, true⟩ (s.step store (.drain k))
        ⟨session', [], none, false⟩
  | replied (session session' : AmqpSession) (inbox : List Frame) (cmd : AmqpControlCommand)
      (reply : ControlReply) (draining : Bool) (hsame : Same session session') :
      AmqpStep store order s k ⟨session, inbox, some (.control cmd reply), draining⟩
        (s.step store (.control cmd)) ⟨session', inbox, none, draining⟩
  | consuming (session : AmqpSession) (inbox : List Frame) (cmd : AmqpControlCommand)
      (channel : Nat) (tag : ShortStr) (id queueId : Nat) (prefetch : UInt32) (draining : Bool) :
      AmqpStep store order s k
        ⟨session, inbox, some (.control cmd (.consuming channel tag id)), draining⟩
        (s.step store (.control cmd))
        ⟨session, inbox, some (.command (.shard (.consume [⟨id, channel, queueId, prefetch⟩]))
          (.consumed channel tag)), draining⟩
  | resolve (session : AmqpSession) (inbox : List Frame) (q : Publishing) (draining : Bool) :
      AmqpStep store order s k ⟨session, inbox, some (.routeVersion q), draining⟩ s
        ⟨session, inbox, some (.resolveRoute q), draining⟩
  | unrouted (session session' : AmqpSession) (inbox : List Frame) (q : Publishing)
      (draining : Bool) (hsame : Same session session') :
      AmqpStep store order s k ⟨session, inbox, some (.resolveRoute q), draining⟩ s
        ⟨session', inbox, none, draining⟩
  | publish (session session' : AmqpSession) (inbox : List Frame) (call : Ask) (q : Publishing)
      (target : RoutePublishTarget) (draining : Bool)
      (hcall : call = .routeVersion q ∨ call = .resolveRoute q) (hsame : Same session session') :
      AmqpStep store order s k ⟨session, inbox, some call, draining⟩ s
        (resume ⟨session, inbox, some call, draining⟩
          (session'.publishTo q target))
  | waits (session : AmqpSession) (inbox : List Frame) (cmd : BrokerCommandBatch)
      (reply : CommandReply) (draining : Bool) (hnone : (serve store s k cmd).2 = none) :
      AmqpStep store order s k ⟨session, inbox, some (.command cmd reply), draining⟩
        (serve store s k cmd).1 ⟨session, inbox, some (.command cmd reply), draining⟩
  | answer (session session' : AmqpSession) (inbox inbox' : List Frame) (cmd : BrokerCommandBatch)
      (reply : CommandReply) (channel : Nat) (output : ShardOutputBatch) (sent : List Delivery)
      (draining : Bool) (hreply : reply.channel = some channel)
      (hanswer : (serve store s k cmd).2 = some output)
      (hpre : sent <+: output.deliveries.flatMap (session.outgoing channel))
      (hsends : Sends session sent session') :
      AmqpStep store order s k ⟨session, inbox, some (.command cmd reply), draining⟩
        (serve store s k cmd).1 ⟨session', inbox', none, draining⟩
  | cancelled (session : AmqpSession) (inbox : List Frame) (cmd : BrokerCommandBatch)
      (channel : Nat) (tag : ShortStr) (output : ShardOutputBatch) (draining : Bool)
      (hanswer : (serve store s k cmd).2 = some output) :
      AmqpStep store order s k
        ⟨session, inbox, some (.command cmd (.cancelled channel tag)), draining⟩
        (serve store s k cmd).1 ⟨afterCancel session channel tag, inbox, none, draining⟩

theorem resume_session (p : AmqpServerSession) (r : AmqpSession × Outcome) :
    (p.resume r).session = r.1 := by
  unfold resume
  split <;> rfl

theorem openChannel_some {session : AmqpSession} {channel : Nat} {ch : AmqpChannelState}
    (h : session.openChannel channel = some ch) : session.channels channel = some ch :=
  (Option.filter_eq_some_iff.mp h).1

theorem starts_settles {m : BasicMethod} {tag : Nat} {cmd : Nat → ShardCommandBatch}
    (h : m.settles = some (tag, cmd)) (id : Nat) :
    (BrokerCommandBatch.shard (cmd id)).starts = [] := by
  cases m with
  | ack _ _ | nack _ _ _ | reject _ _ =>
    obtain ⟨-, rfl⟩ := Prod.mk.inj (Option.some.inj h)
    rfl
  | _ => cases h

theorem resume_eq {p : AmqpServerSession} {r : AmqpSession × Outcome}
    (h : r.2 = .done ∨ r.2 = .failed .wire) :
    ∃ inbox, p.resume r = ⟨r.1, inbox, none, p.draining⟩ := by
  unfold resume
  rcases h with h | h <;> rw [h] <;> exact ⟨_, rfl⟩

theorem put_same {s : BrokerServer σ} {k : Nat} {p : Peer} (hp : s.peers k = some p) :
    s.put k s.system p = s := by
  unfold put
  rw [← hp, Function.update_eq_self]

/-- **Every step of an AMQP session is one of these.** -/
theorem amqpStep (store : ShardStorage σ) (order : HashOrder) {s : BrokerServer σ} {k : Nat}
    {p : AmqpServerSession} (hp : s.peers k = some (.amqp p)) :
    ∃ system p', AmqpStep store order s.system k p system p' ∧
      s.advanceAmqp store order k p = s.put k system (.amqp p') := by
  obtain ⟨session, inbox, ask, draining⟩ := p
  cases ask with
  | none =>
    cases inbox with
    | cons f rest =>
      exact ⟨_, _, .frame session f rest draining (handles_onFrame order session f),
        rfl⟩
    | nil =>
      cases draining with
      | true =>
        obtain ⟨sent, hpre, hsends⟩ :=
          session.sends_onPushed (s.system.service.drainConnectionOutputs k).2
        exact ⟨_, _, .drain session _ sent hpre hsends, rfl⟩
      | false => exact ⟨_, _, .idle session, (put_same hp).symm⟩
  | some call =>
    cases call with
    | control cmd reply =>
      simp only [advanceAmqp]
      rcases session.onControl_cases reply
        (s.system.service.broker.handleAmqpControl store cmd).2
        with ⟨hsame, hdone⟩ | ⟨channel, tag, id, prefetch, rfl, heq⟩
      · refine ⟨_, _, .replied session _ inbox cmd reply draining hsame, ?_⟩
        simp only [resume, hdone]
      · rw [heq]
        exact ⟨_, _, .consuming session inbox cmd channel tag id _ prefetch draining, rfl⟩
    | routeVersion q =>
      simp only [advanceAmqp]
      rcases session.onRouteVersion_cases q s.system.service.broker.broker.routeTable.version
        with heq | ⟨target, heq⟩
      · rw [heq]
        exact ⟨_, _, .resolve session inbox q draining, rfl⟩
      · rw [heq]
        exact ⟨_, _, .publish session session inbox _ q target draining (.inl rfl) (.refl _), rfl⟩
    | resolveRoute q =>
      simp only [advanceAmqp]
      generalize SingleNodeBroker.resolveAmqpRoute _ _ _ = entry
      rcases session.onResolved_cases q entry with ⟨hsame, hdone⟩ | ⟨session', target, hsame, heq⟩
      · refine ⟨_, _, .unrouted session _ inbox q draining hsame, ?_⟩
        simp only [resume, hdone]
      · rw [heq]
        exact ⟨_, _, .publish session session' inbox _ q target draining (.inr rfl) hsame, rfl⟩
    | command cmd reply =>
      simp only [advanceAmqp]
      split
      · next system heq =>
        have hnone : (serve store s.system k cmd).2 = none := by rw [heq]
        exact ⟨_, _, .waits session inbox cmd reply draining hnone, by rw [heq]⟩
      · next system output heq =>
        have hanswer : (serve store s.system k cmd).2 = some output := by rw [heq]
        have hsystem : (serve store s.system k cmd).1 = system := by rw [heq]
        cases hreply : reply.channel with
        | none =>
          obtain ⟨channel, tag, rfl⟩ : ∃ channel tag, reply = .cancelled channel tag := by
            cases reply with
            | cancelled channel tag => exact ⟨channel, tag, rfl⟩
            | consumed _ _ => cases hreply
            | emitted _ => cases hreply
          exact ⟨_, _, .cancelled session inbox cmd channel tag output draining hanswer,
            by rw [hsystem]; rfl⟩
        | some channel =>
          obtain ⟨sent, hpre, hsends, hend⟩ := session.sends_onOutput hreply output
          obtain ⟨inbox', hresume⟩ := @resume_eq
            ⟨session, inbox, some (.command cmd reply), draining⟩ _
            (hend.imp_left fun h => h.1)
          refine ⟨_, _, .answer session _ inbox inbox' cmd reply channel output sent draining
            hreply hanswer hpre hsends, ?_⟩
          rw [hsystem, hresume]

end Aurum.Server
