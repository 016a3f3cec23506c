import Aurum.Amqp.Handlers
import Aurum.Native.Adapter
import Aurum.Service.Runs

/-!
# Server — sessions on one service

`BrokerServer`: client connections, each with a native or an AMQP session,
on one `BrokerService`. Every connection has a thread of its own: it reads
a chunk of bytes, handles the frames in it one after another, and calls
the service as it goes. A run is a sequence of accepted connections,
received chunks and single steps of the threads, in any interleaving.

A chunk is given by the frames in it. Bytes that do not end a frame are
dropped by an AMQP session, and bytes that cannot be decoded end a chunk
for both kinds of sessions.
-/

namespace Aurum.Server

open Aurum.Protocol Aurum.Broker Aurum.Service Aurum.Amqp Aurum.Native

/-! ## Sessions -/

/-- What a native session is waiting for. -/
inductive NativeTask where
  | command (frame : NativeFrame) (cmd : BrokerCommandBatch)
  | drain (frame : NativeFrame) (immediate : ShardOutputBatch)

/-- What a native session writes; outputs are not encoded here. -/
inductive NativeWritten where
  | response (frame : NativeFrame) (helloOk : Bool)
  | output (frame : NativeFrame) (output : ShardOutputBatch)
  | error (frame : NativeFrame)

/-- `NativeServerSession`, in the middle of a chunk. -/
structure NativeServerSession where
  inbound : NativeInboundAdapter
  inbox : List NativeFrame
  task : Option NativeTask
  out : List NativeWritten

/-- `AmqpServerSession`, in the middle of a chunk: the frames that are
left, the call under way, and whether the outbox is to be drained yet. -/
structure AmqpServerSession where
  session : AmqpSession
  inbox : List Frame
  ask : Option Ask
  draining : Bool

/-- A client connection. -/
inductive Peer where
  | native (s : NativeServerSession)
  | amqp (s : AmqpServerSession)

def NativeServerSession.new (connectionId : Nat) : NativeServerSession :=
  ⟨.new connectionId, [], none, []⟩

def AmqpServerSession.new : AmqpServerSession := ⟨.new, [], none, false⟩

/-- The session goes on with the outcome of a handler. An error ends the
chunk. -/
def AmqpServerSession.resume (p : AmqpServerSession) (r : AmqpSession × Outcome) :
    AmqpServerSession :=
  match r.2 with
  | .done => { p with session := r.1, ask := none }
  | .failed _ => { p with session := r.1, ask := none, inbox := [] }
  | .ask call => { p with session := r.1, ask := some call }

/-- `on_frame` of a native session, up to its call of the service. -/
def NativeServerSession.onFrame (p : NativeServerSession) (f : NativeFrame) : NativeServerSession :=
  let (inbound, result) := p.inbound.translateFrame f
  match result with
  | .ok (.immediateResponse helloOk) =>
    { p with inbound := inbound, out := p.out ++ [.response f helloOk] }
  | .ok (.brokerCommand cmd) => { p with inbound := inbound, task := some (.command f cmd) }
  | .error _ => { p with inbound := inbound, out := p.out ++ [.error f] }

/-- The command a connection has the service execute. -/
def Peer.command : Peer → Option BrokerCommandBatch
  | .native ⟨_, _, some (.command _ cmd), _⟩ => some cmd
  | .amqp ⟨_, _, some (.command cmd _), _⟩ => some cmd
  | _ => none

/-- The connection waits for the next chunk. -/
def Peer.idle : Peer → Bool
  | .native p => p.inbox.isEmpty && p.task.isNone
  | .amqp p => p.inbox.isEmpty && p.ask.isNone && !p.draining

/-! ## The server -/

/-- One step of the call `cmd` of connection `k`, and the answer if that
was the last one. -/
def serve {σ : Type} (store : ShardStorage σ) (s : System σ) (k : Nat) (cmd : BrokerCommandBatch) :
    System σ × Option ShardOutputBatch :=
  if s.Idle k then (s.step store (.call k cmd), none)
  else
    match s.calls.find? (·.source = k) with
    | some ⟨_, _ :: _, _⟩ => (s.step store (.track k), none)
    | some ⟨_, [], _⟩ => (s.step store (.execute k), none)
    | none => (s.step store (.route k),
        (s.waiting.find? (·.source = k)).map fun e => (s.service.routeOutput e.source e.output).2)

/-- The service and the connections of a server. -/
structure BrokerServer (σ : Type) where
  system : System σ
  peers : Nat → Option Peer

/-- What happens at a server. -/
inductive Act where
  | accept (connectionId : Nat) (amqp : Bool)
  | receive (connectionId : Nat) (frames : List Frame)
  | receiveNative (connectionId : Nat) (frames : List NativeFrame)
  | advance (connectionId : Nat)
deriving DecidableEq

namespace BrokerServer

variable {σ : Type}

/-- A server nobody is connected to yet. -/
def new (broker : SingleNodeBroker σ) : BrokerServer σ := ⟨.new broker, fun _ => none⟩

/-- A step of connection `k`. -/
def put (s : BrokerServer σ) (k : Nat) (system : System σ) (p : Peer) : BrokerServer σ :=
  ⟨system, Function.update s.peers k (some p)⟩

/-- One step of the thread of an AMQP connection. -/
def advanceAmqp (store : ShardStorage σ) (order : HashOrder) (s : BrokerServer σ) (k : Nat)
    (p : AmqpServerSession) : BrokerServer σ :=
  let broker := s.system.service.broker
  match p.ask with
  | some (.control cmd reply) =>
    s.put k (s.system.step store (.control cmd))
      (.amqp (p.resume (p.session.onControl reply (broker.handleAmqpControl store cmd).2)))
  | some (.routeVersion q) =>
    s.put k s.system
      (.amqp (p.resume (p.session.onRouteVersion q broker.broker.routeTable.version)))
  | some (.resolveRoute q) =>
    let m := q.content.publish
    s.put k s.system (.amqp (p.resume (p.session.onResolved q
      (broker.resolveAmqpRoute (toStringLossy m.exchange) (toStringLossy m.routingKey)))))
  | some (.command cmd reply) =>
    match serve store s.system k cmd with
    | (system, none) => s.put k system (.amqp p)
    | (system, some output) => s.put k system (.amqp (p.resume (p.session.onOutput reply output)))
  | none =>
    match p.inbox with
    | f :: rest => s.put k s.system (.amqp (({ p with inbox := rest }).resume
        (p.session.onFrame order f)))
    | [] =>
      if p.draining then
        s.put k (s.system.step store (.drain k))
          (.amqp { p with
            session := p.session.onPushed (s.system.service.drainConnectionOutputs k).2
            draining := false })
      else s

/-- One step of the thread of a native connection. -/
def advanceNative (store : ShardStorage σ) (s : BrokerServer σ) (k : Nat)
    (p : NativeServerSession) : BrokerServer σ :=
  match p.task with
  | some (.command f cmd) =>
    match serve store s.system k cmd with
    | (system, none) => s.put k system (.native p)
    | (system, some output) => s.put k system (.native { p with task := some (.drain f output) })
  | some (.drain f immediate) =>
    s.put k (s.system.step store (.drain k))
      (.native { p with
        task := none
        out := p.out ++
          [.output f (immediate.merge (s.system.service.drainConnectionOutputs k).2)] })
  | none =>
    match p.inbox with
    | f :: rest => s.put k s.system (.native (({ p with inbox := rest }).onFrame f))
    | [] => s

/-- One act; an act the connection is not ready for does nothing. -/
def step (store : ShardStorage σ) (order : Nat → HashOrder) (s : BrokerServer σ) :
    Act → BrokerServer σ
  | .accept k amqp =>
    match s.peers k with
    | none => s.put k s.system (if amqp then .amqp .new else .native (.new k))
    | some _ => s
  | .receive k frames =>
    match s.peers k with
    | some (.amqp p) =>
      if (Peer.amqp p).idle then
        s.put k s.system (.amqp { p with inbox := frames, draining := true })
      else s
    | _ => s
  | .receiveNative k frames =>
    match s.peers k with
    | some (.native p) =>
      if (Peer.native p).idle then s.put k s.system (.native { p with inbox := frames }) else s
    | _ => s
  | .advance k =>
    match s.peers k with
    | some (.amqp p) => s.advanceAmqp store (order k) k p
    | some (.native p) => s.advanceNative store k p
    | none => s

/-- A sequence of acts. -/
def run (store : ShardStorage σ) (order : Nat → HashOrder) (s : BrokerServer σ)
    (acts : List Act) : BrokerServer σ :=
  acts.foldl (step store order) s

end BrokerServer

end Aurum.Server
