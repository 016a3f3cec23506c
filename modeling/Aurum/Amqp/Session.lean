import Aurum.Amqp.Method
import Aurum.Service.Basic

/-!
# AMQP — sessions

`AmqpSession`: the connection handshake, channels, consumers, content
assembly and deliveries. A session calls the broker through its port, and
other connections can act between two calls, so a frame is handled in
pieces: each piece ends with an `Outcome`, which is either the end of the
frame or the next call of the broker together with where to go on.

What a session writes is kept in `out`. The frames of one delivery stay
together there as a `Delivery`, which also names the consumer and the
message it is for; the client sees `Delivery.frames`.
-/

namespace Aurum.Amqp

open Aurum.Routing Aurum.Protocol Aurum.Broker Aurum.Service

/-! ## State -/

/-- The order in which the hash maps of a session list their keys, one map
per seed. -/
structure HashOrder where
  first : Nat → List Nat → Option Nat
  first_mem : ∀ {seed ids i}, first seed ids = some i → i ∈ ids
  first_isSome : ∀ {seed ids}, ids ≠ [] → (first seed ids).isSome

/-- Keys in the order they were inserted. -/
def HashOrder.insertion : HashOrder where
  first := fun _ ids => ids.head?
  first_mem := fun h => List.mem_of_head? h
  first_isSome := fun h => by simpa using h

inductive ConnectionPhase where
  | awaitProtocolHeader
  | awaitStartOk
  | awaitTuneOk
  | awaitOpen
  | open
  | closing
  | closed
deriving DecidableEq, Repr

inductive ChannelPhase where
  | closed
  | opening
  | open
  | closing
deriving DecidableEq, Repr

/-- `ConsumerTagMap`. Its two hash maps are inverse to each other and kept
as one list of tags and ids. -/
structure ConsumerTagMap where
  entries : List (ShortStr × Nat)
  nextConsumerId : Nat

namespace ConsumerTagMap

variable (m : ConsumerTagMap)

/-- `ConsumerTagMap::default`. -/
def empty : ConsumerTagMap := ⟨[], 0⟩

def get (tag : ShortStr) : Option Nat := m.entries.lookup tag

def insert (tag : ShortStr) : ConsumerTagMap × Nat :=
  match m.get tag with
  | some id => (m, id)
  | none => (⟨m.entries ++ [(tag, m.nextConsumerId + 1)], m.nextConsumerId + 1⟩,
      m.nextConsumerId + 1)

def tagFor (id : Nat) : Option ShortStr :=
  (m.entries.find? (·.2 = id)).map Prod.fst

def firstConsumerId (order : HashOrder) (seed : Nat) (m : ConsumerTagMap) : Option Nat :=
  order.first seed (m.entries.map Prod.snd)

def remove (tag : ShortStr) : ConsumerTagMap :=
  { m with entries := m.entries.filter (·.1 ≠ tag) }

end ConsumerTagMap

structure PendingPublishContent where
  publish : BasicPublish
  properties : BasicProperties
  expectedBodySize : Nat
  body : List UInt8

def hashBytes (b : List UInt8) : UInt64 := b.foldl (fun h byte => h * 31 + byte.toUInt64) 0

abbrev RouteCache := UInt64 × UInt64 → Option RoutePublishTarget

def RouteCache.get (c : RouteCache) (exchange routingKey : ShortStr) (version : Nat) :
    Option RoutePublishTarget :=
  (c (hashBytes exchange, hashBytes routingKey)).filter (·.routeVersion = version)

def RouteCache.insert (c : RouteCache) (exchange routingKey : ShortStr)
    (entry : RoutePublishTarget) : RouteCache :=
  Function.update c (hashBytes exchange, hashBytes routingKey) (some entry)

/-- `AmqpChannelState`; `seed` stands for the hash seed of its maps. -/
structure AmqpChannelState where
  phase : ChannelPhase
  prefetchCount : Nat
  consumers : ConsumerTagMap
  deliveryConsumers : Nat → Option Nat
  pendingPublish : Option PendingPublishContent
  routeCache : RouteCache
  seed : Nat

/-- `AmqpChannelState::new`, opened. -/
def AmqpChannelState.opened (seed : Nat) : AmqpChannelState :=
  ⟨.open, 0, .empty, fun _ => none, none, fun _ => none, seed⟩

structure AmqpConnectionState where
  phase : ConnectionPhase
  channelMax : Nat
  frameMax : Nat
  heartbeat : Nat
  virtualHost : ShortStr

def defaultFrameMax : Nat := 131072

def defaultChannelMax : Nat := 2047

def defaultHeartbeat : Nat := 60

/-- `AmqpConnectionState::default`; the virtual host is `"/"`. -/
def AmqpConnectionState.initial : AmqpConnectionState :=
  ⟨.awaitProtocolHeader, defaultChannelMax, defaultFrameMax, defaultHeartbeat, [47]⟩

structure DeliveryMetadata where
  exchange : Text
  routingKey : Text
  contentType : Text
  deliveryMode : UInt8
deriving DecidableEq

/-- `DeliveryMetadata::default`. -/
def DeliveryMetadata.empty : DeliveryMetadata := ⟨[], [], [], 0⟩

structure AmqpPayloadStore where
  payloads : Nat → Option (List UInt8)
  deliveryMetadata : Nat → Option DeliveryMetadata
  deliveryProperties : Nat → Option BasicProperties

/-- One message sent to the client: what is written, and for which
consumer and message. -/
structure Delivery where
  channel : Nat
  frameMax : Nat
  method : BasicDeliver
  properties : BasicProperties
  body : List UInt8
  consumerId : Nat
  queueId : Nat
  seq : Nat

/-- What a session writes. -/
inductive Written where
  | method (channel : Nat) (m : AmqpMethod)
  | delivery (d : Delivery)

/-- A frame as the client reads it. -/
inductive OutFrame where
  | method (channel : Nat) (m : AmqpMethod)
  | header (channel : Nat) (h : ContentHeader)
  | body (channel : Nat) (payload : List UInt8)
deriving DecidableEq

/-- `send_deliver`: if the header cannot be encoded, nothing follows the
method. -/
def Delivery.frames (d : Delivery) : List OutFrame :=
  .method d.channel (.basic (.deliver d.method)) ::
    if d.properties.headers.encodes then
      .header d.channel ⟨classBasic, d.body.length, d.properties⟩ ::
        if d.body = [] then [.body d.channel []]
        else (d.body.toChunks (max d.frameMax 1)).map (.body d.channel)
    else []

/-- The frames of what a session wrote. -/
def Written.frames : Written → List OutFrame
  | .method channel m => [.method channel m]
  | .delivery d => d.frames

inductive SessionError where
  | wire
  | protocol
  | channelClosed (channel : Nat)
deriving DecidableEq, Repr

/-- `AmqpSession`, with the payload store of its port. `opened` counts the
channels opened so far. -/
structure AmqpSession where
  connection : AmqpConnectionState
  channels : Nat → Option AmqpChannelState
  protocolHeaderSeen : Bool
  nextPayloadHandle : Nat
  store : AmqpPayloadStore
  opened : Nat
  out : List Written

def AmqpSession.new : AmqpSession where
  connection := .initial
  channels := fun _ => none
  protocolHeaderSeen := false
  nextPayloadHandle := 1
  store := ⟨fun _ => none, fun _ => none, fun _ => none⟩
  opened := 0
  out := []

/-! ## Frames, calls and outcomes -/

/-- A frame a session receives, decoded. `none` stands for a payload that
cannot be decoded. The protocol header is treated like a frame. -/
inductive Frame where
  | protocolHeader
  | method (channel : Nat) (m : Option AmqpMethod)
  | header (channel : Nat) (h : Option ContentHeader)
  | body (channel : Nat) (payload : List UInt8)
  | heartbeat
deriving DecidableEq

/-- A published message on its way to the broker. -/
structure Publishing where
  channel : Nat
  content : PendingPublishContent

/-- Where a session goes on after a control command. -/
inductive ControlReply where
  | exchangeDeclared (channel : Nat)
  | queueDeclared (channel : Nat) (queue : ShortStr)
  | queueBound (channel : Nat)
  | consuming (channel : Nat) (tag : ShortStr) (consumerId : Nat)

/-- Where a session goes on after a command of the broker. -/
inductive CommandReply where
  | consumed (channel : Nat) (tag : ShortStr)
  | cancelled (channel : Nat) (tag : ShortStr)
  | emitted (channel : Nat)

/-- The calls of a session's port. -/
inductive Ask where
  | control (cmd : AmqpControlCommand) (reply : ControlReply)
  | routeVersion (p : Publishing)
  | resolveRoute (p : Publishing)
  | command (cmd : BrokerCommandBatch) (reply : CommandReply)

/-- How a piece of a handler ends. -/
inductive Outcome where
  | done
  | failed (error : SessionError)
  | ask (call : Ask)

def replyChannelError : Nat := 504

def replyCommandInvalid : Nat := 503

def replyNotImplemented : Nat := 540

/-- `"error"`. -/
def errorText : ShortStr := [101, 114, 114, 111, 114]

/-- `"ctag-1"`. -/
def defaultTag : ShortStr := [99, 116, 97, 103, 45, 49]

inductive AmqpErrorScope where
  | connection
  | channel
deriving DecidableEq, Repr

def commandErrorScope (err : CommandError) : AmqpErrorScope :=
  match err.kind with
  | .invalidDeliveryTag | .deliveryTagAlreadySettled | .consumerNotFound | .consumerCancelled
  | .duplicateConsumer => .channel
  | _ => .connection

end Aurum.Amqp
