import Aurum.Amqp.Session

/-!
# AMQP — frame handlers

The methods of `AmqpSession`, in the pieces between its calls of the
broker. `onFrame` begins a frame; `onControl`, `onRouteVersion`,
`onResolved` and `onOutput` go on with what a call returned; `onPushed`
is `push_broker_output` for an outbox.
-/

namespace Aurum.Amqp

open Aurum.Bits Aurum.Routing Aurum.Protocol Aurum.Broker Aurum.Service Function

/-! ## Deliveries -/

/-- A message of a delivery event as the encoder reads it. -/
structure EventMessage where
  tag : Nat
  handle : Nat
  redelivered : Bool
  seq : Nat
deriving DecidableEq, Repr

/-- The messages of a segment. A handle that a range does not have is 0;
the handle of a message in a mask is its sequence number. -/
def segmentMessages : DeliveryEventSegment → List EventMessage
  | .range r => (List.range r.len).map fun i =>
    ⟨r.startTag + i, (r.payloads.get i).getD 0, r.redelivered, r.startSeq + i⟩
  | .mask m => m.iterHandles.map fun p => ⟨p.1, p.2, m.redelivered, p.2⟩

/-- `DeliveryEventSegment::count`. -/
def segmentCount : DeliveryEventSegment → Nat
  | .range r => r.len
  | .mask m => countOnes m.mask

def totalDelivered (output : ShardOutputBatch) : Nat :=
  (output.deliveries.map fun d => (d.segments.map segmentCount).sum).sum

/-- `enrich_delivery`: the metadata of the first message, if the batch
begins with a range. -/
def AmqpPayloadStore.enrichDelivery (store : AmqpPayloadStore) (batch : DeliveryEventBatch) :
    DeliveryMetadata :=
  match batch.segments with
  | .range r :: _ => ((r.payloads.get 0).bind store.deliveryMetadata).getD .empty
  | _ => .empty

def shortstrFromBytes (bytes : List UInt8) : ShortStr :=
  if bytes.length ≤ ShortStr.maxLen then bytes else []

/-- The properties `delivery_context_from_batch` falls back to. -/
def fallbackProperties (metadata : DeliveryMetadata) : BasicProperties :=
  { BasicProperties.empty with
    deliveryMode := if metadata.deliveryMode = 0 then none else some metadata.deliveryMode
    contentType := if metadata.contentType = [] then none
      else some (shortstrFromBytes metadata.contentType) }

def deliveryMetadataFrom (exchange routingKey : ShortStr) (properties : BasicProperties) :
    DeliveryMetadata :=
  ⟨exchange, routingKey, properties.contentType.getD [], properties.deliveryMode.getD 0⟩

namespace AmqpSession

variable (s : AmqpSession) (channel : Nat) (order : HashOrder) (ch : AmqpChannelState)

/-- What `encode_delivery_batches` sends for one batch on `channel`. -/
def outgoing (batch : DeliveryEventBatch) : List Delivery :=
  let tag := ((s.channels channel).bind (·.consumers.tagFor batch.consumerId)).getD defaultTag
  let metadata := s.store.enrichDelivery batch
  (batch.segments.flatMap segmentMessages).map fun m =>
    { channel := channel
      frameMax := s.connection.frameMax
      method := ⟨tag, m.tag, m.redelivered, shortstrFromBytes metadata.exchange,
        shortstrFromBytes metadata.routingKey⟩
      properties := (s.store.deliveryProperties m.handle).getD (fallbackProperties metadata)
      body := (s.store.payloads m.handle).getD []
      consumerId := batch.consumerId
      queueId := batch.queueId
      seq := m.seq }

/-- Change one channel. -/
def mapChannel (f : AmqpChannelState → AmqpChannelState) : AmqpSession :=
  { s with channels := update s.channels channel ((s.channels channel).map f) }

/-- One message: its tag is recorded for the consumer, then it is sent. -/
def sendOne (d : Delivery) : AmqpSession :=
  let s := s.mapChannel d.channel fun ch =>
    { ch with deliveryConsumers :=
        update ch.deliveryConsumers d.method.deliveryTag (some d.consumerId) }
  { s with out := s.out ++ [.delivery d] }

/-- The loop of `encode_delivery_batches`. It ends early at a header that
cannot be encoded. -/
def sendAll (s : AmqpSession) : List Delivery → AmqpSession × Outcome
  | [] => (s, .done)
  | d :: ds =>
    if d.properties.headers.encodes then (s.sendOne d).sendAll ds
    else (s.sendOne d, .failed .wire)

def encodeDeliveryBatches (batches : List DeliveryEventBatch) : AmqpSession × Outcome :=
  s.sendAll (batches.flatMap (s.outgoing channel))

/-! ## Replies -/

def sendMethod (m : AmqpMethod) : AmqpSession :=
  { s with out := s.out ++ [.method channel m] }

def sendChannelClose (channel code : Nat) (text : ShortStr) : AmqpSession :=
  (s.sendMethod channel (.channel (.close ⟨code, text, 0, 0⟩))).mapChannel channel
    fun ch => { ch with phase := .closing }

def channelClose (channel code : Nat) : AmqpSession :=
  s.sendChannelClose channel code errorText

def connectionClose (code : Nat) : AmqpSession :=
  let s := s.sendMethod 0 (.connection (.close ⟨code, errorText, 0, 0⟩))
  { s with connection := { s.connection with phase := .closing } }

/-- The reaction of `emit_broker_output` to one error. -/
def onError (s : AmqpSession) (err : CommandError) : AmqpSession :=
  match commandErrorScope err with
  | .connection => s.connectionClose replyCommandInvalid
  | .channel => s.channelClose channel replyChannelError

def emitBrokerOutput (output : ShardOutputBatch) : AmqpSession × Outcome :=
  (output.errors.foldl (onError channel) s).encodeDeliveryBatches channel output.deliveries

/-- `ensure_channel_open`. -/
def openChannel : Option AmqpChannelState :=
  (s.channels channel).filter (·.phase = .open)

def consumerForDeliveryTag (tag : Nat) : Option Nat :=
  ch.deliveryConsumers tag <|> ch.consumers.firstConsumerId order ch.seed

/-! ## Methods -/

/-- The `server_properties` of `connection.start`: `product` and `version`. -/
def serverProperties : FieldTable :=
  .cons [112, 114, 111, 100, 117, 99, 116] (.shortString [65, 117, 114, 117, 109, 77, 81]) <|
    .cons [118, 101, 114, 115, 105, 111, 110] (.shortString [48, 46, 49, 46, 48]) .nil

/-- `send_connection_start`; the mechanism is `PLAIN`, the locale `en_US`. -/
def sendConnectionStart : AmqpSession :=
  ({ s with connection := { s.connection with phase := .awaitStartOk } }).sendMethod 0
    (.connection (.start ⟨0, 9, serverProperties, [80, 76, 65, 73, 78],
      [101, 110, 95, 85, 83]⟩))

def sendConnectionTune : AmqpSession :=
  s.sendMethod 0 (.connection (.tune ⟨defaultChannelMax, defaultFrameMax, defaultHeartbeat⟩))

/-- `on_connection_method`, decoded. -/
def onConnectionMethod : AmqpMethod → AmqpSession × Outcome
  | .connection (.startOk _) =>
    if s.connection.phase = .awaitStartOk then
      (({ s with connection := { s.connection with phase := .awaitTuneOk } }).sendConnectionTune,
        .done)
    else (s.connectionClose replyCommandInvalid, .done)
  | .connection (.tuneOk m) =>
    ({ s with connection := { s.connection with
        channelMax := m.channelMax
        frameMax := m.frameMax
        heartbeat := m.heartbeat
        phase := .awaitOpen } }, .done)
  | .connection (.open virtualHost _) =>
    (({ s with connection := { s.connection with
        virtualHost := virtualHost
        phase := .open } }).sendMethod 0 (.connection .openOk), .done)
  | .connection .closeOk =>
    ({ s with connection := { s.connection with phase := .closed } }, .done)
  | .connection (.close _) =>
    let s := s.sendMethod 0 (.connection .closeOk)
    ({ s with connection := { s.connection with phase := .closed } }, .done)
  | .connection _ => (s.connectionClose replyCommandInvalid, .done)
  | _ => (s, .failed .protocol)

/-- `basic.consume` up to the resolution of its queue. -/
def onConsume (m : BasicConsume) : AmqpSession × Outcome :=
  if m.noAck then (s.channelClose channel replyNotImplemented, .done)
  else
    let tag := if m.consumerTag = [] then defaultTag else m.consumerTag
    let (consumers, id) := ch.consumers.insert tag
    (s.mapChannel channel fun ch => { ch with consumers := consumers },
      .ask (.control (.resolveQueueId (toStringLossy m.queue)) (.consuming channel tag id)))

/-- `basic.cancel`. -/
def onCancel (tag : ShortStr) : AmqpSession × Outcome :=
  match ch.consumers.get tag with
  | none => (s, .failed (.channelClosed channel))
  | some id =>
    (s, .ask (.command (.shard (.cancel [⟨id, .requeueUnacked⟩])) (.cancelled channel tag)))

/-- `basic.publish`. -/
def onPublish (m : BasicPublish) : AmqpSession × Outcome :=
  if m.immediate then (s.channelClose channel replyNotImplemented, .done)
  else if ch.pendingPublish.isSome then (s.channelClose channel replyChannelError, .done)
  else
    (s.mapChannel channel fun ch => { ch with pendingPublish := some ⟨m, .empty, 0, []⟩ }, .done)

/-- `basic.ack`, `basic.nack` and `basic.reject`: the command goes to the
consumer of the tag. -/
def onSettle (s : AmqpSession) (channel : Nat) (ch : AmqpChannelState)
    (tag : Nat) (cmd : Nat → ShardCommandBatch) : AmqpSession × Outcome :=
  match consumerForDeliveryTag order ch tag with
  | none => (s, .failed (.channelClosed channel))
  | some id => (s, .ask (.command (.shard (cmd id)) (.emitted channel)))

/-- The disposition of `requeue`. -/
def requeueDisposition (requeue : Bool) : NackDisposition :=
  if requeue then .requeue else .deadLetter

/-- The mode of `multiple`. -/
def settlementMode (multiple : Bool) : SettlementMode := if multiple then .multiple else .one

/-- The methods of `on_channel_method` that need an open channel. -/
def onOpenChannel (s : AmqpSession) (channel : Nat) (ch : AmqpChannelState) :
    AmqpMethod → AmqpSession × Outcome
  | .exchange (.declare m) =>
    (s, .ask (.control (.declareExchange (toStringLossy m.exchange)
      (toStringLossy m.exchangeType)) (.exchangeDeclared channel)))
  | .queue (.declare m) =>
    if m.passive then (s.channelClose channel replyNotImplemented, .done)
    else (s, .ask (.control (.declareQueue (toStringLossy m.queue))
      (.queueDeclared channel m.queue)))
  | .queue (.bind m) =>
    (s, .ask (.control (.bindQueue (toStringLossy m.queue) (toStringLossy m.exchange)
      (toStringLossy m.routingKey)) (.queueBound channel)))
  | .basic (.qos _ prefetchCount _) =>
    ((s.mapChannel channel fun ch => { ch with prefetchCount := prefetchCount }).sendMethod
      channel (.basic .qosOk), .done)
  | .basic (.consume m) => s.onConsume channel ch m
  | .basic (.cancel tag _) => s.onCancel channel ch tag
  | .basic (.publish m) => s.onPublish channel ch m
  | .basic (.ack tag multiple) =>
    onSettle order s channel ch tag fun id => .ack id [.tag tag (settlementMode multiple)]
  | .basic (.nack tag multiple requeue) =>
    onSettle order s channel ch tag fun id =>
      .nack id [.tag tag (settlementMode multiple) (requeueDisposition requeue)]
  | .basic (.reject tag requeue) =>
    onSettle order s channel ch tag fun id =>
      .nack id [.tag tag .one (requeueDisposition requeue)]
  | .confirm (.select _) => (s.sendMethod channel (.confirm .selectOk), .done)
  | _ => (s.channelClose channel replyCommandInvalid, .done)

/-- The methods `on_channel_method` handles on an open channel only. -/
def needsOpen : AmqpMethod → Bool
  | .exchange (.declare _) | .queue (.declare _) | .queue (.bind _) | .basic (.qos _ _ _)
  | .basic (.consume _) | .basic (.cancel _ _) | .basic (.publish _) | .basic (.ack _ _)
  | .basic (.nack _ _ _) | .basic (.reject _ _) | .confirm (.select _) => true
  | _ => false

def onChannelMethod (s : AmqpSession) (channel : Nat) (m : AmqpMethod) : AmqpSession × Outcome :=
  if s.connection.phase ≠ .open then (s.connectionClose replyCommandInvalid, .done)
  else if needsOpen m then
    match s.openChannel channel with
    | none => (s, .failed (.channelClosed channel))
    | some ch => onOpenChannel order s channel ch m
  else
    match m with
    | .channel (.open _) =>
      (({ s with
          channels := update s.channels channel (some (.opened s.opened))
          opened := s.opened + 1 }).sendMethod channel (.channel .openOk), .done)
    | .channel (.close reason) =>
      ((s.sendChannelClose channel reason.replyCode reason.replyText).mapChannel channel
        fun ch => { ch with phase := .closed }, .done)
    | .channel .closeOk => (s.mapChannel channel fun ch => { ch with phase := .closed }, .done)
    | _ => (s.channelClose channel replyCommandInvalid, .done)

/-! ## Content -/

/-- `complete_publish` up to its first call. -/
def completePublish (content : PendingPublishContent) : AmqpSession × Outcome :=
  let s := s.mapChannel channel fun ch => { ch with pendingPublish := none }
  if content.publish.immediate then (s.channelClose channel replyNotImplemented, .done)
  else (s, .ask (.routeVersion ⟨channel, content⟩))

def onHeaderFrame (h : Option ContentHeader) : AmqpSession × Outcome :=
  match s.openChannel channel with
  | none => (s, .failed (.channelClosed channel))
  | some ch =>
    match ch.pendingPublish, h with
    | none, _ => (s.channelClose channel replyChannelError, .done)
    | some _, none => (s, .failed .wire)
    | some pending, some header =>
      if header.classId ≠ classBasic then (s.channelClose channel replyChannelError, .done)
      else
        let pending := { pending with
          properties := header.properties
          expectedBodySize := header.bodySize }
        let s := s.mapChannel channel fun ch => { ch with pendingPublish := some pending }
        if header.bodySize = 0 then s.completePublish channel pending else (s, .done)

def onBodyFrame (payload : List UInt8) : AmqpSession × Outcome :=
  match s.openChannel channel with
  | none => (s, .failed (.channelClosed channel))
  | some ch =>
    match ch.pendingPublish with
    | none => (s.channelClose channel replyChannelError, .done)
    | some pending =>
      let pending := { pending with body := pending.body ++ payload }
      let s := s.mapChannel channel fun ch => { ch with pendingPublish := some pending }
      if pending.expectedBodySize < pending.body.length then
        (s.channelClose channel replyChannelError, .done)
      else if pending.body.length = pending.expectedBodySize then
        s.completePublish channel pending
      else (s, .done)

/-- The rest of `complete_publish` once the route is known. -/
def publishTo (p : Publishing) (target : RoutePublishTarget) : AmqpSession × Outcome :=
  let handle := s.nextPayloadHandle
  let properties := p.content.properties
  let metadata :=
    deliveryMetadataFrom p.content.publish.exchange p.content.publish.routingKey properties
  let mode := if properties.deliveryMode = some 2 then .localDurable else .none
  ({ s with
      nextPayloadHandle := handle + 1
      store :=
        { payloads := update s.store.payloads handle (some p.content.body)
          deliveryMetadata := update s.store.deliveryMetadata handle (some metadata)
          deliveryProperties :=
            update s.store.deliveryProperties handle (some properties) } },
    .ask (.command (.ingress (.publish ⟨0, 0, .route target, mode,
      [⟨handle, p.content.body.length % 2 ^ 32⟩]⟩)) (.emitted p.channel)))

/-- `complete_publish` after `route_table_version`. -/
def onRouteVersion (p : Publishing) (version : Nat) : AmqpSession × Outcome :=
  let cached := (s.channels p.channel).bind fun ch =>
    RouteCache.get ch.routeCache p.content.publish.exchange p.content.publish.routingKey version
  match cached with
  | some target => s.publishTo p target
  | none => (s, .ask (.resolveRoute p))

/-- `complete_publish` after `resolve_route`. -/
def onResolved (p : Publishing) (entry : Option RoutePublishTarget) : AmqpSession × Outcome :=
  match entry with
  | some target =>
    let m := p.content.publish
    let s := s.mapChannel p.channel fun ch =>
      { ch with routeCache := RouteCache.insert ch.routeCache m.exchange m.routingKey target }
    s.publishTo p target
  | none =>
    if p.content.publish.mandatory then (s.channelClose p.channel replyChannelError, .done)
    else (s, .done)

/-! ## Entry points -/

/-- `receive_frame`, and the protocol header of `receive_bytes`. -/
def onFrame (s : AmqpSession) : Frame → AmqpSession × Outcome
  | .protocolHeader =>
    if s.protocolHeaderSeen then (s, .failed .wire)
    else (({ s with protocolHeaderSeen := true }).sendConnectionStart, .done)
  | f =>
    if !s.protocolHeaderSeen then (s, .failed .protocol)
    else
      match f with
      | .method _ none => (s, .failed .wire)
      | .method channel (some m) =>
        if channel = 0 then s.onConnectionMethod m else onChannelMethod order s channel m
      | .header channel h => s.onHeaderFrame channel h
      | .body channel payload => s.onBodyFrame channel payload
      | .heartbeat | .protocolHeader => (s, .done)

/-- A control command was answered. -/
def onControl (reply : ControlReply) (result : AmqpControlResult) : AmqpSession × Outcome :=
  match reply with
  | .exchangeDeclared channel =>
    if result.ok then (s.sendMethod channel (.exchange .declareOk), .done)
    else (s.channelClose channel replyChannelError, .done)
  | .queueDeclared channel queue =>
    if result.ok then
      (s.sendMethod channel (.queue (.declareOk
        (if queue = [] then result.queueName else toStringLossy queue) 0 0)), .done)
    else (s.channelClose channel replyChannelError, .done)
  | .queueBound channel =>
    if result.ok then (s.sendMethod channel (.queue .bindOk), .done)
    else (s.channelClose channel replyChannelError, .done)
  | .consuming channel tag id =>
    let prefetch := ((s.channels channel).map (·.prefetchCount)).getD 0
    (s, .ask (.command (.shard (.consume
      [⟨id, channel, result.queueId.getD 0, UInt32.ofNat prefetch⟩])) (.consumed channel tag)))

/-- A command of the broker was answered. -/
def onOutput (reply : CommandReply) (output : ShardOutputBatch) : AmqpSession × Outcome :=
  match reply with
  | .consumed channel tag =>
    match s.emitBrokerOutput channel output with
    | (s, .done) => (s.sendMethod channel (.basic (.consumeOk tag)), .done)
    | failed => failed
  | .cancelled channel tag =>
    ((s.mapChannel channel fun ch => { ch with consumers := ch.consumers.remove tag }).sendMethod
      channel (.basic .cancelOk), .done)
  | .emitted channel => s.emitBrokerOutput channel output

/-- `AmqpServerSession::on_bytes` after it drained its outbox: pushed
deliveries are sent on channel 1. -/
def onPushed (output : ShardOutputBatch) : AmqpSession :=
  if 0 < totalDelivered output ∨ output.confirms ≠ [] then (s.emitBrokerOutput 1 output).1
  else s

end AmqpSession

end Aurum.Amqp
