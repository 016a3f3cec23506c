import Aurum.Amqp.Wire

/-!
# AMQP — methods on the wire

The `method` module of `aurum-protocol-amqp`: `encode_method` writes the
arguments of a method one after the other, `decode_method` reads them for
a class and method id. Consecutive bit arguments share one byte; a short
reserved argument is written as 0 and skipped by the reader.
-/

namespace Aurum.Amqp

open Aurum.Bytes Aurum.Reader

/-! ## Ids -/

/-- `method_class_id`. -/
def AmqpMethod.classId : AmqpMethod → Nat
  | .connection _ => 10
  | .channel _ => 20
  | .exchange _ => 40
  | .queue _ => 50
  | .basic _ => classBasic
  | .confirm _ => 85

def AmqpMethod.methodId : AmqpMethod → Nat
  | .connection (.start _) => 10
  | .connection (.startOk _) => 11
  | .connection (.tune _) => 30
  | .connection (.tuneOk _) => 31
  | .connection (.open _ _) => 40
  | .connection .openOk => 41
  | .connection (.close _) => 50
  | .connection .closeOk => 51
  | .channel (.open _) => 10
  | .channel .openOk => 11
  | .channel (.close _) => 40
  | .channel .closeOk => 41
  | .exchange (.declare _) => 10
  | .exchange .declareOk => 11
  | .queue (.declare _) => 10
  | .queue (.declareOk _ _ _) => 11
  | .queue (.bind _) => 20
  | .queue .bindOk => 21
  | .basic (.qos _ _ _) => 10
  | .basic .qosOk => 11
  | .basic (.consume _) => 20
  | .basic (.consumeOk _) => 21
  | .basic (.cancel _ _) => 30
  | .basic .cancelOk => 31
  | .basic (.publish _) => 40
  | .basic (.deliver _) => 60
  | .basic (.ack _ _) => 80
  | .basic (.nack _ _ _) => 120
  | .basic (.reject _ _) => 90
  | .confirm (.select _) => 10
  | .confirm .selectOk => 11

/-! ## Connection -/

/-- The arguments of `tune` and `tune-ok`. -/
def ConnectionTune.encode (m : ConnectionTune) : List UInt8 :=
  writeU16 m.channelMax ++ writeU32 m.frameMax ++ writeU16 m.heartbeat

def ConnectionTune.decode : WireReader ConnectionTune := do
  let channelMax ← readU16
  let frameMax ← readU32
  let heartbeat ← readU16
  return ⟨channelMax, frameMax, heartbeat⟩

/-- The arguments of `close`. -/
def CloseReason.encode (m : CloseReason) : List UInt8 :=
  writeU16 m.replyCode ++ writeShortstr m.replyText ++ writeU16 m.classId ++ writeU16 m.methodId

def CloseReason.decode : WireReader CloseReason := do
  let replyCode ← readU16
  let replyText ← readShortstr
  let classId ← readU16
  let methodId ← readU16
  return ⟨replyCode, replyText, classId, methodId⟩

/-- `encode_connection`. -/
def ConnectionMethod.encode : ConnectionMethod → Except WireError (List UInt8)
  | .start m => do
      return toBe 1 m.versionMajor.toNat ++ toBe 1 m.versionMinor.toNat ++
        (← m.serverProperties.encode) ++ writeLongstr m.mechanisms ++ writeLongstr m.locales
  | .startOk m => do
      return (← m.clientProperties.encode) ++ writeShortstr m.mechanism ++
        writeLongstr m.response ++ writeShortstr m.locale
  | .tune m => .ok m.encode
  | .tuneOk m => .ok m.encode
  | .open virtualHost insist => .ok (writeShortstr virtualHost ++ writePackedBits [insist])
  | .openOk => .ok []
  | .close m => .ok m.encode
  | .closeOk => .ok []

def ConnectionStart.decode : WireReader ConnectionStart := do
  let versionMajor ← indexed 1 UInt8.ofNat
  let versionMinor ← indexed 1 UInt8.ofNat
  let serverProperties ← FieldTable.decode
  let mechanisms ← readLongstr
  let locales ← readLongstr
  return ⟨versionMajor, versionMinor, serverProperties, mechanisms, locales⟩

def ConnectionStartOk.decode : WireReader ConnectionStartOk := do
  let clientProperties ← FieldTable.decode
  let mechanism ← readShortstr
  let response ← readLongstr
  let locale ← readShortstr
  return ⟨clientProperties, mechanism, response, locale⟩

def decodeConnection : Nat → WireReader ConnectionMethod
  | 10 => do return .start (← ConnectionStart.decode)
  | 11 => do return .startOk (← ConnectionStartOk.decode)
  | 30 => do return .tune (← ConnectionTune.decode)
  | 31 => do return .tuneOk (← ConnectionTune.decode)
  | 40 => do
      let virtualHost ← readShortstr
      let bits ← readPackedBits 1
      return .open virtualHost (bits.getD 0 false)
  | 41 => pure .openOk
  | 50 => do return .close (← CloseReason.decode)
  | 51 => pure .closeOk
  | _ => fail (.error .unknownFrameType)

/-! ## Channel -/

/-- `encode_channel`. -/
def ChannelMethod.encode : ChannelMethod → Except WireError (List UInt8)
  | .open reserved => .ok (writeShortstr reserved)
  | .openOk => .ok []
  | .close m => .ok m.encode
  | .closeOk => .ok []

def decodeChannel : Nat → WireReader ChannelMethod
  | 10 => do return .open (← readShortstr)
  | 11 => pure .openOk
  | 40 => do return .close (← CloseReason.decode)
  | 41 => pure .closeOk
  | _ => fail (.error .unknownFrameType)

/-! ## Exchange -/

/-- `encode_exchange`. -/
def ExchangeMethod.encode : ExchangeMethod → Except WireError (List UInt8)
  | .declare m => do
      return writeU16 0 ++ writeShortstr m.exchange ++ writeShortstr m.exchangeType ++
        writePackedBits [m.passive, m.durable, m.autoDelete, m.internal, m.nowait] ++
        (← m.arguments.encode)
  | .declareOk => .ok []

def ExchangeDeclare.decode : WireReader ExchangeDeclare := do
  let _ ← readU16
  let exchange ← readShortstr
  let exchangeType ← readShortstr
  let bits ← readPackedBits 5
  let arguments ← FieldTable.decode
  return ⟨exchange, exchangeType, bits.getD 0 false, bits.getD 1 false, bits.getD 2 false,
    bits.getD 3 false, bits.getD 4 false, arguments⟩

def decodeExchange : Nat → WireReader ExchangeMethod
  | 10 => do return .declare (← ExchangeDeclare.decode)
  | 11 => pure .declareOk
  | _ => fail (.error .unknownFrameType)

/-! ## Queue -/

/-- `encode_queue`. -/
def QueueMethod.encode : QueueMethod → Except WireError (List UInt8)
  | .declare m => do
      return writeU16 0 ++ writeShortstr m.queue ++
        writePackedBits [m.passive, m.durable, m.exclusive, m.autoDelete, m.nowait] ++
        (← m.arguments.encode)
  | .declareOk queue messageCount consumerCount =>
    .ok (writeShortstr queue ++ writeU32 messageCount ++ writeU32 consumerCount)
  | .bind m => do
      return writeU16 0 ++ writeShortstr m.queue ++ writeShortstr m.exchange ++
        writeShortstr m.routingKey ++ writePackedBits [m.nowait] ++ (← m.arguments.encode)
  | .bindOk => .ok []

def QueueDeclare.decode : WireReader QueueDeclare := do
  let _ ← readU16
  let queue ← readShortstr
  let bits ← readPackedBits 5
  let arguments ← FieldTable.decode
  return ⟨queue, bits.getD 0 false, bits.getD 1 false, bits.getD 2 false, bits.getD 3 false,
    bits.getD 4 false, arguments⟩

def QueueBind.decode : WireReader QueueBind := do
  let _ ← readU16
  let queue ← readShortstr
  let exchange ← readShortstr
  let routingKey ← readShortstr
  let bits ← readPackedBits 1
  let arguments ← FieldTable.decode
  return ⟨queue, exchange, routingKey, bits.getD 0 false, arguments⟩

def decodeQueue : Nat → WireReader QueueMethod
  | 10 => do return .declare (← QueueDeclare.decode)
  | 11 => do
      let queue ← readShortstr
      let messageCount ← readU32
      let consumerCount ← readU32
      return .declareOk queue messageCount consumerCount
  | 20 => do return .bind (← QueueBind.decode)
  | 21 => pure .bindOk
  | _ => fail (.error .unknownFrameType)

/-! ## Basic -/

/-- `encode_basic`. -/
def BasicMethod.encode : BasicMethod → Except WireError (List UInt8)
  | .qos prefetchSize prefetchCount global =>
    .ok (writeU32 prefetchSize ++ writeU16 prefetchCount ++ writePackedBits [global])
  | .qosOk => .ok []
  | .consume m => do
      return writeU16 0 ++ writeShortstr m.queue ++ writeShortstr m.consumerTag ++
        writePackedBits [m.noLocal, m.noAck, m.exclusive, m.nowait] ++ (← m.arguments.encode)
  | .consumeOk consumerTag => .ok (writeShortstr consumerTag)
  | .cancel consumerTag nowait => .ok (writeShortstr consumerTag ++ writePackedBits [nowait])
  | .cancelOk => .ok []
  | .publish m =>
    .ok (writeU16 0 ++ writeShortstr m.exchange ++ writeShortstr m.routingKey ++
      writePackedBits [m.mandatory, m.immediate])
  | .deliver m =>
    .ok (writeShortstr m.consumerTag ++ writeU64 m.deliveryTag ++
      writePackedBits [m.redelivered] ++ writeShortstr m.exchange ++ writeShortstr m.routingKey)
  | .ack deliveryTag multiple => .ok (writeU64 deliveryTag ++ writePackedBits [multiple])
  | .nack deliveryTag multiple requeue =>
    .ok (writeU64 deliveryTag ++ writePackedBits [multiple, requeue])
  | .reject deliveryTag requeue => .ok (writeU64 deliveryTag ++ writePackedBits [requeue])

def BasicConsume.decode : WireReader BasicConsume := do
  let _ ← readU16
  let queue ← readShortstr
  let consumerTag ← readShortstr
  let bits ← readPackedBits 4
  let arguments ← FieldTable.decode
  return ⟨queue, consumerTag, bits.getD 0 false, bits.getD 1 false, bits.getD 2 false,
    bits.getD 3 false, arguments⟩

def BasicPublish.decode : WireReader BasicPublish := do
  let _ ← readU16
  let exchange ← readShortstr
  let routingKey ← readShortstr
  let bits ← readPackedBits 2
  return ⟨exchange, routingKey, bits.getD 0 false, bits.getD 1 false⟩

def BasicDeliver.decode : WireReader BasicDeliver := do
  let consumerTag ← readShortstr
  let deliveryTag ← readU64
  let bits ← readPackedBits 1
  let exchange ← readShortstr
  let routingKey ← readShortstr
  return ⟨consumerTag, deliveryTag, bits.getD 0 false, exchange, routingKey⟩

def decodeBasic : Nat → WireReader BasicMethod
  | 10 => do
      let prefetchSize ← readU32
      let prefetchCount ← readU16
      let bits ← readPackedBits 1
      return .qos prefetchSize prefetchCount (bits.getD 0 false)
  | 11 => pure .qosOk
  | 20 => do return .consume (← BasicConsume.decode)
  | 21 => do return .consumeOk (← readShortstr)
  | 30 => do
      let consumerTag ← readShortstr
      let bits ← readPackedBits 1
      return .cancel consumerTag (bits.getD 0 false)
  | 31 => pure .cancelOk
  | 40 => do return .publish (← BasicPublish.decode)
  | 60 => do return .deliver (← BasicDeliver.decode)
  | 80 => do
      let deliveryTag ← readU64
      let bits ← readPackedBits 1
      return .ack deliveryTag (bits.getD 0 false)
  | 120 => do
      let deliveryTag ← readU64
      let bits ← readPackedBits 2
      return .nack deliveryTag (bits.getD 0 false) (bits.getD 1 false)
  | 90 => do
      let deliveryTag ← readU64
      let bits ← readPackedBits 1
      return .reject deliveryTag (bits.getD 0 false)
  | _ => fail (.error .unknownFrameType)

/-! ## Confirm -/

/-- `encode_confirm`. -/
def ConfirmMethod.encode : ConfirmMethod → Except WireError (List UInt8)
  | .select nowait => .ok (writePackedBits [nowait])
  | .selectOk => .ok []

def decodeConfirm : Nat → WireReader ConfirmMethod
  | 10 => do
      let bits ← readPackedBits 1
      return .select (bits.getD 0 false)
  | 11 => pure .selectOk
  | _ => fail (.error .unknownFrameType)

/-! ## Methods -/

/-- `encode_method`. -/
def AmqpMethod.encode : AmqpMethod → Except WireError (List UInt8)
  | .connection m => m.encode
  | .channel m => m.encode
  | .exchange m => m.encode
  | .queue m => m.encode
  | .basic m => m.encode
  | .confirm m => m.encode

/-- `decode_method` as a reader of the arguments. -/
def readMethod (classId methodId : Nat) : WireReader AmqpMethod :=
  match classId with
  | 10 => do return .connection (← decodeConnection methodId)
  | 20 => do return .channel (← decodeChannel methodId)
  | 40 => do return .exchange (← decodeExchange methodId)
  | 50 => do return .queue (← decodeQueue methodId)
  | 60 => do return .basic (← decodeBasic methodId)
  | 85 => do return .confirm (← decodeConfirm methodId)
  | _ => fail (.error .unknownFrameType)

/-- `decode_method`: what follows the arguments is ignored. -/
def decodeMethod (classId methodId : Nat) (payload : List UInt8) :
    Except (Fault WireError) AmqpMethod :=
  (readMethod classId methodId payload).map Prod.fst

end Aurum.Amqp
