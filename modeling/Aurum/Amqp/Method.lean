import Aurum.Routing.Table

/-!
# AMQP — methods and content

`aurum-protocol-amqp`: the methods of the six classes a session knows and
the properties of a message, as they are after decoding. Short and long
strings are their bytes; floats are their bit patterns; a field table is
the sorted content of its `BTreeMap`.
-/

namespace Aurum.Amqp

open Aurum.Routing (Text)

abbrev ShortStr := Text

def ShortStr.maxLen : Nat := 255

/-! ## Field tables -/

mutual

inductive FieldValue where
  | bool (v : Bool)
  | shortShortInt (v : Int8)
  | shortShortUInt (v : UInt8)
  | shortInt (v : Int16)
  | shortUInt (v : UInt16)
  | longInt (v : Int32)
  | longUInt (v : UInt32)
  | longLongInt (v : Int64)
  | longLongUInt (v : UInt64)
  | float (bits : UInt32)
  | double (bits : UInt64)
  | shortString (s : ShortStr)
  | longString (s : List UInt8)
  | fieldTable (t : FieldTable)
  | void

inductive FieldTable where
  | nil
  | cons (key : Text) (value : FieldValue) (rest : FieldTable)

end

deriving instance DecidableEq for FieldValue, FieldTable

mutual

/-- `encode_field_value` succeeds. -/
def FieldValue.encodes : FieldValue → Bool
  | .fieldTable t => t.encodes
  | _ => true

/-- `FieldTable::encode` succeeds: every key is a short string. A key that
was decoded can be longer, since its invalid bytes have been replaced. -/
def FieldTable.encodes : FieldTable → Bool
  | .nil => true
  | .cons key value rest =>
    decide (key.length ≤ ShortStr.maxLen) && value.encodes && rest.encodes

end

/-! ## Content -/

structure BasicProperties where
  contentType : Option ShortStr
  contentEncoding : Option ShortStr
  headers : FieldTable
  deliveryMode : Option UInt8
  priority : Option UInt8
  correlationId : Option ShortStr
  replyTo : Option ShortStr
  expiration : Option ShortStr
  messageId : Option ShortStr
  timestamp : Option UInt64
  messageType : Option ShortStr
  userId : Option ShortStr
  appId : Option ShortStr
deriving DecidableEq

/-- `BasicProperties::default`. -/
def BasicProperties.empty : BasicProperties where
  contentType := none
  contentEncoding := none
  headers := .nil
  deliveryMode := none
  priority := none
  correlationId := none
  replyTo := none
  expiration := none
  messageId := none
  timestamp := none
  messageType := none
  userId := none
  appId := none

structure ContentHeader where
  classId : Nat
  bodySize : Nat
  properties : BasicProperties
deriving DecidableEq

def classBasic : Nat := 60

/-! ## Methods -/

structure ConnectionStart where
  versionMajor : UInt8
  versionMinor : UInt8
  serverProperties : FieldTable
  mechanisms : List UInt8
  locales : List UInt8
deriving DecidableEq

structure ConnectionStartOk where
  clientProperties : FieldTable
  mechanism : ShortStr
  response : List UInt8
  locale : ShortStr
deriving DecidableEq

/-- `ConnectionTune` and `ConnectionTuneOk`. -/
structure ConnectionTune where
  channelMax : Nat
  frameMax : Nat
  heartbeat : Nat
deriving DecidableEq

/-- `ConnectionClose` and `ChannelClose`. -/
structure CloseReason where
  replyCode : Nat
  replyText : ShortStr
  classId : Nat
  methodId : Nat
deriving DecidableEq

inductive ConnectionMethod where
  | start (m : ConnectionStart)
  | startOk (m : ConnectionStartOk)
  | tune (m : ConnectionTune)
  | tuneOk (m : ConnectionTune)
  | open (virtualHost : ShortStr) (insist : Bool)
  | openOk
  | close (m : CloseReason)
  | closeOk
deriving DecidableEq

inductive ChannelMethod where
  | open (reserved : ShortStr)
  | openOk
  | close (m : CloseReason)
  | closeOk
deriving DecidableEq

structure ExchangeDeclare where
  exchange : ShortStr
  exchangeType : ShortStr
  passive : Bool
  durable : Bool
  autoDelete : Bool
  internal : Bool
  nowait : Bool
  arguments : FieldTable
deriving DecidableEq

inductive ExchangeMethod where
  | declare (m : ExchangeDeclare)
  | declareOk
deriving DecidableEq

structure QueueDeclare where
  queue : ShortStr
  passive : Bool
  durable : Bool
  exclusive : Bool
  autoDelete : Bool
  nowait : Bool
  arguments : FieldTable
deriving DecidableEq

structure QueueBind where
  queue : ShortStr
  exchange : ShortStr
  routingKey : ShortStr
  nowait : Bool
  arguments : FieldTable
deriving DecidableEq

inductive QueueMethod where
  | declare (m : QueueDeclare)
  | declareOk (queue : ShortStr) (messageCount consumerCount : Nat)
  | bind (m : QueueBind)
  | bindOk
deriving DecidableEq

structure BasicConsume where
  queue : ShortStr
  consumerTag : ShortStr
  noLocal : Bool
  noAck : Bool
  exclusive : Bool
  nowait : Bool
  arguments : FieldTable
deriving DecidableEq

/-- `BasicPublish`, with its two flags. -/
structure BasicPublish where
  exchange : ShortStr
  routingKey : ShortStr
  mandatory : Bool
  immediate : Bool
deriving DecidableEq

structure BasicDeliver where
  consumerTag : ShortStr
  deliveryTag : Nat
  redelivered : Bool
  exchange : ShortStr
  routingKey : ShortStr
deriving DecidableEq

inductive BasicMethod where
  | qos (prefetchSize prefetchCount : Nat) (global : Bool)
  | qosOk
  | consume (m : BasicConsume)
  | consumeOk (consumerTag : ShortStr)
  | cancel (consumerTag : ShortStr) (nowait : Bool)
  | cancelOk
  | publish (m : BasicPublish)
  | deliver (m : BasicDeliver)
  | ack (deliveryTag : Nat) (multiple : Bool)
  | nack (deliveryTag : Nat) (multiple requeue : Bool)
  | reject (deliveryTag : Nat) (requeue : Bool)
deriving DecidableEq

inductive ConfirmMethod where
  | select (nowait : Bool)
  | selectOk
deriving DecidableEq

inductive AmqpMethod where
  | connection (m : ConnectionMethod)
  | channel (m : ChannelMethod)
  | exchange (m : ExchangeMethod)
  | queue (m : QueueMethod)
  | basic (m : BasicMethod)
  | confirm (m : ConfirmMethod)
deriving DecidableEq

/-! ## Text -/

/-- The UTF-8 bytes of the replacement character. -/
def replacement : Text := [0xEF, 0xBF, 0xBD]

/-- A continuation byte. -/
def isContinuation (b : UInt8) : Bool := 0x80 ≤ b && b ≤ 0xBF

/-- The second bytes that may follow the first byte of a character of
three or four bytes. -/
def isSecond (first b : UInt8) : Bool :=
  if first = 0xE0 then 0xA0 ≤ b && b ≤ 0xBF
  else if first = 0xED then 0x80 ≤ b && b ≤ 0x9F
  else if first = 0xF0 then 0x90 ≤ b && b ≤ 0xBF
  else if first = 0xF4 then 0x80 ≤ b && b ≤ 0x8F
  else isContinuation b

/-- `ShortStr::to_string_lossy`: each maximal part of the bytes that
begins a character but does not complete it becomes one replacement
character. -/
def toStringLossy : List UInt8 → Text
  | [] => []
  | b :: rest =>
    if b < 0x80 then b :: toStringLossy rest
    else if 0xC2 ≤ b && b ≤ 0xDF then
      match rest with
      | c :: rest' =>
        if isContinuation c then b :: c :: toStringLossy rest'
        else replacement ++ toStringLossy (c :: rest')
      | [] => replacement
    else if 0xE0 ≤ b && b ≤ 0xEF then
      match rest with
      | c :: d :: rest' =>
        if isSecond b c && isContinuation d then b :: c :: d :: toStringLossy rest'
        else if isSecond b c then replacement ++ toStringLossy (d :: rest')
        else replacement ++ toStringLossy (c :: d :: rest')
      | [c] => if isSecond b c then replacement else replacement ++ toStringLossy [c]
      | [] => replacement
    else if 0xF0 ≤ b && b ≤ 0xF4 then
      match rest with
      | c :: d :: e :: rest' =>
        if isSecond b c && isContinuation d && isContinuation e then
          b :: c :: d :: e :: toStringLossy rest'
        else if isSecond b c && isContinuation d then replacement ++ toStringLossy (e :: rest')
        else if isSecond b c then replacement ++ toStringLossy (d :: e :: rest')
        else replacement ++ toStringLossy (c :: d :: e :: rest')
      | [c, d] =>
        if isSecond b c && isContinuation d then replacement
        else if isSecond b c then replacement ++ toStringLossy [d]
        else replacement ++ toStringLossy [c, d]
      | [c] => if isSecond b c then replacement else replacement ++ toStringLossy [c]
      | [] => replacement
    else replacement ++ toStringLossy rest

-- "né" is kept; a lone 0xE9 is replaced
example : toStringLossy [0x6E, 0xC3, 0xA9] = [0x6E, 0xC3, 0xA9] := by decide
example : toStringLossy [0xE9, 0x6E] = [0xEF, 0xBF, 0xBD, 0x6E] := by decide

end Aurum.Amqp
