import Aurum.Lib.Reader
import Aurum.Amqp.Method

/-!
# AMQP — values on the wire

The `wire` module of `aurum-protocol-amqp`: numbers (most significant byte
first), short and long strings, packed bits, field tables and the content
header, with the functions that write and read them. A read past the end
of a slice is an error where the code checks the length first, and a panic
where it indexes the slice directly.
-/

namespace Aurum.Amqp

open Aurum.Bytes Aurum.Reader Aurum.Routing

inductive WireError where
  | needMore
  | badFrameEnd
  | unknownFrameType
  | frameTooLarge (size max : Nat)
  | invalidProtocolHeader
deriving DecidableEq, Repr

abbrev WireReader := Reader WireError

/-! ## Numbers and strings -/

def readU16 : WireReader Nat := numBe (.error .needMore) 2 id

def readU32 : WireReader Nat := numBe (.error .needMore) 4 id

def readU64 : WireReader Nat := numBe (.error .needMore) 8 id

/-- A number of `w` bytes that is indexed without a check of the length. -/
def indexed {α : Type} (w : Nat) (ofNat : Nat → α) : WireReader α := numBe .panic w ofNat

def writeU16 (v : Nat) : List UInt8 := toBe 2 v

def writeU32 (v : Nat) : List UInt8 := toBe 4 v

def writeU64 (v : Nat) : List UInt8 := toBe 8 v

def readShortstr : WireReader ShortStr := do
  let len ← numBe (.error .needMore) 1 id
  take (.error .needMore) len

def writeShortstr (s : ShortStr) : List UInt8 := toBe 1 s.length ++ s

def readLongstr : WireReader (List UInt8) := do
  let len ← numBe (.error .needMore) 4 id
  take (.error .needMore) len

def writeLongstr (s : List UInt8) : List UInt8 := toBe 4 s.length ++ s

/-! ## Bits -/

/-- `read_bit`: the next bit of the first byte, the most significant one
first, and the position that is left. The byte is taken with its last bit. -/
def readBit (bitPos : Nat) : WireReader (Bool × Nat) := fun buf =>
  if bitPos = 0 ∧ buf = [] then .error (.error .needMore)
  else
    let bitPos := (if bitPos = 0 then 8 else bitPos) - 1
    match buf with
    | [] => .error .panic
    | byte :: rest => .ok ((byte.toNat.testBit bitPos, bitPos), if bitPos = 0 then rest else buf)

/-- The loop of `read_packed_bits`. -/
def readBits : Nat → Nat → WireReader (List Bool × Nat)
  | 0, bitPos => pure ([], bitPos)
  | count + 1, bitPos => do
      let (bit, bitPos) ← readBit bitPos
      let (bits, bitPos) ← readBits count bitPos
      return (bit :: bits, bitPos)

def readPackedBits (count : Nat) : WireReader (List Bool) := do
  let (bits, bitPos) ← readBits count 0
  if bitPos ≠ 0 then
    let _ ← take .panic 1
    return bits
  else return bits

def writePackedBits (bits : List Bool) : List UInt8 :=
  [bits.zipIdx.foldl (fun byte (b, i) =>
    if b then byte ||| (1 <<< UInt8.ofNat (7 - i)) else byte) 0]

/-! ## Field tables -/

/-- The tag byte of a field value. -/
inductive FieldTag where
  | bool
  | shortShortInt
  | shortShortUInt
  | shortInt
  | shortUInt
  | longInt
  | longUInt
  | longLongInt
  | longLongUInt
  | float
  | double
  | shortString
  | longString
  | fieldTable
  | void
deriving DecidableEq, Repr

namespace FieldTag

def byte : FieldTag → UInt8
  | bool => 0x74            -- t
  | shortShortInt => 0x62   -- b
  | shortShortUInt => 0x42  -- B
  | shortInt => 0x55        -- U
  | shortUInt => 0x75       -- u
  | longInt => 0x49         -- I
  | longUInt => 0x69        -- i
  | longLongInt => 0x4C     -- L
  | longLongUInt => 0x6C    -- l
  | float => 0x66           -- f
  | double => 0x64          -- d
  | shortString => 0x73     -- s
  | longString => 0x53      -- S
  | fieldTable => 0x46      -- F
  | void => 0x56            -- V

/-- The arms of `decode_field_value`. -/
def ofByte (b : UInt8) : Option FieldTag :=
  [bool, shortShortInt, shortShortUInt, shortInt, shortUInt, longInt, longUInt, longLongInt,
    longLongUInt, float, double, shortString, longString, fieldTable, void].find? (·.byte = b)

end FieldTag

/-- The tag `encode_field_value` writes. -/
def FieldValue.tag : FieldValue → FieldTag
  | .bool _ => .bool
  | .shortShortInt _ => .shortShortInt
  | .shortShortUInt _ => .shortShortUInt
  | .shortInt _ => .shortInt
  | .shortUInt _ => .shortUInt
  | .longInt _ => .longInt
  | .longUInt _ => .longUInt
  | .longLongInt _ => .longLongInt
  | .longLongUInt _ => .longLongUInt
  | .float _ => .float
  | .double _ => .double
  | .shortString _ => .shortString
  | .longString _ => .longString
  | .fieldTable _ => .fieldTable
  | .void => .void

def ShortStr.tryFromBytes (bytes : List UInt8) : Except WireError ShortStr :=
  if bytes.length > ShortStr.maxLen then
    .error (.frameTooLarge (bytes.length % 2 ^ 32) ShortStr.maxLen)
  else .ok bytes

mutual

/-- What `encode_field_value` writes behind the tag. -/
def FieldValue.encodeContent : FieldValue → Except WireError (List UInt8)
  | .bool v => .ok (toBe 1 v.toNat)
  | .shortShortInt v => .ok (toBe 1 v.toUInt8.toNat)
  | .shortShortUInt v => .ok (toBe 1 v.toNat)
  | .shortInt v => .ok (toBe 2 v.toUInt16.toNat)
  | .shortUInt v => .ok (toBe 2 v.toNat)
  | .longInt v => .ok (toBe 4 v.toUInt32.toNat)
  | .longUInt v => .ok (toBe 4 v.toNat)
  | .longLongInt v => .ok (toBe 8 v.toUInt64.toNat)
  | .longLongUInt v => .ok (toBe 8 v.toNat)
  | .float bits => .ok (toBe 4 bits.toNat)
  | .double bits => .ok (toBe 8 bits.toNat)
  | .shortString s => .ok (writeShortstr s)
  | .longString s => .ok (writeLongstr s)
  | .fieldTable t => do return writeLongstr (← t.encodeFields)
  | .void => .ok []

/-- The loop of `FieldTable::encode`: the body of the table. -/
def FieldTable.encodeFields : FieldTable → Except WireError (List UInt8)
  | .nil => .ok []
  | .cons key value rest => do
      let key ← ShortStr.tryFromBytes key
      let content ← value.encodeContent
      return writeShortstr key ++ (value.tag.byte :: content) ++ (← rest.encodeFields)

end

def FieldTable.encode (t : FieldTable) : Except WireError (List UInt8) := do
  return writeLongstr (← t.encodeFields)

def FieldTable.insert (key : Text) (value : FieldValue) : FieldTable → FieldTable
  | .nil => .cons key value .nil
  | .cons k v rest =>
    if key < k then .cons key value (.cons k v rest)
    else if key = k then .cons key value rest
    else .cons k v (rest.insert key value)

/-- The arm of `decode_field_value` for a tag, with the reader of a nested
table. -/
def decodeContent (table : WireReader FieldTable) : FieldTag → WireReader FieldValue
  | .bool => indexed 1 fun n => .bool (n ≠ 0)
  | .shortShortInt => indexed 1 fun n => .shortShortInt (UInt8.ofNat n).toInt8
  | .shortShortUInt => indexed 1 fun n => .shortShortUInt (UInt8.ofNat n)
  | .shortInt => indexed 2 fun n => .shortInt (UInt16.ofNat n).toInt16
  | .shortUInt => indexed 2 fun n => .shortUInt (UInt16.ofNat n)
  | .longInt => indexed 4 fun n => .longInt (UInt32.ofNat n).toInt32
  | .longUInt => indexed 4 fun n => .longUInt (UInt32.ofNat n)
  | .longLongInt => indexed 8 fun n => .longLongInt (UInt64.ofNat n).toInt64
  | .longLongUInt => indexed 8 fun n => .longLongUInt (UInt64.ofNat n)
  | .float => indexed 4 fun n => .float (UInt32.ofNat n)
  | .double => indexed 8 fun n => .double (UInt64.ofNat n)
  | .shortString => do return .shortString (← readShortstr)
  | .longString => do return .longString (← readLongstr)
  | .fieldTable => do return .fieldTable (← table)
  | .void => pure .void

def decodeFieldValue (table : WireReader FieldTable) : WireReader FieldValue := do
  let tag ← numBe (.error .needMore) 1 UInt8.ofNat
  match FieldTag.ofByte tag with
  | none => fail (.error .unknownFrameType)
  | some tag => decodeContent table tag

/-- One round of the loop of `FieldTable::decode`. -/
def decodeField (table : WireReader FieldTable) : WireReader (Text × FieldValue) := do
  let key ← readShortstr
  let value ← decodeFieldValue table
  return (toStringLossy key, value)

/-- A table of the given body reader. -/
def decodeTable (fields : List UInt8 → Except (Fault WireError) FieldTable) :
    WireReader FieldTable := do
  let body ← readLongstr
  match fields body with
  | .ok t => return t
  | .error fault => fail fault

/-- The loop of `FieldTable::decode` over the body of a table. The number
bounds rounds and nested tables together; every round takes a byte, so the
length of the body is enough. -/
def decodeFields : Nat → FieldTable → List UInt8 → Except (Fault WireError) FieldTable
  | 0, fields, _ => .ok fields
  | n + 1, fields, slice =>
    if slice = [] then .ok fields
    else
      match decodeField (decodeTable (decodeFields n .nil)) slice with
      | .ok ((key, value), rest) => decodeFields n (fields.insert key value) rest
      | .error fault => .error fault

def FieldTable.decode : WireReader FieldTable :=
  decodeTable fun body => decodeFields body.length .nil body

/-! ## Content headers -/

/-- A flag of `BasicPropertyFlags`. -/
def propertyFlag (present : Bool) (bit : Nat) : Nat := if present then 2 ^ bit else 0

/-- The flags of the properties that are present. -/
def BasicProperties.flags (p : BasicProperties) : Nat :=
  propertyFlag p.contentType.isSome 15 ||| propertyFlag p.contentEncoding.isSome 14 |||
  propertyFlag (p.headers ≠ .nil) 13 ||| propertyFlag p.deliveryMode.isSome 12 |||
  propertyFlag p.priority.isSome 11 ||| propertyFlag p.correlationId.isSome 10 |||
  propertyFlag p.replyTo.isSome 9 ||| propertyFlag p.expiration.isSome 8 |||
  propertyFlag p.messageId.isSome 7 ||| propertyFlag p.timestamp.isSome 6 |||
  propertyFlag p.messageType.isSome 5 ||| propertyFlag p.userId.isSome 4 |||
  propertyFlag p.appId.isSome 3

/-- A value that is written if it is there. -/
def writeOptional {α : Type} (write : α → List UInt8) : Option α → List UInt8
  | none => []
  | some v => write v

/-- The `headers` of the properties are written if there are any. -/
def FieldTable.encodeNonempty (t : FieldTable) : Except WireError (List UInt8) :=
  if t = .nil then .ok [] else t.encode

def BasicProperties.encode (p : BasicProperties) : Except WireError (List UInt8) := do
  let headers ← p.headers.encodeNonempty
  return writeU16 p.flags ++ writeOptional writeShortstr p.contentType ++
    writeOptional writeShortstr p.contentEncoding ++ headers ++
    writeOptional (toBe 1 ·.toNat) p.deliveryMode ++ writeOptional (toBe 1 ·.toNat) p.priority ++
    writeOptional writeShortstr p.correlationId ++ writeOptional writeShortstr p.replyTo ++
    writeOptional writeShortstr p.expiration ++ writeOptional writeShortstr p.messageId ++
    writeOptional (writeU64 ·.toNat) p.timestamp ++ writeOptional writeShortstr p.messageType ++
    writeOptional writeShortstr p.userId ++ writeOptional writeShortstr p.appId

/-- A value that is read if its flag is set. -/
def readOptional {α : Type} (present : Bool) (read : WireReader α) : WireReader (Option α) :=
  if present then do return some (← read) else pure none

/-- `BasicPropertyFlags::from_bits`, or no flag if an unknown one is set. -/
def knownFlags (bits : Nat) : Nat := if bits % 8 = 0 then bits else 0

def BasicProperties.decode : WireReader BasicProperties := do
  let flags ← indexed 2 knownFlags
  let contentType ← readOptional (flags.testBit 15) readShortstr
  let contentEncoding ← readOptional (flags.testBit 14) readShortstr
  let headers ← readOptional (flags.testBit 13) FieldTable.decode
  let deliveryMode ← readOptional (flags.testBit 12) (indexed 1 UInt8.ofNat)
  let priority ← readOptional (flags.testBit 11) (indexed 1 UInt8.ofNat)
  let correlationId ← readOptional (flags.testBit 10) readShortstr
  let replyTo ← readOptional (flags.testBit 9) readShortstr
  let expiration ← readOptional (flags.testBit 8) readShortstr
  let messageId ← readOptional (flags.testBit 7) readShortstr
  let timestamp ← readOptional (flags.testBit 6) (do return UInt64.ofNat (← readU64))
  let messageType ← readOptional (flags.testBit 5) readShortstr
  let userId ← readOptional (flags.testBit 4) readShortstr
  let appId ← readOptional (flags.testBit 3) readShortstr
  return ⟨contentType, contentEncoding, headers.getD .nil, deliveryMode, priority, correlationId,
    replyTo, expiration, messageId, timestamp, messageType, userId, appId⟩

def ContentHeader.encode (h : ContentHeader) : Except WireError (List UInt8) := do
  return writeU16 h.classId ++ writeU16 0 ++ writeU64 h.bodySize ++ (← h.properties.encode)

def ContentHeader.decode : WireReader ContentHeader := do
  let classId ← indexed 2 id
  let _ ← take .panic 2
  let bodySize ← readU64
  let properties ← BasicProperties.decode
  return ⟨classId, bodySize, properties⟩

end Aurum.Amqp
