import Aurum.Amqp.Yields

/-!
# AMQP — bit arguments

Consecutive bit arguments of a method share one octet. The protocol puts
the first one into the least significant bit; `write_packed_bits` and
`read_packed_bits` put it into the most significant one. Thirteen methods
have bit arguments, between one and five of them. Their encoding is what
stands before the octet, the octet, and what stands behind it; decoding
with any octet in its place changes the bit arguments and nothing else.
-/

namespace Aurum.Amqp

open Aurum.Bytes Aurum.Reader List AmqpMethod ShortStr

/-! ## Arguments that fit -/

/-- The numbers of `tune` and `tune-ok` have their width. -/
structure ConnectionTune.Fits (m : ConnectionTune) : Prop where
  channelMax : m.channelMax < 2 ^ 16
  frameMax : m.frameMax < 2 ^ 32
  heartbeat : m.heartbeat < 2 ^ 16

structure CloseReason.Fits (m : CloseReason) : Prop where
  replyCode : m.replyCode < 2 ^ 16
  replyText : m.replyText.length ≤ maxLen
  classId : m.classId < 2 ^ 16
  methodId : m.methodId < 2 ^ 16

/-- The arguments of a method fit: numbers have the width of their type,
short strings at most 255 bytes, and long strings and tables fewer than
2^32. -/
def AmqpMethod.Fits : AmqpMethod → Prop
  | .connection (.start m) =>
    m.serverProperties.Sized ∧ m.mechanisms.length < 2 ^ 32 ∧ m.locales.length < 2 ^ 32
  | .connection (.startOk m) =>
    m.clientProperties.Sized ∧ m.mechanism.length ≤ maxLen ∧
      m.response.length < 2 ^ 32 ∧ m.locale.length ≤ maxLen
  | .connection (.tune m) => m.Fits
  | .connection (.tuneOk m) => m.Fits
  | .connection (.open virtualHost _) => virtualHost.length ≤ maxLen
  | .connection (.close m) => m.Fits
  | .channel (.open reserved) => reserved.length ≤ maxLen
  | .channel (.close m) => m.Fits
  | .exchange (.declare m) =>
    m.exchange.length ≤ maxLen ∧ m.exchangeType.length ≤ maxLen ∧
      m.arguments.Sized
  | .queue (.declare m) => m.queue.length ≤ maxLen ∧ m.arguments.Sized
  | .queue (.declareOk name messageCount consumerCount) =>
    name.length ≤ maxLen ∧ messageCount < 2 ^ 32 ∧ consumerCount < 2 ^ 32
  | .queue (.bind m) =>
    m.queue.length ≤ maxLen ∧ m.exchange.length ≤ maxLen ∧
      m.routingKey.length ≤ maxLen ∧ m.arguments.Sized
  | .basic (.qos prefetchSize prefetchCount _) => prefetchSize < 2 ^ 32 ∧ prefetchCount < 2 ^ 16
  | .basic (.consume m) =>
    m.queue.length ≤ maxLen ∧ m.consumerTag.length ≤ maxLen ∧ m.arguments.Sized
  | .basic (.consumeOk consumerTag) => consumerTag.length ≤ maxLen
  | .basic (.cancel consumerTag _) => consumerTag.length ≤ maxLen
  | .basic (.publish m) =>
    m.exchange.length ≤ maxLen ∧ m.routingKey.length ≤ maxLen
  | .basic (.deliver m) =>
    m.consumerTag.length ≤ maxLen ∧ m.deliveryTag < 2 ^ 64 ∧
      m.exchange.length ≤ maxLen ∧ m.routingKey.length ≤ maxLen
  | .basic (.ack deliveryTag _) => deliveryTag < 2 ^ 64
  | .basic (.nack deliveryTag _ _) => deliveryTag < 2 ^ 64
  | .basic (.reject deliveryTag _) => deliveryTag < 2 ^ 64
  | _ => True

/-! ## The octet -/

namespace AmqpMethod

open List

/-- The bit arguments, in order. -/
def bits : AmqpMethod → List Bool
  | .connection (.open _ insist) => [insist]
  | .exchange (.declare m) => [m.passive, m.durable, m.autoDelete, m.internal, m.nowait]
  | .queue (.declare m) => [m.passive, m.durable, m.exclusive, m.autoDelete, m.nowait]
  | .queue (.bind m) => [m.nowait]
  | .basic (.qos _ _ global) => [global]
  | .basic (.consume m) => [m.noLocal, m.noAck, m.exclusive, m.nowait]
  | .basic (.cancel _ nowait) => [nowait]
  | .basic (.publish m) => [m.mandatory, m.immediate]
  | .basic (.deliver m) => [m.redelivered]
  | .basic (.ack _ multiple) => [multiple]
  | .basic (.nack _ multiple requeue) => [multiple, requeue]
  | .basic (.reject _ requeue) => [requeue]
  | .confirm (.select nowait) => [nowait]
  | _ => []

/-- The method with other bit arguments. -/
def withBits (b : List Bool) : AmqpMethod → AmqpMethod
  | .connection (.open virtualHost _) => .connection (.open virtualHost (b.getD 0 false))
  | .exchange (.declare m) => .exchange (.declare { m with
      passive := b.getD 0 false
      durable := b.getD 1 false
      autoDelete := b.getD 2 false
      internal := b.getD 3 false
      nowait := b.getD 4 false })
  | .queue (.declare m) => .queue (.declare { m with
      passive := b.getD 0 false
      durable := b.getD 1 false
      exclusive := b.getD 2 false
      autoDelete := b.getD 3 false
      nowait := b.getD 4 false })
  | .queue (.bind m) => .queue (.bind { m with nowait := b.getD 0 false })
  | .basic (.qos prefetchSize prefetchCount _) =>
    .basic (.qos prefetchSize prefetchCount (b.getD 0 false))
  | .basic (.consume m) => .basic (.consume { m with
      noLocal := b.getD 0 false
      noAck := b.getD 1 false
      exclusive := b.getD 2 false
      nowait := b.getD 3 false })
  | .basic (.cancel consumerTag _) => .basic (.cancel consumerTag (b.getD 0 false))
  | .basic (.publish m) => .basic (.publish { m with
      mandatory := b.getD 0 false
      immediate := b.getD 1 false })
  | .basic (.deliver m) => .basic (.deliver { m with redelivered := b.getD 0 false })
  | .basic (.ack deliveryTag _) => .basic (.ack deliveryTag (b.getD 0 false))
  | .basic (.nack deliveryTag _ _) =>
    .basic (.nack deliveryTag (b.getD 0 false) (b.getD 1 false))
  | .basic (.reject deliveryTag _) => .basic (.reject deliveryTag (b.getD 0 false))
  | .confirm (.select _) => .confirm (.select (b.getD 0 false))
  | m => m

/-- The arguments before the bits. -/
def beforeBits : AmqpMethod → List UInt8
  | .connection (.open virtualHost _) => writeShortstr virtualHost
  | .exchange (.declare m) =>
    writeU16 0 ++ (writeShortstr m.exchange ++ writeShortstr m.exchangeType)
  | .queue (.declare m) => writeU16 0 ++ writeShortstr m.queue
  | .queue (.bind m) =>
    writeU16 0 ++ (writeShortstr m.queue ++ (writeShortstr m.exchange ++
      writeShortstr m.routingKey))
  | .basic (.qos prefetchSize prefetchCount _) => writeU32 prefetchSize ++ writeU16 prefetchCount
  | .basic (.consume m) => writeU16 0 ++ (writeShortstr m.queue ++ writeShortstr m.consumerTag)
  | .basic (.cancel consumerTag _) => writeShortstr consumerTag
  | .basic (.publish m) => writeU16 0 ++ (writeShortstr m.exchange ++ writeShortstr m.routingKey)
  | .basic (.deliver m) => writeShortstr m.consumerTag ++ writeU64 m.deliveryTag
  | .basic (.ack deliveryTag _) => writeU64 deliveryTag
  | .basic (.nack deliveryTag _ _) => writeU64 deliveryTag
  | .basic (.reject deliveryTag _) => writeU64 deliveryTag
  | _ => []

/-- The arguments behind the bits. -/
def afterBits : AmqpMethod → Except WireError (List UInt8)
  | .exchange (.declare m) => m.arguments.encode
  | .queue (.declare m) => m.arguments.encode
  | .queue (.bind m) => m.arguments.encode
  | .basic (.consume m) => m.arguments.encode
  | .basic (.deliver m) => .ok (writeShortstr m.exchange ++ writeShortstr m.routingKey)
  | _ => .ok []

end AmqpMethod

/-- The first `n` bits of an octet, the most significant one first. -/
def leadingBits (n : Nat) (byte : UInt8) : List Bool :=
  (range n).map fun i => byte.toNat.testBit (7 - i)

theorem yields_octet {n : Nat} (hn : 0 < n) (hn' : n < 8) (byte : UInt8) :
    Yields (readPackedBits n) [byte] (leadingBits n byte) :=
  fun rest => readPackedBits_cons byte rest hn hn'

/-- The reserved short that several methods begin with. -/
theorem yields_reserved : Yields readU16 (writeU16 0) 0 := yields_readU16 (by decide)

/-- **Any octet in the place of the bits** gives the method with the bits
of the octet. -/
theorem yields_withBits (m : AmqpMethod) (h : m.Fits) (hbits : m.bits ≠ []) :
    ∃ after, m.afterBits = .ok after ∧ ∀ byte : UInt8,
      Yields (readMethod m.classId m.methodId) (m.beforeBits ++ ([byte] ++ after))
        (m.withBits (leadingBits m.bits.length byte)) := by
  have octet1 := yields_octet (n := 1) (by decide) (by decide)
  have octet2 := yields_octet (n := 2) (by decide) (by decide)
  have octet4 := yields_octet (n := 4) (by decide) (by decide)
  have octet5 := yields_octet (n := 5) (by decide) (by decide)
  cases m with
  | connection m =>
    cases m with
    | «open» virtualHost insist =>
      refine ⟨[], rfl, fun byte => ?_⟩
      have hargs : Yields (decodeConnection 40) _ _ :=
        (yields_readShortstr h).bind ((octet1 byte).bind_pure rfl)
      exact hargs.bind_pure rfl
    | _ => exact absurd rfl hbits
  | channel m => exact absurd (by cases m <;> rfl) hbits
  | exchange m =>
    cases m with
    | declare m =>
      obtain ⟨table, htable, hread⟩ := h.2.2.yields
      refine ⟨table, htable, fun byte => ?_⟩
      have hargs : Yields ExchangeDeclare.decode _ _ :=
        yields_reserved.bind ((yields_readShortstr h.1).bind ((yields_readShortstr h.2.1).bind
          ((octet5 byte).bind (hread.bind_pure rfl))))
      simp only [beforeBits, append_assoc]
      exact (hargs.bind_pure (f := fun m => pure (ExchangeMethod.declare m)) rfl).bind_pure rfl
    | declareOk => exact absurd rfl hbits
  | queue m =>
    cases m with
    | declare m =>
      obtain ⟨table, htable, hread⟩ := h.2.yields
      refine ⟨table, htable, fun byte => ?_⟩
      have hargs : Yields QueueDeclare.decode _ _ :=
        yields_reserved.bind ((yields_readShortstr h.1).bind
          ((octet5 byte).bind (hread.bind_pure rfl)))
      simp only [beforeBits, append_assoc]
      exact (hargs.bind_pure (f := fun m => pure (QueueMethod.declare m)) rfl).bind_pure rfl
    | bind m =>
      obtain ⟨table, htable, hread⟩ := h.2.2.2.yields
      refine ⟨table, htable, fun byte => ?_⟩
      have hargs : Yields QueueBind.decode _ _ :=
        yields_reserved.bind ((yields_readShortstr h.1).bind ((yields_readShortstr h.2.1).bind
          ((yields_readShortstr h.2.2.1).bind ((octet1 byte).bind (hread.bind_pure rfl)))))
      simp only [beforeBits, append_assoc]
      exact (hargs.bind_pure (f := fun m => pure (QueueMethod.bind m)) rfl).bind_pure rfl
    | _ => exact absurd rfl hbits
  | basic m =>
    cases m with
    | qos prefetchSize prefetchCount global =>
      refine ⟨[], rfl, fun byte => ?_⟩
      have hargs : Yields (decodeBasic 10) _ _ :=
        (yields_readU32 h.1).bind ((yields_readU16 h.2).bind ((octet1 byte).bind_pure rfl))
      simp only [beforeBits, append_assoc]
      exact hargs.bind_pure rfl
    | consume m =>
      obtain ⟨table, htable, hread⟩ := h.2.2.yields
      refine ⟨table, htable, fun byte => ?_⟩
      have hargs : Yields BasicConsume.decode _ _ :=
        yields_reserved.bind ((yields_readShortstr h.1).bind ((yields_readShortstr h.2.1).bind
          ((octet4 byte).bind (hread.bind_pure rfl))))
      simp only [beforeBits, append_assoc]
      exact (hargs.bind_pure (f := fun m => pure (BasicMethod.consume m)) rfl).bind_pure rfl
    | cancel consumerTag nowait =>
      refine ⟨[], rfl, fun byte => ?_⟩
      have hargs : Yields (decodeBasic 30) _ _ :=
        (yields_readShortstr h).bind ((octet1 byte).bind_pure rfl)
      exact hargs.bind_pure rfl
    | publish m =>
      refine ⟨[], rfl, fun byte => ?_⟩
      have hargs : Yields BasicPublish.decode _ _ :=
        yields_reserved.bind ((yields_readShortstr h.1).bind ((yields_readShortstr h.2).bind
          ((octet2 byte).bind_pure rfl)))
      simp only [beforeBits, append_assoc]
      exact (hargs.bind_pure (f := fun m => pure (BasicMethod.publish m)) rfl).bind_pure rfl
    | deliver m =>
      refine ⟨_, rfl, fun byte => ?_⟩
      have hargs : Yields BasicDeliver.decode _ _ :=
        (yields_readShortstr h.1).bind ((yields_readU64 h.2.1).bind
          ((octet1 byte).bind ((yields_readShortstr h.2.2.1).bind
            ((yields_readShortstr h.2.2.2).bind_pure rfl))))
      simp only [beforeBits, append_assoc]
      exact (hargs.bind_pure (f := fun m => pure (BasicMethod.deliver m)) rfl).bind_pure rfl
    | ack deliveryTag multiple =>
      refine ⟨[], rfl, fun byte => ?_⟩
      have hargs : Yields (decodeBasic 80) _ _ :=
        (yields_readU64 h).bind ((octet1 byte).bind_pure rfl)
      exact hargs.bind_pure rfl
    | nack deliveryTag multiple requeue =>
      refine ⟨[], rfl, fun byte => ?_⟩
      have hargs : Yields (decodeBasic 120) _ _ :=
        (yields_readU64 h).bind ((octet2 byte).bind_pure rfl)
      exact hargs.bind_pure rfl
    | reject deliveryTag requeue =>
      refine ⟨[], rfl, fun byte => ?_⟩
      have hargs : Yields (decodeBasic 90) _ _ :=
        (yields_readU64 h).bind ((octet1 byte).bind_pure rfl)
      exact hargs.bind_pure rfl
    | _ => exact absurd rfl hbits
  | confirm m =>
    cases m with
    | select nowait =>
      refine ⟨[], rfl, fun byte => ?_⟩
      have hargs : Yields (decodeConfirm 10) _ _ := (octet1 byte).bind_pure rfl
      exact hargs.bind_pure rfl
    | selectOk => exact absurd rfl hbits

/-- The encoding around the octet. -/
theorem encode_bits {m : AmqpMethod} (hbits : m.bits ≠ []) {after : List UInt8}
    (h : m.afterBits = .ok after) :
    m.encode = .ok (m.beforeBits ++ (writePackedBits m.bits ++ after)) := by
  cases m with
  | connection m =>
    cases m with
    | «open» virtualHost insist => obtain rfl := Except.ok.inj h; rfl
    | _ => exact absurd rfl hbits
  | channel m => exact absurd (by cases m <;> rfl) hbits
  | exchange m =>
    cases m with
    | declare m =>
      have htable : m.arguments.encode = .ok after := h
      simp only [encode, ExchangeMethod.encode, htable, beforeBits,
        bits, append_assoc]
      rfl
    | declareOk => exact absurd rfl hbits
  | queue m =>
    cases m with
    | declare m =>
      have htable : m.arguments.encode = .ok after := h
      simp only [encode, QueueMethod.encode, htable, beforeBits,
        bits, append_assoc]
      rfl
    | bind m =>
      have htable : m.arguments.encode = .ok after := h
      simp only [encode, QueueMethod.encode, htable, beforeBits,
        bits, append_assoc]
      rfl
    | _ => exact absurd rfl hbits
  | basic m =>
    cases m with
    | consume m =>
      have htable : m.arguments.encode = .ok after := h
      simp only [encode, BasicMethod.encode, htable, beforeBits,
        bits, append_assoc]
      rfl
    | qosOk => exact absurd rfl hbits
    | consumeOk _ => exact absurd rfl hbits
    | cancelOk => exact absurd rfl hbits
    | _ =>
      obtain rfl := Except.ok.inj h
      simp only [encode, BasicMethod.encode, beforeBits,
        bits, append_assoc, append_nil]
  | confirm m =>
    cases m with
    | select nowait => obtain rfl := Except.ok.inj h; rfl
    | selectOk => exact absurd rfl hbits

/-- A method has no bits, or one, two, four or five. -/
theorem bits_cases {P : List Bool → Prop} (none : P []) (one : ∀ a, P [a]) (two : ∀ a b, P [a, b])
    (four : ∀ a b c d, P [a, b, c, d]) (five : ∀ a b c d e, P [a, b, c, d, e]) (m : AmqpMethod) :
    P m.bits := by
  cases m with
  | connection m => cases m <;> first | exact one _ | exact none
  | channel m => cases m <;> exact none
  | exchange m => cases m <;> first | exact five _ _ _ _ _ | exact none
  | queue m => cases m <;> first | exact five _ _ _ _ _ | exact one _ | exact none
  | basic m => cases m <;> first | exact four _ _ _ _ | exact two _ _ | exact one _ | exact none
  | confirm m => cases m <;> first | exact one _ | exact none

/-- The octet `write_packed_bits` writes. -/
def packedOctet (bits : List Bool) : UInt8 := (writePackedBits bits).headD 0

theorem leadingBits_packedOctet (m : AmqpMethod) :
    leadingBits m.bits.length (packedOctet m.bits) = m.bits :=
  bits_cases (P := fun b => leadingBits b.length (packedOctet b) = b) (by decide) (by decide)
    (by decide) (by decide) (by decide) m

theorem withBits_bits (m : AmqpMethod) : m.withBits m.bits = m := by
  cases m with
  | connection m => cases m <;> rfl
  | channel m => cases m <;> rfl
  | exchange m => cases m <;> rfl
  | queue m => cases m <;> rfl
  | basic m => cases m <;> rfl
  | confirm m => cases m <;> rfl

/-- The bit arguments of the method an octet gives are its leading bits. -/
theorem bits_withBits (m : AmqpMethod) (byte : UInt8) :
    (m.withBits (leadingBits m.bits.length byte)).bits = leadingBits m.bits.length byte := by
  cases m with
  | connection m => cases m <;> rfl
  | channel m => cases m <;> rfl
  | exchange m => cases m <;> rfl
  | queue m => cases m <;> rfl
  | basic m => cases m <;> rfl
  | confirm m => cases m <;> rfl

theorem getD_leadingBits {n i : Nat} (hi : i < n) (byte : UInt8) :
    (leadingBits n byte).getD i false = byte.toNat.testBit (7 - i) := by
  simp [leadingBits, getD_eq_getElem?_getD, hi]

/-- The bits of an octet that is the same in both orders. -/
theorem packedOctet_testBit (m : AmqpMethod) :
    (∀ i < m.bits.length, (packedOctet m.bits).toNat.testBit i = m.bits.getD i false) ↔
      (∀ b ∈ m.bits, b = false) ∨ m.bits = [false, false, false, true, true] :=
  bits_cases (P := fun bits => (∀ i < bits.length, (packedOctet bits).toNat.testBit i =
    bits.getD i false) ↔ (∀ b ∈ bits, b = false) ∨ bits = [false, false, false, true, true])
    (by decide) (by decide) (by decide) (by decide) (by decide) m

/-- **Bit arguments on the wire.** For every method with bit arguments and
all values of the others, the bits stand in one octet. The encoder puts
bit argument `i` into bit `i` of the octet exactly if no bit argument is
set, or the last two of five are. With any octet in its place the decoder
returns the method with other bit arguments, and takes them from where
the protocol has them exactly if each bit `i` of the octet is its bit
`7 - i`. -/
theorem bit_arguments_placed (m : AmqpMethod) (h : m.Fits) (hbits : m.bits ≠ []) :
    ∃ octet after, m.encode = .ok (m.beforeBits ++ ([octet] ++ after)) ∧
      ((∀ i < m.bits.length, octet.toNat.testBit i = m.bits.getD i false) ↔
        (∀ b ∈ m.bits, b = false) ∨ m.bits = [false, false, false, true, true]) ∧
      ∀ byte : UInt8, ∃ m',
        decodeMethod m.classId m.methodId (m.beforeBits ++ ([byte] ++ after)) = .ok m' ∧
        m' = m.withBits m'.bits ∧ m'.bits.length = m.bits.length ∧
        ((∀ i < m.bits.length, m'.bits.getD i false = byte.toNat.testBit i) ↔
          ∀ i < m.bits.length, byte.toNat.testBit (7 - i) = byte.toNat.testBit i) := by
  obtain ⟨after, hafter, hread⟩ := yields_withBits m h hbits
  refine ⟨packedOctet m.bits, after, encode_bits hbits hafter, packedOctet_testBit m,
    fun byte => ⟨m.withBits (leadingBits m.bits.length byte), ?_, ?_, ?_, ?_⟩⟩
  · have hnil := hread byte []
    rw [List.append_nil] at hnil
    rw [decodeMethod, hnil]
    rfl
  · rw [bits_withBits]
  · rw [bits_withBits, leadingBits, length_map, length_range]
  · rw [bits_withBits]
    constructor
    · intro hplaced i hi
      rw [← hplaced i hi, getD_leadingBits hi]
    · intro hsame i hi
      rw [getD_leadingBits hi, hsame i hi]

/-- A `basic.cancel` without `nowait` is encoded as the protocol has it,
and decoded so from an octet whose bits 0 and 7 are set. -/
theorem bit_arguments_cancel : let m : AmqpMethod := .basic (.cancel [99] false)
    ∃ octet after, m.encode = .ok ([1, 99] ++ ([octet] ++ after)) ∧ ¬ octet.toNat.testBit 0 ∧
      ∃ m', decodeMethod 60 30 ([1, 99] ++ ([0x81] ++ after)) = .ok m' ∧ m'.bits = [true] := by
  intro m
  have hfits : m.Fits := show [99].length ≤ ShortStr.maxLen by decide
  obtain ⟨octet, after, henc, hput, hget⟩ :=
    bit_arguments_placed m hfits (by simp [m, AmqpMethod.bits])
  have hbit := hput.mpr (.inl (by simp [m, AmqpMethod.bits])) 0 (by decide)
  obtain ⟨m', hdec, -, hlen, hplaced⟩ := hget 0x81
  have hbit' := hplaced.mpr (by decide) 0 (by decide)
  refine ⟨octet, after, henc, by rw [hbit]; decide, m', hdec, ?_⟩
  obtain ⟨a, ha⟩ := length_eq_one_iff.mp hlen
  rw [ha] at hbit' ⊢
  rw [show a = true from hbit']

/-- A `basic.ack` whose last octet is 1 is decoded without `multiple`, and
one with `multiple` ends with the octet 128. -/
theorem ack_bit_reversed :
    decodeMethod 60 80 [0, 0, 0, 0, 0, 0, 0, 7, 1] = .ok (.basic (.ack 7 false)) ∧
      AmqpMethod.encode (.basic (.ack 7 true)) = .ok [0, 0, 0, 0, 0, 0, 0, 7, 0x80] := by
  decide +kernel

end Aurum.Amqp
