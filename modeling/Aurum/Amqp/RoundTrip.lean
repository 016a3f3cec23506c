import Aurum.Amqp.BitFields

/-!
# AMQP — encoding and decoding are inverse

Every method and every content header whose strings and tables fit their
length prefixes is encoded, and decoding the bytes gives it back. For a
method with bit arguments this is `yields_withBits` at the octet the
encoder writes; the others are the chains of their arguments.
-/

namespace Aurum.Amqp

open Aurum.Bytes Aurum.Reader ConnectionMethod

theorem ConnectionTune.Fits.yields {m : ConnectionTune} (h : m.Fits) :
    Yields ConnectionTune.decode m.encode m := by
  rw [ConnectionTune.encode, List.append_assoc]
  exact (yields_readU16 h.channelMax).bind ((yields_readU32 h.frameMax).bind
    ((yields_readU16 h.heartbeat).bind_pure rfl))

theorem CloseReason.Fits.yields {m : CloseReason} (h : m.Fits) :
    Yields CloseReason.decode m.encode m := by
  simp only [CloseReason.encode, List.append_assoc]
  exact (yields_readU16 h.replyCode).bind ((yields_readShortstr h.replyText).bind
    ((yields_readU16 h.classId).bind ((yields_readU16 h.methodId).bind_pure rfl)))

/-- A method with bit arguments. -/
theorem yields_packed {m : AmqpMethod} (h : m.Fits) (hbits : m.bits ≠ []) :
    ∃ bytes, m.encode = .ok bytes ∧ Yields (readMethod m.classId m.methodId) bytes m := by
  obtain ⟨after, hafter, hread⟩ := yields_withBits m h hbits
  refine ⟨_, encode_bits hbits hafter, ?_⟩
  have hpacked := hread (packedOctet m.bits)
  rwa [leadingBits_packedOctet, withBits_bits] at hpacked

/-- A method without. -/
theorem yields_plain {m : AmqpMethod} (h : m.Fits) (hbits : m.bits = []) :
    ∃ bytes, m.encode = .ok bytes ∧ Yields (readMethod m.classId m.methodId) bytes m := by
  cases m with
  | connection m =>
    cases m with
    | start m =>
      obtain ⟨table, htable, hread⟩ := h.1.yields
      refine ⟨_, by rw [AmqpMethod.encode, encode, htable]; rfl, ?_⟩
      have hmajor := yields_indexed (w := 1) UInt8.ofNat m.versionMajor.toNat_lt
      have hminor := yields_indexed (w := 1) UInt8.ofNat m.versionMinor.toNat_lt
      rw [UInt8.ofNat_toNat] at hmajor hminor
      have hargs : Yields ConnectionStart.decode _ m := hmajor.bind (hminor.bind (hread.bind
        ((yields_readLongstr h.2.1).bind ((yields_readLongstr h.2.2).bind_pure rfl))))
      simp only [List.append_assoc]
      exact (hargs.bind_pure (f := fun m => pure (start m)) rfl).bind_pure rfl
    | startOk m =>
      obtain ⟨table, htable, hread⟩ := h.1.yields
      refine ⟨_, by rw [AmqpMethod.encode, encode, htable]; rfl, ?_⟩
      have hargs : Yields ConnectionStartOk.decode _ m :=
        hread.bind ((yields_readShortstr h.2.1).bind ((yields_readLongstr h.2.2.1).bind
          ((yields_readShortstr h.2.2.2).bind_pure rfl)))
      simp only [List.append_assoc]
      exact (hargs.bind_pure (f := fun m => pure (startOk m)) rfl).bind_pure
        rfl
    | tune m =>
      have hargs : Yields (decodeConnection 30) _ _ :=
        (ConnectionTune.Fits.yields h).bind_pure rfl
      exact ⟨_, rfl, hargs.bind_pure rfl⟩
    | tuneOk m =>
      have hargs : Yields (decodeConnection 31) _ _ :=
        (ConnectionTune.Fits.yields h).bind_pure rfl
      exact ⟨_, rfl, hargs.bind_pure rfl⟩
    | close m =>
      have hargs : Yields (decodeConnection 50) _ _ :=
        (CloseReason.Fits.yields h).bind_pure rfl
      exact ⟨_, rfl, hargs.bind_pure rfl⟩
    | openOk => exact ⟨_, rfl, (yields_pure openOk).bind_pure rfl⟩
    | closeOk => exact ⟨_, rfl, (yields_pure closeOk).bind_pure rfl⟩
    | «open» virtualHost insist => cases hbits
  | channel m =>
    cases m with
    | «open» reserved =>
      have hargs : Yields (decodeChannel 10) _ _ := (yields_readShortstr h).bind_pure rfl
      exact ⟨_, rfl, hargs.bind_pure rfl⟩
    | close m =>
      have hargs : Yields (decodeChannel 40) _ _ := (CloseReason.Fits.yields h).bind_pure rfl
      exact ⟨_, rfl, hargs.bind_pure rfl⟩
    | openOk => exact ⟨_, rfl, (yields_pure ChannelMethod.openOk).bind_pure rfl⟩
    | closeOk => exact ⟨_, rfl, (yields_pure ChannelMethod.closeOk).bind_pure rfl⟩
  | exchange m =>
    cases m with
    | declareOk => exact ⟨_, rfl, (yields_pure ExchangeMethod.declareOk).bind_pure rfl⟩
    | declare m => cases hbits
  | queue m =>
    cases m with
    | declareOk queue messageCount consumerCount =>
      refine ⟨_, rfl, ?_⟩
      have hargs : Yields (decodeQueue 11) _ _ :=
        (yields_readShortstr h.1).bind ((yields_readU32 h.2.1).bind
          ((yields_readU32 h.2.2).bind_pure rfl))
      rw [List.append_assoc]
      exact hargs.bind_pure rfl
    | bindOk => exact ⟨_, rfl, (yields_pure QueueMethod.bindOk).bind_pure rfl⟩
    | declare m => cases hbits
    | bind m => cases hbits
  | basic m =>
    cases m with
    | consumeOk consumerTag =>
      have hargs : Yields (decodeBasic 21) _ _ := (yields_readShortstr h).bind_pure rfl
      exact ⟨_, rfl, hargs.bind_pure rfl⟩
    | qosOk => exact ⟨_, rfl, (yields_pure BasicMethod.qosOk).bind_pure rfl⟩
    | cancelOk => exact ⟨_, rfl, (yields_pure BasicMethod.cancelOk).bind_pure rfl⟩
    | _ => cases hbits
  | confirm m =>
    cases m with
    | selectOk => exact ⟨_, rfl, (yields_pure ConfirmMethod.selectOk).bind_pure rfl⟩
    | select nowait => cases hbits

/-- **A method is read back.** -/
theorem yields_method (m : AmqpMethod) (h : m.Fits) :
    ∃ bytes, m.encode = .ok bytes ∧ Yields (readMethod m.classId m.methodId) bytes m := by
  by_cases hbits : m.bits = []
  · exact yields_plain h hbits
  · exact yields_packed h hbits

/-- **Encoding succeeds and decoding inverts it**, for every method and for
every content header, whose bytes are all consumed. -/
theorem encode_decode : (∀ m : AmqpMethod, m.Fits → ∃ bytes, m.encode = .ok bytes ∧
      decodeMethod m.classId m.methodId bytes = .ok m) ∧
    ∀ h : ContentHeader, h.Fits → ∃ bytes, h.encode = .ok bytes ∧
      ContentHeader.decode bytes = .ok (h, []) := by
  constructor
  · intro m h
    obtain ⟨bytes, hbytes, hread⟩ := yields_method m h
    have hnil := hread []
    rw [List.append_nil] at hnil
    refine ⟨bytes, hbytes, ?_⟩
    rw [decodeMethod, hnil]
    rfl
  · intro h hh
    obtain ⟨bytes, hbytes, hread⟩ := hh.yields
    have hnil := hread []
    rw [List.append_nil] at hnil
    exact ⟨bytes, hbytes, hnil⟩

/-- A `basic.consume` with a nested table. -/
theorem encode_decode_consume : let inner : FieldTable := .cons [97] (.longLongInt (-1)) .nil
    let arguments : FieldTable :=
      .cons [120] (.fieldTable inner) (.cons [195, 169] (.float 0x7FC00001) .nil)
    let m : AmqpMethod := .basic (.consume ⟨[113], [99], false, true, false, false, arguments⟩)
    ∃ bytes, m.encode = .ok bytes ∧ decodeMethod 60 20 bytes = .ok m := by
  intro inner arguments m
  have hx : Utf8 [120] := .one (by decide) .nil
  have ha : Utf8 [97] := .one (by decide) .nil
  have he : Utf8 [195, 169] := .two (by decide) (by decide) (by decide) .nil
  have hinner : inner.Fits := ⟨ha, by decide, trivial, by simp [FieldTable.keys], trivial⟩
  have hbody : inner.Sized := ⟨hinner, fun body hb => by
    obtain rfl := Except.ok.inj ((show inner.encodeFields = .ok _ from rfl).symm.trans hb)
    decide⟩
  have harguments : arguments.Sized := by
    refine ⟨⟨hx, by decide, hbody, ?_, he, by decide, trivial, by simp [FieldTable.keys], trivial⟩,
      fun body hb => ?_⟩
    · simp [FieldTable.keys]
      decide
    · obtain rfl := Except.ok.inj ((show arguments.encodeFields = .ok _ from rfl).symm.trans hb)
      decide
  exact encode_decode.1 m ⟨by decide, by decide, harguments⟩

end Aurum.Amqp
