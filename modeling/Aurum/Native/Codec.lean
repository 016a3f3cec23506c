import Aurum.Lib.Reader
import Aurum.Lib.Framing

/-!
# Native protocol — the frame codec

`NativeFrameHeader` and `NativeCodec`: a header of 32 bytes, all numbers
little-endian, and a body of the length the header names. The header is
checked before the body is there, so a bad frame is refused from its first
32 bytes on, whatever follows.
-/

namespace Aurum.Native.Wire

open Aurum.Bytes Aurum.Reader List Except

/-! ## Headers -/

def nativeMagic : UInt16 := 0x5141

def nativeWireVersion : UInt8 := 1

def nativeHeaderLen : Nat := 32

inductive NativeOp where
  | hello | helloOk
  | resolveRoute | routeResolved
  | publishBatch | publishConfirmBatch
  | consumeStart | consumerOk | creditUpdate | deliveryBatch | cancelConsumer | consumerCancelled
  | ackBatch | nackBatch | settlementResultBatch
  | heartbeat | heartbeatAck
  | errorFrame
deriving DecidableEq, Repr

def NativeOp.tryFrom (value : UInt16) : Option NativeOp :=
  match value.toNat with
  | 1 => some .hello
  | 2 => some .helloOk
  | 10 => some .resolveRoute
  | 11 => some .routeResolved
  | 20 => some .publishBatch
  | 21 => some .publishConfirmBatch
  | 30 => some .consumeStart
  | 31 => some .consumerOk
  | 32 => some .creditUpdate
  | 33 => some .deliveryBatch
  | 34 => some .cancelConsumer
  | 35 => some .consumerCancelled
  | 40 => some .ackBatch
  | 41 => some .nackBatch
  | 42 => some .settlementResultBatch
  | 50 => some .heartbeat
  | 51 => some .heartbeatAck
  | 255 => some .errorFrame
  | _ => none

/-- `FrameFlags::from_bits`: six flags are known. -/
def FrameFlags.fromBits (bits : UInt16) : Option UInt16 :=
  if bits &&& 0xFFC0 = 0 then some bits else none

/-- `validate_frame_flags` passes: none of `COMPRESSED`, `HAS_EXT` and
`MORE` is set. -/
def validateFrameFlags (flags : UInt16) : Bool := flags &&& 0x38 = 0

inductive NativeHeaderError where
  | truncated
  | badMagic
  | unsupportedVersion
  | headerTooSmall
  | invalidFlags
  | unknownOp (value : UInt16)
deriving DecidableEq, Repr

structure NativeFrameHeader where
  magic : UInt16
  version : UInt8
  headerLen : UInt8
  op : UInt16
  flags : UInt16
  streamId : UInt32
  correlationId : UInt64
  bodyLen : UInt32
  reserved : UInt32
  reserved2 : UInt32
deriving DecidableEq, Repr

namespace NativeFrameHeader

open FrameFlags

def encode (h : NativeFrameHeader) : List UInt8 :=
  toLe 2 h.magic.toNat ++ (toLe 1 h.version.toNat ++ (toLe 1 h.headerLen.toNat ++
    (toLe 2 h.op.toNat ++ (toLe 2 h.flags.toNat ++ (toLe 4 h.streamId.toNat ++
      (toLe 8 h.correlationId.toNat ++ (toLe 4 h.bodyLen.toNat ++ (toLe 4 h.reserved.toNat ++
        toLe 4 h.reserved2.toNat))))))))

/-- The checks `decode` makes once all fields are read. -/
def checked (h : NativeFrameHeader) : Reader NativeHeaderError NativeFrameHeader :=
  match fromBits h.flags with
  | none => fail (.error .invalidFlags)
  | some flags => do
      ensure (validateFrameFlags flags) (.error .invalidFlags)
      ensure ((NativeOp.tryFrom h.op).isSome) (.error (.unknownOp h.op))
      return { h with flags := flags }

/-- `NativeFrameHeader::decode` behind its length check. -/
def read : Reader NativeHeaderError NativeFrameHeader := do
  let magic ← getU16Le
  ensure (magic = nativeMagic) (.error .badMagic)
  let version ← getU8
  ensure (version = nativeWireVersion) (.error .unsupportedVersion)
  let headerLen ← getU8
  ensure (nativeHeaderLen ≤ headerLen.toNat) (.error .headerTooSmall)
  let op ← getU16Le
  let flags ← getU16Le
  let streamId ← getU32Le
  let correlationId ← getU64Le
  let bodyLen ← getU32Le
  let reserved ← getU32Le
  let reserved2 ← getU32Le
  checked ⟨magic, version, headerLen, op, flags, streamId, correlationId, bodyLen, reserved,
    reserved2⟩

def decode (src : List UInt8) : Except (Fault NativeHeaderError) NativeFrameHeader :=
  if src.length < nativeHeaderLen then .error (.error .truncated)
  else (read (src.take nativeHeaderLen)).map Prod.fst

end NativeFrameHeader

/-! ## Frames -/

structure NativeFrame where
  header : NativeFrameHeader
  body : List UInt8
deriving DecidableEq, Repr

inductive NativeDecodeError where
  | truncated
  | header (e : NativeHeaderError)
  | bodyTooLarge
  | frameTooLarge
deriving DecidableEq, Repr

/-- `map_err(NativeDecodeError::Header)`. -/
def headerFault : Fault NativeHeaderError → Fault NativeDecodeError
  | .error e => .error (.header e)
  | .panic => .panic

inductive NativeEncodeError where
  | bodyTooLarge
deriving DecidableEq, Repr

structure NativeCodec where
  maxFrameLen : Nat

namespace NativeCodec

/-- `NativeCodec::decode`, with the buffer it leaves. -/
def decode (codec : NativeCodec) (src : List UInt8) :
    Except (Fault NativeDecodeError) (Option NativeFrame) × List UInt8 :=
  if src.length < nativeHeaderLen then (.ok none, src)
  else
    match NativeFrameHeader.decode src with
    | .error fault => (.error (headerFault fault), src)
    | .ok header =>
      let total := nativeHeaderLen + header.bodyLen.toNat
      if total > codec.maxFrameLen then (.error (.error .frameTooLarge), src)
      else if src.length < total then (.ok none, src)
      else
        let src := src.drop nativeHeaderLen
        (.ok (some ⟨header, src.take header.bodyLen.toNat⟩), src.drop header.bodyLen.toNat)

/-- `NativeCodec::encode`: the bytes it appends. -/
def encode (codec : NativeCodec) (frame : NativeFrame) : Except NativeEncodeError (List UInt8) :=
  let total := nativeHeaderLen + frame.body.length
  if total > codec.maxFrameLen then .error .bodyTooLarge
  else
    let header := { frame.header with bodyLen := UInt32.ofNat frame.body.length }
    .ok (header.encode ++ frame.body)

end NativeCodec

/-- The frame with `body_len` set to the length of its body. -/
def NativeFrame.sized (frame : NativeFrame) : NativeFrame :=
  { frame with header := { frame.header with bodyLen := UInt32.ofNat frame.body.length } }

/-- The frames encoded into one buffer. -/
def NativeCodec.encodeAll (codec : NativeCodec) :
    List NativeFrame → Except NativeEncodeError (List UInt8)
  | [] => .ok []
  | frame :: frames => do
      let bytes ← codec.encode frame
      return bytes ++ (← codec.encodeAll frames)

/-! ## Headers round trip -/

namespace NativeFrameHeader

open List FrameFlags

variable {bs rest src : List UInt8} {h : NativeFrameHeader}

/-- A header that passes the checks of `decode`. -/
structure Valid (h : NativeFrameHeader) : Prop where
  magic : h.magic = nativeMagic
  version : h.version = nativeWireVersion
  headerLen : nativeHeaderLen ≤ h.headerLen.toNat
  known : fromBits h.flags = some h.flags
  flags : validateFrameFlags h.flags
  op : (NativeOp.tryFrom h.op).isSome

theorem fromBits_eq_some {bits flags : UInt16} (h : fromBits bits = some flags) :
    flags = bits := by
  unfold fromBits at h
  split at h
  · exact (Option.some.inj h).symm
  · cases h

theorem checked_eq_ok {h' : NativeFrameHeader} :
    checked h bs = .ok (h', rest) ↔ (fromBits h.flags = some h.flags ∧
      validateFrameFlags h.flags ∧ (NativeOp.tryFrom h.op).isSome) ∧ h' = h ∧ rest = bs := by
  unfold checked
  cases hflags : fromBits h.flags with
  | none => simp [fail]
  | some flags =>
    obtain rfl := fromBits_eq_some hflags
    simp only [bind_eq_ok, ensure_eq_ok, pure_apply]
    constructor
    · rintro ⟨-, _, ⟨hvalid, rfl⟩, -, _, ⟨hop, rfl⟩, hrun⟩
      obtain ⟨rfl, rfl⟩ := Prod.mk.inj (ok.inj hrun)
      exact ⟨⟨trivial, hvalid, hop⟩, rfl, rfl⟩
    · rintro ⟨⟨-, hvalid, hop⟩, rfl, rfl⟩
      exact ⟨(), _, ⟨hvalid, rfl⟩, (), _, ⟨hop, rfl⟩, rfl⟩

theorem fits_checked (h : NativeFrameHeader) : Fits (checked h) 0 := by
  unfold checked
  split
  · exact fits_fail _ 0
  · exact (fits_ensure _).bind fun _ => (fits_ensure _).bind fun _ => fits_pure _

/-- **The header read is the header written**, and it passes the checks. -/
theorem read_eq_ok : read bs = .ok (h, rest) ↔ h.Valid ∧ bs = h.encode ++ rest := by
  simp only [read, bind_eq_ok, getU8_eq_ok, getU16Le_eq_ok, getU32Le_eq_ok, getU64Le_eq_ok,
    ensure_eq_ok, checked_eq_ok]
  constructor
  · rintro ⟨magic, _, rfl, -, _, ⟨hmagic, rfl⟩, version, _, rfl, -, _, ⟨hversion, rfl⟩, headerLen,
      _, rfl, -, _, ⟨hlen, rfl⟩, op, _, rfl, flags, _, rfl, streamId, _, rfl, correlationId, _,
      rfl, bodyLen, _, rfl, reserved, _, rfl, reserved2, _, rfl, ⟨hknown, hvalid, hop⟩, rfl, rfl⟩
    exact ⟨⟨hmagic, hversion, hlen, hknown, hvalid, hop⟩, by simp only [encode, append_assoc]⟩
  · rintro ⟨hvalid, rfl⟩
    refine ⟨h.magic, _, ?_, (), _, ⟨hvalid.magic, rfl⟩, h.version, _, rfl, (), _,
      ⟨hvalid.version, rfl⟩, h.headerLen, _, rfl, (), _, ⟨hvalid.headerLen, rfl⟩, h.op, _, rfl,
      h.flags, _, rfl, h.streamId, _, rfl, h.correlationId, _, rfl, h.bodyLen, _, rfl, h.reserved,
      _, rfl, h.reserved2, rest, rfl, ⟨hvalid.known, hvalid.flags, hvalid.op⟩, rfl, rfl⟩
    simp only [encode, append_assoc]

theorem fits_read : Fits read nativeHeaderLen :=
  (fits_numLe _ 2 _).bind fun _ => (fits_ensure _).bind fun _ =>
  (fits_numLe _ 1 _).bind fun _ => (fits_ensure _).bind fun _ =>
  (fits_numLe _ 1 _).bind fun _ => (fits_ensure _).bind fun _ =>
  (fits_numLe _ 2 _).bind fun _ => (fits_numLe _ 2 _).bind fun _ =>
  (fits_numLe _ 4 _).bind fun _ => (fits_numLe _ 8 _).bind fun _ =>
  (fits_numLe _ 4 _).bind fun _ => (fits_numLe _ 4 _).bind fun _ =>
  (fits_numLe _ 4 _).bind fun _ => fits_checked _

theorem length_encode (h : NativeFrameHeader) : h.encode.length = nativeHeaderLen := by
  simp [encode, nativeHeaderLen]

theorem encode_injective {a b : NativeFrameHeader} (h : a.encode = b.encode) : a = b := by
  obtain ⟨magic, h⟩ := append_inj h (by simp)
  obtain ⟨version, h⟩ := append_inj h (by simp)
  obtain ⟨headerLen, h⟩ := append_inj h (by simp)
  obtain ⟨op, h⟩ := append_inj h (by simp)
  obtain ⟨flags, h⟩ := append_inj h (by simp)
  obtain ⟨streamId, h⟩ := append_inj h (by simp)
  obtain ⟨correlationId, h⟩ := append_inj h (by simp)
  obtain ⟨bodyLen, h⟩ := append_inj h (by simp)
  obtain ⟨reserved, reserved2⟩ := append_inj h (by simp)
  cases a
  cases b
  congr 1
  · exact UInt16.toNat_inj.mp (toLe_injective (UInt16.toNat_lt _) (UInt16.toNat_lt _) magic)
  · exact UInt8.toNat_inj.mp (toLe_injective (UInt8.toNat_lt _) (UInt8.toNat_lt _) version)
  · exact UInt8.toNat_inj.mp (toLe_injective (UInt8.toNat_lt _) (UInt8.toNat_lt _) headerLen)
  · exact UInt16.toNat_inj.mp (toLe_injective (UInt16.toNat_lt _) (UInt16.toNat_lt _) op)
  · exact UInt16.toNat_inj.mp (toLe_injective (UInt16.toNat_lt _) (UInt16.toNat_lt _) flags)
  · exact UInt32.toNat_inj.mp (toLe_injective (UInt32.toNat_lt _) (UInt32.toNat_lt _) streamId)
  · exact UInt64.toNat_inj.mp
      (toLe_injective (UInt64.toNat_lt _) (UInt64.toNat_lt _) correlationId)
  · exact UInt32.toNat_inj.mp (toLe_injective (UInt32.toNat_lt _) (UInt32.toNat_lt _) bodyLen)
  · exact UInt32.toNat_inj.mp (toLe_injective (UInt32.toNat_lt _) (UInt32.toNat_lt _) reserved)
  · exact UInt32.toNat_inj.mp (toLe_injective (UInt32.toNat_lt _) (UInt32.toNat_lt _) reserved2)

theorem decode_eq_ok : decode src = .ok h ↔ h.Valid ∧ ∃ rest, src = h.encode ++ rest := by
  unfold decode
  split
  · next hlen =>
    constructor
    · intro hc
      cases hc
    · rintro ⟨-, rest, rfl⟩
      rw [length_append, length_encode] at hlen
      omega
  · next hlen =>
    have hmap : (read (src.take nativeHeaderLen)).map Prod.fst = .ok h ↔
        ∃ rest, read (src.take nativeHeaderLen) = .ok (h, rest) := by
      cases read (src.take nativeHeaderLen) with
      | error e => simp [Except.map]
      | ok res => simp [Except.map, Prod.ext_iff]
    rw [hmap]
    constructor
    · rintro ⟨rest, hread⟩
      obtain ⟨hvalid, htake⟩ := read_eq_ok.mp hread
      refine ⟨hvalid, rest ++ src.drop nativeHeaderLen, ?_⟩
      rw [← append_assoc, ← htake, take_append_drop]
    · rintro ⟨hvalid, rest, rfl⟩
      refine ⟨[], read_eq_ok.mpr ⟨hvalid, ?_⟩⟩
      rw [append_nil, ← length_encode h, take_left']
      rfl

/-- A header whose encoding is accepted is valid. -/
theorem valid_of_decode {h' : NativeFrameHeader} (hdec : decode h.encode = .ok h') : h.Valid := by
  obtain ⟨hvalid, rest, hrest⟩ := decode_eq_ok.mp hdec
  obtain rfl : rest = [] := by
    have hlen := congrArg length hrest
    rw [length_append, length_encode, length_encode] at hlen
    exact eq_nil_of_length_eq_zero (by omega)
  rw [append_nil] at hrest
  rwa [encode_injective hrest]

/-- The header is decoded from its own bytes alone. -/
theorem decode_append (hlen : nativeHeaderLen ≤ src.length) (more : List UInt8) :
    decode (src ++ more) = decode src := by
  unfold decode
  rw [if_neg (by simp; omega), if_neg (by omega), take_append_of_le_length hlen]

theorem decode_ne_panic (src : List UInt8) : decode src ≠ .error .panic := by
  unfold decode
  split
  · simp
  · next hlen =>
    have hsafe := fits_read.safe (src.take nativeHeaderLen) (by simp; omega)
    cases hread : read (src.take nativeHeaderLen) with
    | error e => rw [hread] at hsafe; simpa [Except.map] using hsafe
    | ok res => simp [Except.map]

end NativeFrameHeader

/-! ## The codec -/

namespace NativeCodec

open NativeFrameHeader List

variable {codec : NativeCodec} {src rest : List UInt8} {frame : NativeFrame}

theorem encode_eq_ok {bytes : List UInt8} :
    codec.encode frame = .ok bytes ↔ nativeHeaderLen + frame.body.length ≤ codec.maxFrameLen ∧
      bytes = { frame.header with bodyLen := UInt32.ofNat frame.body.length }.encode ++
        frame.body := by
  unfold encode
  dsimp only
  split
  · next h => simp; omega
  · next h => simp [Nat.le_of_not_gt h, eq_comm]

/-- **When a frame is decoded**: its header is valid and names the length
of the body, and both stand at the front of the buffer. -/
theorem decode_eq_some : codec.decode src = (.ok (some frame), rest) ↔
    frame.header.Valid ∧ frame.header.bodyLen.toNat = frame.body.length ∧
      nativeHeaderLen + frame.body.length ≤ codec.maxFrameLen ∧
      src = frame.header.encode ++ (frame.body ++ rest) := by
  unfold decode
  constructor
  · intro h
    split at h
    · simp at h
    · split at h
      · simp at h
      · next header hheader =>
        dsimp only at h
        split at h
        · simp at h
        · next hmax =>
          split at h
          · simp at h
          · next hlen =>
            obtain ⟨hvalid, tail, rfl⟩ := decode_eq_ok.mp hheader
            obtain ⟨hframe, rfl⟩ := Prod.mk.inj h
            obtain rfl := Option.some.inj (ok.inj hframe)
            rw [length_append, length_encode] at hlen
            have hdrop : (header.encode ++ tail).drop nativeHeaderLen = tail := by
              rw [← length_encode header, drop_left']
              rfl
            have hbody : (tail.take header.bodyLen.toNat).length = header.bodyLen.toNat := by
              rw [length_take]
              omega
            rw [hdrop]
            refine ⟨hvalid, hbody.symm, ?_, ?_⟩
            · rw [hbody]
              exact Nat.le_of_not_gt hmax
            · rw [take_append_drop]
  · rintro ⟨hvalid, hlen, hmax, rfl⟩
    have hheader := decode_eq_ok.mpr ⟨hvalid, frame.body ++ rest, rfl⟩
    have hdrop : (frame.header.encode ++ (frame.body ++ rest)).drop nativeHeaderLen =
        frame.body ++ rest := by
      rw [← length_encode frame.header, drop_left']
      rfl
    rw [if_neg (by simp [length_encode]), hheader]
    dsimp only
    rw [if_neg (by omega), if_neg (by simp [length_encode]; omega), hdrop, hlen]
    simp

/-- The buffer is left alone unless a frame is returned. -/
theorem decode_unchanged {res : Except (Fault NativeDecodeError) (Option NativeFrame)}
    (h : codec.decode src = (res, rest)) (hres : ∀ frame, res ≠ .ok (some frame)) : rest = src := by
  unfold decode at h
  split at h
  · exact (Prod.mk.inj h).2.symm
  · split at h
    · exact (Prod.mk.inj h).2.symm
    · dsimp only at h
      split at h
      · exact (Prod.mk.inj h).2.symm
      · split at h
        · exact (Prod.mk.inj h).2.symm
        · exact absurd (Prod.mk.inj h).1.symm (hres _)

theorem decode_some_append (h : codec.decode src = (.ok (some frame), rest)) (more : List UInt8) :
    codec.decode (src ++ more) = (.ok (some frame), rest ++ more) := by
  obtain ⟨hvalid, hlen, hmax, rfl⟩ := decode_eq_some.mp h
  refine decode_eq_some.mpr ⟨hvalid, hlen, hmax, ?_⟩
  rw [append_assoc, append_assoc]

/-- **An error stays.** -/
theorem decode_error_append {fault : Fault NativeDecodeError}
    (h : codec.decode src = (.error fault, rest)) (more : List UInt8) :
    codec.decode (src ++ more) = (.error fault, rest ++ more) := by
  unfold decode at h ⊢
  split at h
  · simp at h
  · next hlen =>
    rw [if_neg (by simp; omega), decode_append (Nat.le_of_not_lt hlen)]
    split at h
    · obtain ⟨hfault, rfl⟩ := Prod.mk.inj h
      rw [hfault]
    · dsimp only at h ⊢
      split at h
      · next hmax =>
        obtain ⟨hfault, rfl⟩ := Prod.mk.inj h
        rw [if_pos hmax, hfault]
      · split at h <;> simp at h

variable (codec)

theorem decode_ne_panic (src : List UInt8) : (codec.decode src).1 ≠ .error .panic := by
  have hheader := NativeFrameHeader.decode_ne_panic src
  unfold decode
  split
  · simp
  · split
    · next fault hfault =>
      cases fault with
      | error e => simp [headerFault]
      | panic => exact absurd hfault hheader
    · dsimp only
      split
      · simp
      · split <;> simp

def decoder : Decoder (List UInt8) (Fault NativeDecodeError) NativeFrame where
  size := length
  decode := codec.decode
  shrinks {src rest frame} h := by
    obtain ⟨-, -, -, rfl⟩ := decode_eq_some.mp h
    simp [length_encode, nativeHeaderLen]
    omega

theorem incremental : codec.decoder.Incremental (· ++ ·) where
  some more h := decode_some_append h more
  error more h := decode_error_append h more
  wait h := decode_unchanged h fun _ => by simp
  nil s := append_nil s
  append s a b := append_assoc s a b

variable {codec}

theorem encodeAll_cons {frames : List NativeFrame} {bytes : List UInt8}
    (h : codec.encodeAll (frame :: frames) = .ok bytes) :
    ∃ first tail, codec.encode frame = .ok first ∧ codec.encodeAll frames = .ok tail ∧
      bytes = first ++ tail := by
  rw [encodeAll] at h
  cases hfirst : codec.encode frame with
  | error e => simp [hfirst, bind, Except.bind] at h
  | ok first =>
    cases htail : codec.encodeAll frames with
    | error e => simp [hfirst, htail, bind, Except.bind] at h
    | ok tail =>
      rw [hfirst, htail] at h
      exact ⟨first, tail, rfl, rfl, (Except.ok.inj h).symm⟩

theorem encode_of_encodeAll : ∀ {frames : List NativeFrame} {bytes : List UInt8},
    codec.encodeAll frames = .ok bytes → ∀ frame ∈ frames, ∃ first, codec.encode frame = .ok first
  | [], _, _, _, hf => by cases hf
  | _ :: _, _, henc, frame, hf => by
    obtain ⟨first, tail, hfirst, htail, -⟩ := encodeAll_cons henc
    rcases mem_cons.mp hf with rfl | hf
    · exact ⟨first, hfirst⟩
    · exact encode_of_encodeAll htail frame hf

theorem toNat_bodyLen_sized (hmax : codec.maxFrameLen ≤ 2 ^ 32)
    (h : nativeHeaderLen + frame.body.length ≤ codec.maxFrameLen) :
    frame.sized.header.bodyLen.toNat = frame.body.length := by
  rw [nativeHeaderLen] at h
  exact UInt32.toNat_ofNat_of_lt' (by simp only [UInt32.size]; omega)

/-- An encoded frame comes back with its length filled in. -/
theorem decode_encode (hmax : codec.maxFrameLen ≤ 2 ^ 32) (hvalid : frame.header.Valid)
    {bytes : List UInt8} (henc : codec.encode frame = .ok bytes) :
    codec.decode (bytes ++ rest) = (.ok (some frame.sized), rest) := by
  obtain ⟨hlen, rfl⟩ := encode_eq_ok.mp henc
  exact decode_eq_some.mpr ⟨⟨hvalid.magic, hvalid.version, hvalid.headerLen, hvalid.known,
    hvalid.flags, hvalid.op⟩, toNat_bodyLen_sized hmax hlen, hlen, append_assoc _ _ _⟩

/-- Draining the encoding of a list of frames and what follows it. -/
theorem drain_encodeAll (hmax : codec.maxFrameLen ≤ 2 ^ 32) : ∀ (frames : List NativeFrame)
    (bytes rest : List UInt8), (∀ frame ∈ frames, frame.header.Valid) →
    codec.encodeAll frames = .ok bytes →
    codec.decoder.drain (bytes ++ rest) = { codec.decoder.drain rest with
      frames := frames.map NativeFrame.sized ++ (codec.decoder.drain rest).frames }
  | [], bytes, rest, _, henc => by
    obtain rfl := ok.inj henc
    rfl
  | frame :: frames, bytes, rest, hvalid, henc => by
    obtain ⟨first, tail, hfirst, htail, rfl⟩ := encodeAll_cons henc
    have hdec : codec.decode (first ++ (tail ++ rest)) = _ :=
      decode_encode hmax (hvalid frame (by simp)) hfirst
    have hrest := drain_encodeAll hmax frames tail rest (fun f hf => hvalid f (by simp [hf])) htail
    rw [append_assoc, Decoder.drain_some (d := codec.decoder) hdec, hrest]
    rfl

/-- **The frame codec.** Frames that are encoded one after the other, cut
anywhere and decoded chunk by chunk come back in order, each with
`body_len` set to the length of its body, and nothing is left in the
buffer. On any buffer: a decoded frame is encoded to the bytes it took;
`None` and errors leave the buffer alone; errors stay, whatever is
appended; and decoding never panics. -/
theorem native_codec_correct (codec : NativeCodec) (hmax : codec.maxFrameLen ≤ 2 ^ 32) :
    (∀ (frames : List NativeFrame) (bytes : List UInt8) (chunks : List (List UInt8)),
      (∀ frame ∈ frames, ∃ h, NativeFrameHeader.decode frame.header.encode = .ok h) →
      codec.encodeAll frames = .ok bytes → chunks.flatten = bytes →
      codec.decoder.drainAll (· ++ ·) [] chunks = ⟨frames.map NativeFrame.sized, none, []⟩ ∧
        ∀ frame ∈ frames, frame.sized.header.bodyLen.toNat = frame.body.length) ∧
    ∀ src : List UInt8,
      (∀ frame rest, codec.decode src = (.ok (some frame), rest) →
        ∃ bytes, codec.encode frame = .ok bytes ∧ src = bytes ++ rest) ∧
      ((codec.decode src).1 = .ok none → (codec.decode src).2 = src) ∧
      ∀ fault, (codec.decode src).1 = .error fault → fault ≠ .panic ∧
        (codec.decode src).2 = src ∧
        ∀ more, (codec.decode (src ++ more)).1 = .error fault := by
  refine ⟨fun frames bytes chunks hheaders henc hcut => ?_, fun src => ⟨fun frame rest h => ?_,
    fun h => ?_, fun fault h => ⟨?_, ?_, fun more => ?_⟩⟩⟩
  · have hvalid : ∀ frame ∈ frames, frame.header.Valid := fun frame hf =>
      (hheaders frame hf).elim fun _ => NativeFrameHeader.valid_of_decode
    have hall := drain_encodeAll hmax frames bytes [] hvalid henc
    rw [List.append_nil, Decoder.drain_none (d := codec.decoder) (s := []) rfl,
      List.append_nil] at hall
    obtain ⟨hframes, herror, hstate⟩ := codec.incremental.drainAll_eq chunks [] rfl
    rw [hcut, nil_append, hall] at hframes herror hstate
    refine ⟨?_, ?_⟩
    · cases hd : codec.decoder.drainAll (· ++ ·) [] chunks with
      | mk fs e s =>
        rw [hd] at hframes herror hstate
        obtain rfl : fs = _ := hframes
        obtain rfl : e = none := herror
        obtain rfl : s = [] := hstate rfl
        rfl
    · intro frame hf
      obtain ⟨first, hfirst⟩ := encode_of_encodeAll henc frame hf
      exact toNat_bodyLen_sized hmax (encode_eq_ok.mp hfirst).1
  · obtain ⟨-, hlen, hmax, rfl⟩ := decode_eq_some.mp h
    refine ⟨frame.header.encode ++ frame.body, encode_eq_ok.mpr ⟨hmax, ?_⟩,
      (List.append_assoc _ _ _).symm⟩
    rw [← hlen, UInt32.ofNat_toNat]
  · exact decode_unchanged (Prod.ext h rfl) (by simp)
  · rintro rfl
    exact decode_ne_panic codec src h
  · exact decode_unchanged (Prod.ext h rfl) (by simp)
  · rw [decode_error_append (Prod.ext h rfl) more]

/-- A heartbeat and a hello of two bytes, cut inside the first header and
inside the body. -/
theorem native_codec_two_frames : let codec : NativeCodec := ⟨64⟩
    let frame (op : UInt16) (body : List UInt8) : NativeFrame :=
      ⟨⟨nativeMagic, nativeWireVersion, 32, op, 0, 0, 7, 0, 0, 0⟩, body⟩
    let bytes := (frame 50 []).header.encode ++
      ((frame 1 [1, 2]).sized.header.encode ++ [1, 2])
    codec.decoder.drainAll (· ++ ·) [] [bytes.take 5, (bytes.drop 5).take 60, bytes.drop 65] =
      ⟨[frame 50 [], (frame 1 [1, 2]).sized], none, []⟩ := by
  intro codec frame bytes
  refine ((native_codec_correct codec (by decide)).1 [frame 50 [], frame 1 [1, 2]] bytes _ ?_
    (by decide +kernel) (by decide +kernel)).1
  intro f hf
  rcases mem_pair.mp hf with rfl | rfl
  · exact ⟨(frame 50 []).header, by decide +kernel⟩
  · exact ⟨(frame 1 []).header, by decide +kernel⟩

end NativeCodec

end Aurum.Native.Wire
