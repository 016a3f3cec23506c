import Aurum.Native.Codec
import Aurum.Native.Adapter

/-!
# Native protocol — what input makes the server hold

`NativeServerSession::on_bytes` keeps the bytes it has no frame for, also
those it will never have one for: a call of `decode` that fails consumes
nothing. `AckBatchBody::decode` and `NackBatchBody::decode` reserve room
for as many operations as the client announces, before they read one.
-/

namespace Aurum.Native.Wire

open Aurum.Bytes Aurum.Reader Aurum.Protocol List Decoder

/-! ## The read buffer -/

namespace NativeCodec

def default : NativeCodec := ⟨16 * 1024 * 1024⟩

/-- `NativeServerSession::on_bytes`: the `read_buf` it leaves. -/
def onBytes (codec : NativeCodec) (readBuf input : List UInt8) : List UInt8 :=
  (codec.decoder.drain (readBuf ++ input)).state

/-- The `read_buf` of a session after some calls. -/
def readBuf (codec : NativeCodec) (chunks : List (List UInt8)) : List UInt8 :=
  chunks.foldl codec.onBytes []

variable {codec : NativeCodec}

/-- **A drain takes whole frames** off the front. -/
theorem drain_split (codec : NativeCodec) (src : List UInt8) :
    ∃ bytes, codec.encodeAll (codec.decoder.drain src).frames = .ok bytes ∧
      (∀ frame ∈ (codec.decoder.drain src).frames, frame.header.Valid) ∧
      src = bytes ++ (codec.decoder.drain src).state := by
  induction src using drain_induction (d := codec.decoder) with
  | step src ih =>
    rcases h : codec.decode src with ⟨res, rest⟩
    have hkept := decode_unchanged h
    cases res with
    | error e =>
      obtain rfl := hkept fun _ hc => by cases hc
      rw [drain_error (d := codec.decoder) h]
      exact ⟨[], rfl, by simp, rfl⟩
    | ok res =>
      cases res with
      | none =>
        obtain rfl := hkept fun _ hc => by cases hc
        rw [drain_none (d := codec.decoder) h]
        exact ⟨[], rfl, by simp, rfl⟩
      | some frame =>
        obtain ⟨bytes, henc, hvalid, hrest⟩ := ih frame rest h
        obtain ⟨hheader, hlen, hmax, hsrc⟩ := decode_eq_some.mp h
        have hfirst : codec.encode frame = .ok (frame.header.encode ++ frame.body) := by
          refine encode_eq_ok.mpr ⟨hmax, ?_⟩
          rw [← hlen, UInt32.ofNat_toNat]
        rw [drain_some (d := codec.decoder) h]
        refine ⟨frame.header.encode ++ frame.body ++ bytes, ?_, ?_, ?_⟩
        · rw [encodeAll, hfirst]
          change (codec.encodeAll _).bind _ = _
          rw [henc]
          rfl
        · intro f hf
          rcases mem_cons.mp hf with rfl | hf
          · exact hheader
          · exact hvalid f hf
        · rw [hsrc, List.append_assoc, List.append_assoc]
          exact congrArg _ (congrArg _ hrest)

/-- Bytes that fail stay, and so does what follows them. -/
theorem readBuf_of_error {src : List UInt8} {fault : Fault NativeDecodeError}
    (h : codec.decode src = (.error fault, src)) (more : List UInt8) :
    codec.readBuf [src ++ more] = src ++ more :=
  congrArg Drained.state
    (drain_error (d := codec.decoder) (decode_error_append h more))

variable (hmax : codec.maxFrameLen ≤ 2 ^ 32)
include hmax

/-- More bytes meet what is left. -/
theorem state_drain_append (src more : List UInt8) : (codec.decoder.drain (src ++ more)).state =
      (codec.decoder.drain ((codec.decoder.drain src).state ++ more)).state := by
  obtain ⟨bytes, henc, hvalid, hsrc⟩ := codec.drain_split src
  have hall := drain_encodeAll hmax _ bytes ((codec.decoder.drain src).state ++ more) hvalid henc
  rw [← List.append_assoc, ← hsrc] at hall
  rw [hall]

theorem readBuf_eq (chunks : List (List UInt8)) :
    codec.readBuf chunks = (codec.decoder.drain chunks.flatten).state := by
  have hfold : ∀ (chunks : List (List UInt8)) (src : List UInt8),
      chunks.foldl codec.onBytes (codec.decoder.drain src).state =
        (codec.decoder.drain (src ++ chunks.flatten)).state := by
    intro chunks
    induction chunks with
    | nil => simp
    | cons chunk chunks ih =>
      intro src
      rw [foldl_cons, onBytes, ← state_drain_append hmax, ih, flatten_cons,
        List.append_assoc]
  exact hfold chunks []

/-- **What is retained** is short if and only if the bytes are whole
frames and a short rest. -/
theorem length_readBuf_lt (chunks : List (List UInt8)) (n : Nat) :
    (codec.readBuf chunks).length < n ↔
      ∃ frames bytes rest, (∀ frame ∈ frames, frame.header.Valid) ∧
        codec.encodeAll frames = .ok bytes ∧ chunks.flatten = bytes ++ rest ∧ rest.length < n := by
  rw [readBuf_eq hmax]
  constructor
  · intro hlt
    obtain ⟨bytes, henc, hvalid, hsrc⟩ := codec.drain_split chunks.flatten
    exact ⟨_, bytes, _, hvalid, henc, hsrc, hlt⟩
  · rintro ⟨frames, bytes, rest, hvalid, henc, hsrc, hlt⟩
    obtain ⟨taken, -, -, hrest⟩ := codec.drain_split rest
    have hlen := congrArg List.length hrest
    rw [length_append] at hlen
    rw [hsrc, drain_encodeAll hmax _ bytes rest hvalid henc]
    dsimp only
    omega

end NativeCodec

/-! ## Settlement batches -/

inductive CursorError where
  | unexpectedEof
  | stringTooLong (max : Nat)
  | invalidLength
  | offsetOutOfBounds
  | overflow
deriving DecidableEq, Repr

/-- The numbers `Cursor` reads, in `w` bytes. -/
def readLe (w : Nat) : Reader CursorError Nat := numLe (.error .unexpectedEof) w id

theorem readLe_eq_ok {w v : Nat} {bs rest : List UInt8} :
    readLe w bs = .ok (v, rest) ↔ v < 256 ^ w ∧ bs = toLe w v ++ rest := by
  rw [readLe, numLe, bind_eq_ok]
  constructor
  · rintro ⟨xs, mid, hx, h⟩
    obtain ⟨rfl, rfl⟩ := take_eq_ok.mp hx
    obtain ⟨rfl, rfl⟩ := Prod.mk.inj (Except.ok.inj h)
    exact ⟨ofLe_lt xs, by rw [id, toLe_ofLe]⟩
  · rintro ⟨hlt, rfl⟩
    refine ⟨toLe w v, rest, take_eq_ok.mpr ⟨rfl, length_toLe _ _⟩, ?_⟩
    rw [ofLe_toLe hlt]
    rfl

inductive NativeAckOpKind where
  | one | range | multipleUpTo
deriving DecidableEq, Repr

def NativeAckOpKind.tryFrom : Nat → Reader CursorError NativeAckOpKind
  | 1 => pure .one
  | 2 => pure .range
  | 3 => pure .multipleUpTo
  | _ => fail (.error .invalidLength)

/-- `NativeNackDisposition::try_from`. -/
def dispositionOf : Nat → Reader CursorError NackDisposition
  | 1 => pure .requeue
  | 2 => pure .drop
  | 3 => pure .deadLetter
  | _ => fail (.error .invalidLength)

/-- The end of an operation: a tag and a length. -/
def readTagLen : Reader CursorError (Nat × Nat) := do
  let _ ← readLe 2
  let tag ← readLe 8
  let lenOrZero ← readLe 4
  let _ ← readLe 4
  return (tag, lenOrZero)

def readAckOp : Reader CursorError NativeAckOp := do
  let kind ← NativeAckOpKind.tryFrom (← readLe 1)
  let _ ← readLe 1
  let (tag, len) ← readTagLen
  return match kind with
    | .one => .one tag
    | .range => .range tag len
    | .multipleUpTo => .multipleUpTo tag

def readNackOp : Reader CursorError NativeNackOp := do
  let kind ← NativeAckOpKind.tryFrom (← readLe 1)
  let disposition ← dispositionOf (← readLe 1)
  let (tag, len) ← readTagLen
  return match kind with
    | .one => .one tag disposition
    | .range => .range tag len disposition
    | .multipleUpTo => .multipleUpTo tag disposition

/-- `AckBatchBody` and `NackBatchBody`, which differ in their operations. -/
structure BatchBody (α : Type) where
  consumerId : Nat
  flags : Nat
  ops : List α
deriving DecidableEq, Repr

section

variable {α : Type}

/-- The head of a batch: consumer, `op_count` and flags. -/
def readHead : Reader CursorError (Nat × Nat × Nat) := do
  let consumerId ← readLe 8
  let opCount ← readLe 4
  let flags ← readLe 2
  return (consumerId, opCount, flags)

def readOps (readOp : Reader CursorError α) : Nat → Reader CursorError (List α)
  | 0 => pure []
  | n + 1 => do
      let op ← readOp
      return op :: (← readOps readOp n)

/-- `decode`, with the number of operations it reserves room for. -/
def decodeBatch (readOp : Reader CursorError α) (body : List UInt8) :
    Except (Fault CursorError) (BatchBody α) × Nat :=
  match readHead body with
  | .error fault => (.error fault, 0)
  | .ok ((consumerId, opCount, flags), rest) =>
    ((readOps readOp opCount rest).map fun res => ⟨consumerId, flags, res.1⟩, opCount)

/-- What `encode` writes for an operation. -/
def encodeOp (kind disposition tag len : Nat) : List UInt8 :=
  toLe 1 kind ++ (toLe 1 disposition ++ (toLe 2 0 ++ (toLe 8 tag ++ (toLe 4 len ++ toLe 4 0))))

variable (encode)

def encodeBatch (b : BatchBody α) : List UInt8 :=
  toLe 8 b.consumerId ++ (toLe 4 b.ops.length ++ (toLe 2 b.flags ++ b.ops.flatMap encode))

/-- `n` bytes can encode `k` operations. -/
def Encodable (n k : Nat) : Prop :=
  k = 0 ∨ ∃ b : BatchBody α, b.ops.length = k ∧ (encodeBatch encode b).length ≤ n

variable {encode}

/-- A batch begins with these fields. -/
def Announces (body : List UInt8) (consumerId opCount flags : Nat) (rest : List UInt8) : Prop :=
  consumerId < 256 ^ 8 ∧ opCount < 256 ^ 4 ∧ flags < 256 ^ 2 ∧
    body = toLe 8 consumerId ++ (toLe 4 opCount ++ (toLe 2 flags ++ rest))

/-- The operations a batch announces fit behind its head, 20 bytes each. -/
def CountFits (body : List UInt8) : Prop :=
  ∀ consumerId opCount flags rest, Announces body consumerId opCount flags rest →
    20 * opCount ≤ rest.length

theorem readHead_eq_ok {body rest : List UInt8} {consumerId opCount flags : Nat} :
    readHead body = .ok ((consumerId, opCount, flags), rest) ↔
      Announces body consumerId opCount flags rest := by
  simp only [readHead, bind_eq_ok, readLe_eq_ok, Announces]
  constructor
  · rintro ⟨_, _, ⟨h1, rfl⟩, _, _, ⟨h2, rfl⟩, _, _, ⟨h3, rfl⟩, h⟩
    obtain ⟨⟨rfl, rfl, rfl⟩, rfl⟩ : (_ ∧ _ ∧ _) ∧ _ := by
      simpa only [pure_apply, Except.ok.injEq, Prod.mk.injEq] using h
    exact ⟨h1, h2, h3, rfl⟩
  · rintro ⟨h1, h2, h3, rfl⟩
    exact ⟨_, _, ⟨h1, rfl⟩, _, _, ⟨h2, rfl⟩, _, _, ⟨h3, rfl⟩, rfl⟩

variable {encode : α → List UInt8}

theorem length_encodeBatch (hlen : ∀ op, (encode op).length = 20) (b : BatchBody α) :
    (encodeBatch encode b).length = 14 + 20 * b.ops.length := by
  simp only [encodeBatch, length_append, length_toLe, length_flatMap, hlen,
    map_const', sum_replicate_nat]
  omega

/-- **A batch is given the room it announces**, which it can fill if and
only if the announced operations fit into the body. -/
theorem encodable_reserved (readOp : Reader CursorError α)
    (hlen : ∀ op, (encode op).length = 20) (op : α) (body : List UInt8) :
    Encodable encode body.length (decodeBatch readOp body).2 ↔ CountFits body := by
  have henc : ∀ n k, Encodable encode n k ↔ k = 0 ∨ 14 + 20 * k ≤ n := by
    refine fun n k => or_congr_right ⟨?_, fun h => ⟨⟨0, 0, List.replicate k op⟩, by simp, ?_⟩⟩
    · rintro ⟨b, rfl, hle⟩
      rwa [length_encodeBatch hlen] at hle
    · rw [length_encodeBatch hlen]
      simpa using h
  rw [henc, decodeBatch]
  cases hread : readHead body with
  | error fault =>
    refine iff_of_true (.inl rfl) fun consumerId opCount flags rest hbody => ?_
    cases hread.symm.trans (readHead_eq_ok.mpr hbody)
  | ok res =>
    obtain ⟨⟨consumerId, opCount, flags⟩, rest⟩ := res
    have hbody := readHead_eq_ok.mp hread
    have hsize : body.length = 14 + rest.length := by
      rw [hbody.2.2.2]
      simp only [length_append, length_toLe]
      omega
    dsimp only
    rw [hsize]
    constructor
    · intro h consumerId' opCount' flags' rest' hbody'
      have hsame := hread.symm.trans (readHead_eq_ok.mpr hbody')
      simp only [Except.ok.injEq, Prod.mk.injEq] at hsame
      obtain ⟨⟨-, rfl, -⟩, rfl⟩ := hsame
      omega
    · intro h
      have := h consumerId opCount flags rest hbody
      omega

end

def NativeAckOp.encode : NativeAckOp → List UInt8
  | .one tag => encodeOp 1 0 tag 0
  | .range firstTag len => encodeOp 2 0 firstTag len
  | .multipleUpTo tag => encodeOp 3 0 tag 0

/-- `disposition as u8`. -/
def dispositionByte : NackDisposition → Nat
  | .requeue => 1
  | .drop => 2
  | .deadLetter => 3

def NativeNackOp.encode : NativeNackOp → List UInt8
  | .one tag disposition => encodeOp 1 (dispositionByte disposition) tag 0
  | .range firstTag len disposition => encodeOp 2 (dispositionByte disposition) firstTag len
  | .multipleUpTo tag disposition => encodeOp 3 (dispositionByte disposition) tag 0

/-- **What input makes the server hold.** The retained buffer is shorter
than the largest frame if and only if the bytes received are valid frames
and fewer bytes than that behind them. No more operations are reserved
than the body can encode if and only if those it announces fit into it. -/
theorem native_memory_iff (chunks : List (List UInt8)) (body : List UInt8) :
    ((NativeCodec.default.readBuf chunks).length < NativeCodec.default.maxFrameLen ↔
      ∃ frames bytes rest, (∀ frame ∈ frames, frame.header.Valid) ∧
        NativeCodec.default.encodeAll frames = .ok bytes ∧ chunks.flatten = bytes ++ rest ∧
        rest.length < NativeCodec.default.maxFrameLen) ∧
    (Encodable NativeAckOp.encode body.length (decodeBatch readAckOp body).2 ↔ CountFits body) ∧
    (Encodable NativeNackOp.encode body.length (decodeBatch readNackOp body).2 ↔
      CountFits body) := by
  refine ⟨NativeCodec.length_readBuf_lt (by decide) chunks _,
    encodable_reserved readAckOp (fun op => ?_) (.one 0) body,
    encodable_reserved readNackOp (fun op => ?_) (.one 0 .drop) body⟩
  · cases op <;> rfl
  · cases op <;> rfl

/-- 16 MiB that are no frame are all retained, and 14 bytes that announce
`u32::MAX` operations have room reserved for all of them. -/
theorem native_memory_exhausted : (NativeCodec.default.readBuf [List.replicate (2 ^ 24) 0]).length =
      NativeCodec.default.maxFrameLen ∧
    (decodeBatch readAckOp (toLe 8 0 ++ (toLe 4 (2 ^ 32 - 1) ++ toLe 2 0))).2 = 2 ^ 32 - 1 := by
  refine ⟨?_, by decide +kernel⟩
  have hbad : NativeCodec.default.decode (List.replicate 32 0) =
      (.error (.error (.header .badMagic)), List.replicate 32 0) := by decide +kernel
  have hsplit : List.replicate (2 ^ 24) (0 : UInt8) =
      List.replicate 32 0 ++ List.replicate (2 ^ 24 - 32) 0 := by
    rw [replicate_append_replicate]
    norm_num
  rw [hsplit, NativeCodec.readBuf_of_error hbad, ← hsplit, length_replicate]
  rfl

end Aurum.Native.Wire
