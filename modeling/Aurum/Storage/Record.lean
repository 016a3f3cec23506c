import Aurum.Lib.Reader

/-!
# Storage — records

`encode_record` and `decode_record`: a header of 40 bytes, all numbers
little-endian, and a body of the length the header names. The checksum is
a parameter, any function of the bytes. `encode_record` narrows the length
of the body to 32 bits; it has an error for a body that is too large and
never returns it.
-/

namespace Aurum.Storage

open Aurum.Bytes Aurum.Reader List

/-! ## Records and their bytes -/

/-- `AURUM_RECORD_MAGIC`. -/
def recordMagic : UInt32 := 0x4155524D

/-- `RECORD_VERSION_V0`. -/
def recordVersionV0 : UInt16 := 0

/-- `RECORD_HEADER_LEN`. -/
def recordHeaderLen : Nat := 40

/-- `RecordKind`. -/
inductive RecordKind where
  | payloadBatch | queueIndexBatch | ackLedgerBatch | checkpoint | manifest
deriving DecidableEq, Repr

/-- `RecordKind::as_u16`. -/
def RecordKind.asU16 : RecordKind → UInt16
  | .payloadBatch => 1
  | .queueIndexBatch => 2
  | .ackLedgerBatch => 3
  | .checkpoint => 4
  | .manifest => 5

/-- `RecordKind::try_from`. -/
def RecordKind.tryFrom (value : UInt16) : Option RecordKind :=
  match value.toNat with
  | 1 => some .payloadBatch
  | 2 => some .queueIndexBatch
  | 3 => some .ackLedgerBatch
  | 4 => some .checkpoint
  | 5 => some .manifest
  | _ => none

/-- `RecordHeader`; its `reserved` is always 0 and not written. -/
structure RecordHeader where
  magic : UInt32
  version : UInt16
  kind : UInt16
  flags : UInt16
  headerLen : UInt16
  bodyLen : UInt32
  recordCrc32c : UInt32
  streamId : UInt64
  baseSeq : UInt64
  count : UInt32
deriving DecidableEq, Repr

/-- `RecordDecodeError`. -/
inductive RecordDecodeError where
  | truncated
  | badMagic
  | unsupportedVersion
  | headerTooSmall
  | invalidFlags
  | unknownKind (value : UInt16)
  | bodyTooShort
  | crcMismatch
deriving DecidableEq, Repr

inductive RecordEncodeError where
  | bodyTooLarge
deriving DecidableEq, Repr

namespace RecordHeader

/-- `write_header`. -/
def write (h : RecordHeader) : List UInt8 :=
  toLe 4 h.magic.toNat ++ (toLe 2 h.version.toNat ++ (toLe 2 h.kind.toNat ++
    (toLe 2 h.flags.toNat ++ (toLe 2 h.headerLen.toNat ++ (toLe 4 h.bodyLen.toNat ++
      (toLe 4 h.recordCrc32c.toNat ++ (toLe 8 h.streamId.toNat ++ (toLe 8 h.baseSeq.toNat ++
        toLe 4 h.count.toNat))))))))

/-- `read_header`. -/
def read : Reader RecordDecodeError RecordHeader := do
  let magic ← getU32Le
  ensure (magic = recordMagic) (.error .badMagic)
  let version ← getU16Le
  ensure (version = recordVersionV0) (.error .unsupportedVersion)
  let kind ← getU16Le
  let flags ← getU16Le
  let headerLen ← getU16Le
  ensure (recordHeaderLen ≤ headerLen.toNat) (.error .headerTooSmall)
  let bodyLen ← getU32Le
  let recordCrc32c ← getU32Le
  let streamId ← getU64Le
  let baseSeq ← getU64Le
  let count ← getU32Le
  ensure ((RecordKind.tryFrom kind).isSome) (.error (.unknownKind kind))
  -- `RecordFlags::from_bits` knows three bits
  ensure (flags.toNat < 8) (.error .invalidFlags)
  return ⟨magic, version, kind, flags, headerLen, bodyLen, recordCrc32c, streamId, baseSeq, count⟩

/-- What `read_header` checks. -/
structure Valid (h : RecordHeader) : Prop where
  magic : h.magic = recordMagic
  version : h.version = recordVersionV0
  headerLen : recordHeaderLen ≤ h.headerLen.toNat
  kind : (RecordKind.tryFrom h.kind).isSome
  flags : h.flags.toNat < 8

@[simp] theorem length_write (h : RecordHeader) : h.write.length = recordHeaderLen := by
  simp [write, recordHeaderLen]

/-- **The header read is the header written**, and it passes the checks. -/
theorem read_eq_ok {h : RecordHeader} {bs rest : List UInt8} :
    read bs = .ok (h, rest) ↔ h.Valid ∧ bs = h.write ++ rest := by
  simp only [read, bind_eq_ok, getU16Le_eq_ok, getU32Le_eq_ok, getU64Le_eq_ok, ensure_eq_ok,
    pure_apply, Except.ok.injEq, Prod.mk.injEq]
  constructor
  · rintro ⟨magic, _, rfl, -, _, ⟨hmagic, rfl⟩, version, _, rfl, -, _,
      ⟨hversion, rfl⟩, kind, _, rfl,
      flags, _, rfl, headerLen, _, rfl, -, _, ⟨hlen, rfl⟩, bodyLen, _, rfl, crc, _, rfl, streamId,
      _, rfl, baseSeq, _, rfl, count, _, rfl, -, _, ⟨hkind, rfl⟩, -, _, ⟨hflags, rfl⟩, rfl, rfl⟩
    exact ⟨⟨hmagic, hversion, hlen, hkind, hflags⟩, by simp only [write, List.append_assoc]⟩
  · rintro ⟨hvalid, rfl⟩
    refine ⟨h.magic, _, ?_, (), _, ⟨hvalid.magic, rfl⟩, h.version, _, rfl, (), _,
      ⟨hvalid.version, rfl⟩, h.kind, _, rfl, h.flags, _, rfl, h.headerLen, _, rfl, (), _,
      ⟨hvalid.headerLen, rfl⟩, h.bodyLen, _, rfl, h.recordCrc32c, _, rfl, h.streamId, _, rfl,
      h.baseSeq, _, rfl, h.count, rest, rfl, (), _, ⟨hvalid.kind, rfl⟩, (), _, ⟨hvalid.flags, rfl⟩,
      rfl, rfl⟩
    simp only [write, List.append_assoc]

end RecordHeader

/-- A decoded record: `(RecordHeader, RecordBody)`. -/
structure Record where
  header : RecordHeader
  body : List UInt8
deriving DecidableEq, Repr

/-- The bytes of a record. -/
def Record.bytes (r : Record) : List UInt8 := r.header.write ++ r.body

section

variable (crc : List UInt8 → UInt32)

/-- `crc32c_record`: over the header with a zero checksum, and the body. -/
def crc32cRecord (h : RecordHeader) (body : List UInt8) : UInt32 :=
  crc ({ h with recordCrc32c := 0 }.write ++ body)

/-- `decode_record`. -/
def decodeRecord (buf : List UInt8) : Except (Fault RecordDecodeError) Record :=
  if buf.length < recordHeaderLen then .error (.error .truncated)
  else
    match RecordHeader.read (buf.take recordHeaderLen) with
    | .error fault => .error fault
    | .ok (header, _) =>
      if buf.length < recordHeaderLen + header.bodyLen.toNat then .error (.error .bodyTooShort)
      else
        let body := (buf.drop recordHeaderLen).take header.bodyLen.toNat
        if header.recordCrc32c ≠ crc32cRecord crc header body then .error (.error .crcMismatch)
        else .ok ⟨header, body⟩

/-- The arguments of `encode_record`. -/
structure Entry where
  kind : RecordKind
  streamId : UInt64
  baseSeq : UInt64
  count : UInt32
  body : List UInt8

/-- `RecordHeader::new` with the flags `HAS_CRC32C | BATCHED`. -/
def Entry.header (e : Entry) : RecordHeader :=
  ⟨recordMagic, recordVersionV0, e.kind.asU16, 6, UInt16.ofNat recordHeaderLen,
    UInt32.ofNat e.body.length, 0, e.streamId, e.baseSeq, e.count⟩

/-- The record an entry is written as. -/
def Entry.record (e : Entry) : Record :=
  ⟨{ e.header with recordCrc32c := crc32cRecord crc e.header e.body }, e.body⟩

/-- `encode_record`; no branch of it fails. -/
def encodeRecord (e : Entry) : Except RecordEncodeError (List UInt8) := .ok (e.record crc).bytes

/-- A well-formed header, a body of its length and a matching checksum. -/
structure Record.Sound (r : Record) : Prop where
  valid : r.header.Valid
  len : r.header.bodyLen.toNat = r.body.length
  crc : r.header.recordCrc32c = crc32cRecord crc r.header r.body

end

/-! ## Records read back -/

section

variable {crc : List UInt8 → UInt32} {r : Record} {buf : List UInt8}

/-- **What is decoded** where a well-formed header stands in front. -/
theorem decode_write {h : RecordHeader} (hvalid : h.Valid) (tail : List UInt8) :
    decodeRecord crc (h.write ++ tail) =
      if tail.length < h.bodyLen.toNat then .error (.error .bodyTooShort)
      else if h.recordCrc32c ≠ crc32cRecord crc h (tail.take h.bodyLen.toNat) then
        .error (.error .crcMismatch)
      else .ok ⟨h, tail.take h.bodyLen.toNat⟩ := by
  have hread : RecordHeader.read h.write = .ok (h, []) :=
    RecordHeader.read_eq_ok.mpr ⟨hvalid, (List.append_nil _).symm⟩
  rw [decodeRecord, if_neg (by simp), take_left' h.length_write, hread]
  simp only [length_append, RecordHeader.length_write, Nat.add_lt_add_iff_left,
    drop_left' h.length_write]

theorem decode_bytes (hr : r.Sound crc) (rest : List UInt8) :
    decodeRecord crc (r.bytes ++ rest) = .ok r := by
  have hbody : (r.body ++ rest).take r.header.bodyLen.toNat = r.body := by
    rw [hr.len, take_left]
  rw [Record.bytes, List.append_assoc, decode_write hr.valid, hbody, ← hr.crc,
    if_neg (by simp [hr.len]), if_neg (by simp)]

variable (crc)

theorem Entry.valid_record (e : Entry) : (e.record crc).header.Valid where
  magic := rfl
  version := rfl
  headerLen := show recordHeaderLen ≤ (UInt16.ofNat recordHeaderLen).toNat by decide
  kind := by cases e with | mk kind => cases kind <;> rfl
  flags := show (6 : UInt16).toNat < 8 by decide

theorem Entry.bodyLen_record (e : Entry) :
    (e.record crc).header.bodyLen.toNat = e.body.length % 2 ^ 32 := UInt32.toNat_ofNat'

theorem Entry.sound_record {e : Entry} (he : e.body.length < 2 ^ 32) :
    (e.record crc).Sound crc where
  valid := e.valid_record crc
  len := (e.bodyLen_record crc).trans (Nat.mod_eq_of_lt he)
  crc := rfl

variable {crc}

/-- The body read back is as long as the 32 bits of the length say. -/
theorem Entry.length_read {e : Entry} (h : decodeRecord crc (e.record crc).bytes = .ok r) :
    r.body.length = e.body.length % 2 ^ 32 := by
  rw [Record.bytes, decode_write (e.valid_record crc)] at h
  split at h
  · cases h
  · split at h
    · cases h
    · cases h
      rw [length_take, e.bodyLen_record]
      exact Nat.min_eq_left (Nat.mod_le _ _)

theorem Entry.read_empty {e : Entry} (he : e.body.length = 2 ^ 32)
    (h : decodeRecord crc (e.record crc).bytes = .ok r) : r.body = [] := by
  have hlen := e.length_read h
  rw [he] at hlen
  exact length_eq_zero_iff.mp hlen

/-- **A record is refused or read back** if and only if its length fits
into 32 bits. -/
theorem record_read_back_iff (crc : List UInt8 → UInt32) (e : Entry) :
    (encodeRecord crc e = .error .bodyTooLarge ∨
      ∃ bytes r, encodeRecord crc e = .ok bytes ∧ decodeRecord crc bytes = .ok r ∧
        r.header.kind = e.kind.asU16 ∧ r.header.streamId = e.streamId ∧
        r.header.baseSeq = e.baseSeq ∧ r.header.count = e.count ∧ r.body = e.body) ↔
      e.body.length < 2 ^ 32 := by
  constructor
  · rintro (h | ⟨_, r, ⟨⟩, hdec, -, -, -, -, hbody⟩)
    · cases h
    · have hlen := e.length_read hdec
      rw [hbody] at hlen
      omega
  · intro hlt
    have hdec := decode_bytes (e.sound_record crc hlt) []
    rw [List.append_nil] at hdec
    exact .inr ⟨_, _, rfl, hdec, rfl, rfl, rfl, rfl, rfl⟩

/-- A body of `2 ^ 32` bytes is written under the length 0: whatever the
checksum, an empty body or nothing is read back. -/
theorem oversized_not_read_back :
    let e : Entry := ⟨.payloadBatch, 0, 0, 1, List.replicate (2 ^ 32) 0⟩
    e.body.length = 2 ^ 32 ∧ ∀ crc : List UInt8 → UInt32,
      encodeRecord crc e = .ok (e.record crc).bytes ∧
        ∀ r, decodeRecord crc (e.record crc).bytes = .ok r → r.body = [] := by
  refine ⟨length_replicate, fun crc => ⟨rfl, fun r hdec => ?_⟩⟩
  exact Entry.read_empty length_replicate hdec

end

end Aurum.Storage
