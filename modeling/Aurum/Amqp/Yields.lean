import Aurum.Amqp.MethodCodec
import Mathlib.Tactic.IntervalCases

/-!
# AMQP — reading what was written

One `Yields` lemma per writer of the wire: on the bytes of a value that
fits its length prefixes the reader returns the value and stops behind
it. Field tables are the recursive part: the reader rebuilds the sorted
map entry by entry, and each entry goes to its end.
-/

namespace Aurum.Amqp

open Aurum.Bytes Aurum.Reader Aurum.Routing List BasicProperties ShortStr

/-! ## Numbers, strings and bits -/

variable {n : Nat} {α : Type} {s content : List UInt8} {value : FieldValue} {t : FieldTable}
  {table : WireReader FieldTable}

theorem yields_readU16 (h : n < 2 ^ 16) : Yields readU16 (writeU16 n) n :=
  yields_numBe _ id h

theorem yields_readU32 (h : n < 2 ^ 32) : Yields readU32 (writeU32 n) n :=
  yields_numBe _ id h

theorem yields_readU64 (h : n < 2 ^ 64) : Yields readU64 (writeU64 n) n :=
  yields_numBe _ id h

theorem yields_indexed {w : Nat} (ofNat : Nat → α) (h : n < 256 ^ w) :
    Yields (indexed w ofNat) (toBe w n) (ofNat n) :=
  yields_numBe _ ofNat h

/-- The value of a number. -/
theorem yields_value {w : Nat} {ofNat : Nat → α} {v : α} (h : n < 256 ^ w) (hv : ofNat n = v) :
    Yields (indexed w ofNat) (toBe w n) v :=
  hv ▸ yields_indexed ofNat h

theorem yields_readShortstr {s : ShortStr} (h : s.length ≤ maxLen) :
    Yields readShortstr (writeShortstr s) s := by
  have hlt : s.length < 256 ^ 1 := by rw [maxLen] at h; omega
  exact (yields_numBe _ id hlt).bind (yields_take _ s)

theorem yields_readLongstr (h : s.length < 2 ^ 32) : Yields readLongstr (writeLongstr s) s := by
  have hlt : s.length < 256 ^ 4 := h
  exact (yields_numBe _ id hlt).bind (yields_take _ s)

/-- **The bits of a byte**, the most significant one first. -/
theorem readPackedBits_cons (byte : UInt8) (rest : List UInt8) (hn : 0 < n) (hn' : n < 8) :
    readPackedBits n (byte :: rest) =
      .ok ((List.range n).map fun i => byte.toNat.testBit (7 - i), rest) := by
  interval_cases n <;> rfl

/-! ## Text -/

/-- Well-formed UTF-8, character by character: the bytes of a `String`. -/
inductive Utf8 : List UInt8 → Prop
  | nil : Utf8 []
  | one {b : UInt8} {rest : List UInt8} : b < 0x80 → Utf8 rest → Utf8 (b :: rest)
  | two {b c : UInt8} {rest : List UInt8} : 0xC2 ≤ b → b ≤ 0xDF → isContinuation c → Utf8 rest →
      Utf8 (b :: c :: rest)
  | three {b c d : UInt8} {rest : List UInt8} : 0xE0 ≤ b → b ≤ 0xEF → isSecond b c →
      isContinuation d → Utf8 rest → Utf8 (b :: c :: d :: rest)
  | four {b c d e : UInt8} {rest : List UInt8} : 0xF0 ≤ b → b ≤ 0xF4 → isSecond b c →
      isContinuation d → isContinuation e → Utf8 rest → Utf8 (b :: c :: d :: e :: rest)

/-- A `String` is kept by `from_utf8_lossy`. -/
theorem Utf8.toStringLossy (h : Utf8 s) : toStringLossy s = s := by
  induction h with
  | nil => rfl
  | one hb _ ih =>
    rw [Amqp.toStringLossy.eq_def]
    simp only [hb, ↓reduceIte, ih]
  | @two b c rest hlo hhi hc _ ih =>
    have h1 : ¬ b < 0x80 := by grind
    rw [Amqp.toStringLossy.eq_def]
    simp only [h1, hlo, hhi, hc, ↓reduceIte, decide_true, Bool.and_self, ih]
  | @three b c d rest hlo hhi hc hd _ ih =>
    have h1 : ¬ b < 0x80 := by grind
    have h2 : ¬ b ≤ 0xDF := by grind
    rw [Amqp.toStringLossy.eq_def]
    simp only [h1, h2, hlo, hhi, hc, hd, ↓reduceIte, decide_true, decide_false, Bool.and_self,
      Bool.and_false, Bool.false_eq_true, ih]
  | @four b c d e rest hlo hhi hc hd he _ ih =>
    have h1 : ¬ b < 0x80 := by grind
    have h2 : ¬ b ≤ 0xDF := by grind
    have h3 : ¬ b ≤ 0xEF := by grind
    rw [Amqp.toStringLossy.eq_def]
    simp only [h1, h2, h3, hlo, hhi, hc, hd, he, ↓reduceIte, decide_true, decide_false,
      Bool.and_self, Bool.and_false, Bool.false_eq_true, ih]

/-! ## Field tables -/

namespace FieldTable

/-- The keys, in order. -/
def keys : FieldTable → List Text
  | .nil => []
  | .cons key _ rest => key :: rest.keys

def append : FieldTable → FieldTable → FieldTable
  | .nil, t => t
  | .cons key value rest, t => .cons key value (rest.append t)

theorem append_nil : ∀ t : FieldTable, t.append .nil = t
  | .nil => rfl
  | .cons key value rest => by rw [append, append_nil rest]

theorem append_assoc : ∀ a b c : FieldTable, (a.append b).append c = a.append (b.append c)
  | .nil, _, _ => rfl
  | .cons key value rest, b, c => by rw [append, append, append, append_assoc rest b c]

theorem keys_append : ∀ a b : FieldTable, (a.append b).keys = a.keys ++ b.keys
  | .nil, _ => rfl
  | .cons key value rest, b => by rw [append, keys, keys, keys_append rest b, cons_append]

/-- A key above all others goes to the end. -/
theorem insert_last {key : Text} : ∀ {t : FieldTable},
    (∀ k ∈ t.keys, k < key) → t.insert key value = t.append (.cons key value .nil)
  | .nil, _ => rfl
  | .cons k v rest, h => by
    have hk : k < key := h k (by simp [keys])
    have hnot : ¬ key < k := fun hc => List.lt_irrefl k (List.lt_trans hk hc)
    have hne : key ≠ k := fun hc => List.lt_irrefl k (hc ▸ hk)
    rw [insert, if_neg hnot, if_neg hne, insert_last fun k' hk' => h k' (by simp [keys, hk']),
      append]

end FieldTable

mutual

/-- The strings and tables of a value fit their length prefixes, and its
tables are what a `BTreeMap<String, _>` can hold. -/
def FieldValue.Fits : FieldValue → Prop
  | .shortString s => s.length ≤ maxLen
  | .longString s => s.length < 2 ^ 32
  | .fieldTable t => t.Fits ∧ ∀ body, t.encodeFields = .ok body → body.length < 2 ^ 32
  | _ => True

/-- The keys are `String`s of at most 255 bytes in ascending order, and
the values fit. -/
def FieldTable.Fits : FieldTable → Prop
  | .nil => True
  | .cons key value rest =>
    Utf8 key ∧ key.length ≤ maxLen ∧ value.Fits ∧ (∀ k ∈ rest.keys, key < k) ∧ rest.Fits

end

theorem FieldTag.ofByte_byte (tag : FieldTag) : FieldTag.ofByte tag.byte = some tag := by
  cases tag <;> rfl

/-- A table reader that yields the body's table. -/
theorem yields_decodeTable {fields : List UInt8 → Except (Fault WireError) FieldTable}
    {body : List UInt8} (hlen : body.length < 2 ^ 32) (h : fields body = .ok t) :
    Yields (decodeTable fields) (writeLongstr body) t :=
  (yields_readLongstr hlen).bind_pure (by rw [h])

theorem yields_decodeFieldValue {tag : FieldTag} {v : FieldValue}
    (h : Yields (decodeContent table tag) content v) :
    Yields (decodeFieldValue table) (tag.byte :: content) v := by
  have htag : Yields (numBe (.error .needMore) 1 UInt8.ofNat : WireReader UInt8) [tag.byte]
      tag.byte := by
    have := yields_numBe (.error .needMore : Fault WireError) (w := 1) UInt8.ofNat
      tag.byte.toNat_lt
    rw [UInt8.ofNat_toNat] at this
    cases tag <;> exact this
  refine htag.bind ?_
  rw [FieldTag.ofByte_byte]
  exact h

theorem yields_decodeField {key : Text} (hkey : Utf8 key) (hlen : key.length ≤ maxLen)
    (h : Yields (decodeContent table value.tag) content value) :
    Yields (decodeField table) (writeShortstr key ++ (value.tag.byte :: content)) (key, value) :=
  (yields_readShortstr hlen).bind ((yields_decodeFieldValue h).bind_pure (by
    rw [hkey.toStringLossy]))

mutual

/-- **A value is read back**, if the reader of its table reads tables of
its size. -/
theorem FieldValue.yields : ∀ (v : FieldValue), v.Fits → ∃ content, v.encodeContent = .ok content ∧
    ∀ n, content.length ≤ n →
      Yields (decodeContent (decodeTable (decodeFields n .nil)) v.tag) content v
  | .bool v, _ => ⟨_, rfl, fun _ _ => yields_value (by cases v <;> decide) (by cases v <;> rfl)⟩
  | .shortShortInt v, _ => ⟨_, rfl, fun _ _ => yields_value v.toUInt8.toNat_lt
    (by rw [UInt8.ofNat_toNat, Int8.toInt8_toUInt8])⟩
  | .shortShortUInt v, _ => ⟨_, rfl, fun _ _ => yields_value v.toNat_lt (by rw [UInt8.ofNat_toNat])⟩
  | .shortInt v, _ => ⟨_, rfl, fun _ _ => yields_value v.toUInt16.toNat_lt
    (by rw [UInt16.ofNat_toNat, Int16.toInt16_toUInt16])⟩
  | .shortUInt v, _ => ⟨_, rfl, fun _ _ => yields_value v.toNat_lt (by rw [UInt16.ofNat_toNat])⟩
  | .longInt v, _ => ⟨_, rfl, fun _ _ => yields_value v.toUInt32.toNat_lt
    (by rw [UInt32.ofNat_toNat, Int32.toInt32_toUInt32])⟩
  | .longUInt v, _ => ⟨_, rfl, fun _ _ => yields_value v.toNat_lt (by rw [UInt32.ofNat_toNat])⟩
  | .longLongInt v, _ => ⟨_, rfl, fun _ _ => yields_value v.toUInt64.toNat_lt
    (by rw [UInt64.ofNat_toNat, Int64.toInt64_toUInt64])⟩
  | .longLongUInt v, _ => ⟨_, rfl, fun _ _ => yields_value v.toNat_lt (by rw [UInt64.ofNat_toNat])⟩
  | .float bits, _ => ⟨_, rfl, fun _ _ => yields_value bits.toNat_lt (by rw [UInt32.ofNat_toNat])⟩
  | .double bits, _ => ⟨_, rfl, fun _ _ => yields_value bits.toNat_lt (by rw [UInt64.ofNat_toNat])⟩
  | .shortString s, h => ⟨_, rfl, fun _ _ => (yields_readShortstr h).bind_pure rfl⟩
  | .longString s, h => ⟨_, rfl, fun _ _ => (yields_readLongstr h).bind_pure rfl⟩
  | .fieldTable t, h => by
    obtain ⟨body, hbody, hread⟩ := FieldTable.yields t h.1
    refine ⟨writeLongstr body, by rw [FieldValue.encodeContent, hbody]; rfl, fun n hn => ?_⟩
    have hlen : body.length ≤ n := by
      rw [writeLongstr, length_append] at hn
      omega
    exact (yields_decodeTable (h.2 body hbody) (hread n .nil hlen (by simp [FieldTable.keys]))
      ).bind_pure rfl
  | .void, _ => ⟨_, rfl, fun _ _ => yields_pure _⟩

/-- **A table is rebuilt** behind the entries that are there already. -/
theorem FieldTable.yields : ∀ (t : FieldTable), t.Fits → ∃ body, t.encodeFields = .ok body ∧
    ∀ n fields, body.length ≤ n → (∀ k ∈ fields.keys, ∀ k' ∈ t.keys, k < k') →
      decodeFields n fields body = .ok (fields.append t)
  | .nil, _ => ⟨[], rfl, fun n fields _ _ => by
    rw [FieldTable.append_nil]
    cases n <;> rfl⟩
  | .cons key value rest, h => by
    obtain ⟨hkey, hlen, hvalue, hsorted, hrest⟩ := h
    obtain ⟨content, hcontent, hread⟩ := FieldValue.yields value hvalue
    obtain ⟨body, hbody, hloop⟩ := FieldTable.yields rest hrest
    refine ⟨writeShortstr key ++ (value.tag.byte :: content) ++ body, ?_, ?_⟩
    · rw [FieldTable.encodeFields, hcontent, hbody, tryFromBytes,
        if_neg (Nat.not_lt.mpr hlen)]
      rfl
    · intro n fields hn horder
      simp only [writeShortstr, length_append, length_toBe, length_cons] at hn
      obtain ⟨m, rfl⟩ : ∃ m, n = m + 1 := ⟨n - 1, by omega⟩
      have hfield := yields_decodeField hkey hlen (hread m (by omega)) body
      rw [decodeFields, if_neg (by simp [writeShortstr]), hfield]
      dsimp only
      have hlast : fields.insert key value = fields.append (.cons key value .nil) :=
        FieldTable.insert_last fun k hk => horder k hk key (by simp [FieldTable.keys])
      rw [hlast, hloop m _ (by omega) ?_, FieldTable.append_assoc]
      · rfl
      · intro k hk k' hk'
        rw [FieldTable.keys_append, mem_append] at hk
        rcases hk with hk | hk
        · exact horder k hk k' (by simp [FieldTable.keys, hk'])
        · obtain rfl : k = key := by simpa [FieldTable.keys] using hk
          exact hsorted k' hk'

end

/-- A table that can be an argument: it fits, and so does its body. -/
def FieldTable.Sized (t : FieldTable) : Prop :=
  t.Fits ∧ ∀ body, t.encodeFields = .ok body → body.length < 2 ^ 32

theorem FieldTable.Sized.yields (h : t.Sized) :
    ∃ bytes, t.encode = .ok bytes ∧ Yields FieldTable.decode bytes t := by
  obtain ⟨body, hbody, hread⟩ := FieldTable.yields t h.1
  refine ⟨writeLongstr body, by rw [FieldTable.encode, hbody]; rfl, ?_⟩
  exact yields_decodeTable (h.2 body hbody)
    (hread body.length .nil (Nat.le_refl _) (by simp [FieldTable.keys]))

/-! ## Content headers -/

theorem yields_optional {read : WireReader α} {write : α → List UInt8} (o : Option α)
    (h : ∀ v ∈ o, Yields read (write v) v) :
    Yields (readOptional o.isSome read) (writeOptional write o) o := by
  cases o with
  | none => exact yields_pure none
  | some v => exact (h v rfl).bind_pure rfl

theorem yields_optionalShortstr (o : Option ShortStr) (h : ∀ s ∈ o, s.length ≤ maxLen) :
    Yields (readOptional o.isSome readShortstr) (writeOptional writeShortstr o) o :=
  yields_optional o fun s hs => yields_readShortstr (h s hs)

theorem yields_optionalByte (o : Option UInt8) :
    Yields (readOptional o.isSome (indexed 1 UInt8.ofNat)) (writeOptional (toBe 1 ·.toNat) o) o :=
  yields_optional o fun v _ => yields_value v.toNat_lt UInt8.ofNat_toNat

theorem yields_timestamp (o : Option UInt64) :
    Yields (readOptional o.isSome (do return UInt64.ofNat (← readU64)))
      (writeOptional (writeU64 ·.toNat) o) o :=
  yields_optional o fun v _ => (yields_readU64 v.toNat_lt).bind_pure (by rw [UInt64.ofNat_toNat])

@[simp] theorem testBit_propertyFlag (present : Bool) (bit i : Nat) :
    (propertyFlag present bit).testBit i = (present && decide (bit = i)) := by
  unfold propertyFlag
  cases present
  · simp
  · simp [Nat.testBit_two_pow]

/-- What `from_bits` gives back. -/
theorem knownFlags_flags (p : BasicProperties) : knownFlags p.flags = p.flags := by
  rw [knownFlags, if_pos]
  apply Nat.eq_of_testBit_eq
  intro i
  rw [show (8 : Nat) = 2 ^ 3 from rfl, Nat.testBit_mod_two_pow, Nat.zero_testBit]
  by_cases hi : i < 3
  · have hne : ∀ bit, 3 ≤ bit → decide (bit = i) = false := fun bit h => by simp; omega
    simp [flags, Nat.testBit_or, hne]
  · simp [hi]

theorem flags_lt (p : BasicProperties) : p.flags < 2 ^ 16 := by
  apply Nat.lt_pow_two_of_testBit
  intro i hi
  have hne : ∀ bit < 16, decide (bit = i) = false := fun bit h => by simp; omega
  simp [flags, hne]

/-- The strings and the table of the properties fit. -/
structure BasicProperties.Fits (p : BasicProperties) : Prop where
  contentType : ∀ s ∈ p.contentType, s.length ≤ maxLen
  contentEncoding : ∀ s ∈ p.contentEncoding, s.length ≤ maxLen
  headers : p.headers.Sized
  correlationId : ∀ s ∈ p.correlationId, s.length ≤ maxLen
  replyTo : ∀ s ∈ p.replyTo, s.length ≤ maxLen
  expiration : ∀ s ∈ p.expiration, s.length ≤ maxLen
  messageId : ∀ s ∈ p.messageId, s.length ≤ maxLen
  messageType : ∀ s ∈ p.messageType, s.length ≤ maxLen
  userId : ∀ s ∈ p.userId, s.length ≤ maxLen
  appId : ∀ s ∈ p.appId, s.length ≤ maxLen

/-- The `headers` field. -/
theorem yields_headers (h : t.Sized) :
    ∃ bytes, t.encodeNonempty = .ok bytes ∧ ∃ o : Option FieldTable, o.getD .nil = t ∧
      Yields (readOptional (decide (t ≠ .nil)) FieldTable.decode) bytes o := by
  unfold FieldTable.encodeNonempty
  by_cases ht : t = .nil
  · exact ⟨[], by rw [if_pos ht], none, ht.symm, by simpa [ht, readOptional] using yields_pure none⟩
  · obtain ⟨bytes, hbytes, hread⟩ := h.yields
    refine ⟨bytes, by rw [if_neg ht, hbytes], some t, rfl, ?_⟩
    rw [readOptional, if_pos (by simpa using ht)]
    exact hread.bind_pure rfl

/-- **Properties are read back.** -/
theorem BasicProperties.Fits.yields {p : BasicProperties} (h : p.Fits) :
    ∃ bytes, p.encode = .ok bytes ∧ Yields decode bytes p := by
  obtain ⟨headers, hheaders, o, ho, hread⟩ := yields_headers h.headers
  refine ⟨_, by rw [encode, hheaders]; rfl, ?_⟩
  have hflags := yields_indexed (w := 2) knownFlags (flags_lt p)
  rw [knownFlags_flags] at hflags
  simp only [List.append_assoc]
  refine hflags.bind ?_
  have b15 : p.flags.testBit 15 = p.contentType.isSome := by simp [flags]
  have b14 : p.flags.testBit 14 = p.contentEncoding.isSome := by simp [flags]
  have b13 : p.flags.testBit 13 = decide (p.headers ≠ .nil) := by simp [flags]
  have b12 : p.flags.testBit 12 = p.deliveryMode.isSome := by simp [flags]
  have b11 : p.flags.testBit 11 = p.priority.isSome := by simp [flags]
  have b10 : p.flags.testBit 10 = p.correlationId.isSome := by simp [flags]
  have b9 : p.flags.testBit 9 = p.replyTo.isSome := by simp [flags]
  have b8 : p.flags.testBit 8 = p.expiration.isSome := by simp [flags]
  have b7 : p.flags.testBit 7 = p.messageId.isSome := by simp [flags]
  have b6 : p.flags.testBit 6 = p.timestamp.isSome := by simp [flags]
  have b5 : p.flags.testBit 5 = p.messageType.isSome := by simp [flags]
  have b4 : p.flags.testBit 4 = p.userId.isSome := by simp [flags]
  have b3 : p.flags.testBit 3 = p.appId.isSome := by simp [flags]
  rw [b15, b14, b13, b12, b11, b10, b9, b8, b7, b6, b5, b4, b3]
  refine (yields_optionalShortstr _ h.contentType).bind
    ((yields_optionalShortstr _ h.contentEncoding).bind (hread.bind
    ((yields_optionalByte _).bind ((yields_optionalByte _).bind
    ((yields_optionalShortstr _ h.correlationId).bind
    ((yields_optionalShortstr _ h.replyTo).bind ((yields_optionalShortstr _ h.expiration).bind
    ((yields_optionalShortstr _ h.messageId).bind ((yields_timestamp _).bind
    ((yields_optionalShortstr _ h.messageType).bind ((yields_optionalShortstr _ h.userId).bind
    ((yields_optionalShortstr _ h.appId).bind_pure ?_))))))))))))
  rw [ho]

/-- A header with a 16-bit class and a 64-bit size. -/
structure ContentHeader.Fits (h : ContentHeader) : Prop where
  classId : h.classId < 2 ^ 16
  bodySize : h.bodySize < 2 ^ 64
  properties : h.properties.Fits

theorem ContentHeader.Fits.yields {h : ContentHeader} (hh : h.Fits) :
    ∃ bytes, h.encode = .ok bytes ∧ Yields ContentHeader.decode bytes h := by
  obtain ⟨properties, hproperties, hread⟩ := hh.properties.yields
  refine ⟨_, by rw [ContentHeader.encode, hproperties]; rfl, ?_⟩
  have hweight : Yields (take .panic 2 : WireReader (List UInt8)) (writeU16 0) (writeU16 0) :=
    yields_take .panic (writeU16 0)
  simp only [List.append_assoc]
  exact (yields_indexed id hh.classId).bind (hweight.bind ((yields_readU64 hh.bodySize).bind
    (hread.bind_pure rfl)))

end Aurum.Amqp
