import Aurum.Amqp.Yields

/-!
# AMQP — formats

What a decoder accepts and where it panics, in terms of the bytes alone.
A format is a list of items. An item is either checked, so that a slice
that is too short for it is an error, or it is not, and then the decoder
indexes past the end of its slice. `Whole` bytes are those of an item,
`Cut` bytes end within an unchecked item, and `Reads` says that a reader
accepts a format and panics exactly where it is cut.
-/

namespace Aurum.Amqp

open Aurum.Bytes Aurum.Reader Aurum.Routing List FieldTag

/-! ## Items -/

/-- An item of a format. -/
inductive Item where
  | bytes (width : Nat) (checked : Bool)
  | shortstr
  | longstr
  | table
  | unknown
deriving DecidableEq, Repr

/-- The item behind the tag of a field value: no number is checked. -/
def FieldTag.item : FieldTag → Item
  | .bool | .shortShortInt | .shortShortUInt => .bytes 1 false
  | .shortInt | .shortUInt => .bytes 2 false
  | .longInt | .longUInt | .float => .bytes 4 false
  | .longLongInt | .longLongUInt | .double => .bytes 8 false
  | .shortString => .shortstr
  | .longString => .longstr
  | .fieldTable => .table
  | .void => .bytes 0 false

mutual

/-- The bytes of an item. -/
inductive Whole : Item → List UInt8 → Prop
  | bytes {width : Nat} {checked : Bool} {bs : List UInt8} (hlen : bs.length = width) :
      Whole (.bytes width checked) bs
  | shortstr {s : List UInt8} (hlen : s.length < 256) : Whole .shortstr (writeShortstr s)
  | longstr {s : List UInt8} (hlen : s.length < 2 ^ 32) : Whole .longstr (writeLongstr s)
  | table {body : List UInt8} (hlen : body.length < 2 ^ 32) (hbody : WholeFields body) :
      Whole .table (writeLongstr body)

/-- The body of a field table. -/
inductive WholeFields : List UInt8 → Prop
  | nil : WholeFields []
  | cons {key content rest : List UInt8} {tag : FieldTag} (hkey : key.length < 256)
      (hcontent : Whole tag.item content) (hrest : WholeFields rest) :
      WholeFields (writeShortstr key ++ tag.byte :: (content ++ rest))

end

mutual

/-- **The slice ends within the item**, where nothing checks its length. -/
inductive Cut : Item → List UInt8 → Prop
  | bytes {width : Nat} {bs : List UInt8} (hlen : bs.length < width) : Cut (.bytes width false) bs
  | table {body rest : List UInt8} (hlen : body.length < 2 ^ 32) (hbody : CutFields body) :
      Cut .table (writeLongstr body ++ rest)

/-- **The body of a table ends within a value.** -/
inductive CutFields : List UInt8 → Prop
  | value {key rest : List UInt8} {tag : FieldTag} (hkey : key.length < 256)
      (hcut : Cut tag.item rest) : CutFields (writeShortstr key ++ tag.byte :: rest)
  | later {key content rest : List UInt8} {tag : FieldTag} (hkey : key.length < 256)
      (hcontent : Whole tag.item content) (hrest : CutFields rest) :
      CutFields (writeShortstr key ++ tag.byte :: (content ++ rest))

end

/-- The bytes of some items. -/
def WholeAll : List Item → List UInt8 → Prop
  | [], bs => bs = []
  | item :: items, bs => ∃ a b, bs = a ++ b ∧ Whole item a ∧ WholeAll items b

/-- The slice ends within one of the items. -/
def CutAll : List Item → List UInt8 → Prop
  | [], _ => False
  | item :: items, bs => Cut item bs ∨ ∃ a b, bs = a ++ b ∧ Whole item a ∧ CutAll items b

variable {item : Item} {bs rest s : List UInt8}

theorem wholeAll_append (xs ys : List Item) (bs : List UInt8) :
    WholeAll (xs ++ ys) bs ↔ ∃ a b, bs = a ++ b ∧ WholeAll xs a ∧ WholeAll ys b := by
  induction xs generalizing bs with
  | nil => simp [WholeAll]
  | cons x xs ih =>
    simp only [cons_append, WholeAll, ih]
    constructor
    · rintro ⟨a, _, rfl, ha, b, c, rfl, hb, hc⟩
      exact ⟨a ++ b, c, (List.append_assoc ..).symm, ⟨a, b, rfl, ha, hb⟩, hc⟩
    · rintro ⟨_, c, rfl, ⟨a, b, rfl, ha, hb⟩, hc⟩
      exact ⟨a, b ++ c, List.append_assoc .., ha, b, c, rfl, hb, hc⟩

theorem cutAll_append (xs ys : List Item) (bs : List UInt8) : CutAll (xs ++ ys) bs ↔
      CutAll xs bs ∨ ∃ a b, bs = a ++ b ∧ WholeAll xs a ∧ CutAll ys b := by
  induction xs generalizing bs with
  | nil => simp [WholeAll, CutAll]
  | cons x xs ih =>
    simp only [cons_append, WholeAll, CutAll, ih]
    constructor
    · rintro (h | ⟨a, _, rfl, ha, h | ⟨b, c, rfl, hb, hc⟩⟩)
      · exact .inl (.inl h)
      · exact .inl (.inr ⟨a, _, rfl, ha, h⟩)
      · exact .inr ⟨a ++ b, c, (List.append_assoc ..).symm, ⟨a, b, rfl, ha, hb⟩, hc⟩
    · rintro ((h | ⟨a, b, rfl, ha, h⟩) | ⟨_, c, rfl, ⟨a, b, rfl, ha, hb⟩, hc⟩)
      · exact .inl h
      · exact .inr ⟨a, b, rfl, ha, .inl h⟩
      · exact .inr ⟨a, b ++ c, List.append_assoc .., ha, .inr ⟨b, c, rfl, hb, hc⟩⟩

/-! ## Readers of a format -/

variable {α β : Type} {limit w : Nat} {r : WireReader α} {fault : Fault WireError} {ofNat : Nat → α}
  {table : WireReader FieldTable}

/-- **The reader reads the format**, on slices up to a given length: it
accepts the bytes of the items, and it panics where they are cut. -/
structure Reads (limit : Nat) (r : WireReader α) (items : List Item) : Prop where
  ok : ∀ bs rest : List UInt8, bs.length ≤ limit →
    ((∃ a, r bs = .ok (a, rest)) ↔ ∃ whole, bs = whole ++ rest ∧ WholeAll items whole)
  panic : ∀ bs : List UInt8, bs.length ≤ limit → (r bs = .error .panic ↔ CutAll items bs)

theorem reads_pure (a : α) : Reads limit (pure a) [] where
  ok bs rest _ := by
    have h : (pure a : WireReader α) bs = .ok (a, bs) := rfl
    rw [h]
    simp [WholeAll]
  panic bs _ := by
    have h : (pure a : WireReader α) bs = .ok (a, bs) := rfl
    rw [h]
    simp [CutAll]

theorem Reads.bind {f : α → WireReader β} {xs ys : List Item} (hr : Reads limit r xs)
    (hf : ∀ a, Reads limit (f a) ys) : Reads limit (r >>= f) (xs ++ ys) where
  ok bs rest hlen := by
    simp only [bind_eq_ok, wholeAll_append]
    constructor
    · rintro ⟨b, a, mid, ha, hb⟩
      obtain ⟨w, rfl, hw⟩ := (hr.ok bs mid hlen).mp ⟨a, ha⟩
      rw [length_append] at hlen
      obtain ⟨w', rfl, hw'⟩ := ((hf a).ok mid rest (by omega)).mp ⟨b, hb⟩
      exact ⟨w ++ w', (List.append_assoc ..).symm, w, w', rfl, hw, hw'⟩
    · rintro ⟨_, rfl, w, w', rfl, hw, hw'⟩
      obtain ⟨a, ha⟩ := (hr.ok (w ++ w' ++ rest) (w' ++ rest) hlen).mpr
        ⟨w, List.append_assoc .., hw⟩
      simp only [length_append] at hlen
      obtain ⟨b, hb⟩ := ((hf a).ok (w' ++ rest) rest (by rw [length_append]; omega)).mpr
        ⟨w', rfl, hw'⟩
      exact ⟨b, a, w' ++ rest, ha, hb⟩
  panic bs hlen := by
    rw [bind_eq_error, cutAll_append, hr.panic bs hlen]
    refine or_congr_right ?_
    constructor
    · rintro ⟨a, mid, ha, hpanic⟩
      obtain ⟨w, rfl, hw⟩ := (hr.ok bs mid hlen).mp ⟨a, ha⟩
      rw [length_append] at hlen
      exact ⟨w, mid, rfl, hw, ((hf a).panic mid (by omega)).mp hpanic⟩
    · rintro ⟨w, mid, rfl, hw, hcut⟩
      obtain ⟨a, ha⟩ := (hr.ok (w ++ mid) mid hlen).mpr ⟨w, rfl, hw⟩
      rw [length_append] at hlen
      exact ⟨a, mid, ha, ((hf a).panic mid (by omega)).mpr hcut⟩

/-- A last step that takes no bytes. -/
theorem Reads.map {items : List Item} (hr : Reads limit r items) (f : α → β) :
    Reads limit (do return f (← r)) items := by
  have h : Reads limit (do return f (← r)) (items ++ []) := hr.bind fun a => reads_pure (f a)
  rwa [List.append_nil] at h

/-! ## Numbers and strings -/

section

variable {fields : List UInt8 → Except (Fault WireError) FieldTable}

end

end Aurum.Amqp
