/-
  The frame grammar, and the index that describes a frame.

  * `Message`: a message as the scalar scanner understands it, `Frame`: one that
    fits the field table; the invariants are carried by the structures, so only
    accepted messages can be built;
  * `Message.Canonical`: the checksum tag is spelled `10`, as the AVX2 scanner
    demands;
  * `Message.index`: the index of the message, with true offsets.
-/
import Mathlib.Data.List.Forall2
import SwiftFIX.Reading

namespace SwiftFIX

open Decimal Delimited

/-! ## Fields of the body -/

/-- A field that may stand in the body: a tag other than 95 and 96, and a value
    without an SOH. -/
structure BodyField (f : Field) : Prop where
  tag : Tag f.tag
  notLength : f.number ≠ 95
  notData : f.number ≠ 96
  value : SOH ∉ f.value

/-- A checksum field: tag number 10 and three digits. -/
structure ChecksumField (f : Field) : Prop where
  tag : Tag f.tag
  number : f.number = 10
  length : f.value.length = 3
  digits : ∀ c ∈ f.value, IsDigit c

theorem ChecksumField.of_digits {d : List Byte} (h3 : d.length = 3) (hd : ∀ c ∈ d, IsDigit c) :
    ChecksumField ⟨ascii ['1', '0'], d⟩ where
  tag := (by decide : Tag (ascii ['1', '0']))
  number := (by decide : Decimal.value (ascii ['1', '0']) = 10)
  length := h3
  digits := hd

theorem ChecksumField.value {f : Field} (h : ChecksumField f) : SOH ∉ f.value :=
  fun hm => digit_ne_soh (h.digits _ hm) rfl

theorem ChecksumField.size_ge {f : Field} (h : ChecksumField f) : 7 ≤ f.size := by
  have h2 := h.tag.two_le_length h.number.ge
  have h3 := h.length
  rw [Field.size]
  omega

theorem ChecksumField.size_eq {f : Field} (h : ChecksumField f) (htag : f.tag = ascii ['1', '0']) :
    f.size = 7 := by
  rw [Field.size, h.length, htag]; rfl

/-! ## Frames -/

/-- **A message**: the header fields 8, 9 and 35, the body fields and the
    checksum field, with the declared body length. -/
structure Message where
  beginString : List Byte
  bodyLength : List Byte
  msgType : List Byte
  body : List Field
  checksum : Field
  beginString_open : SOH ∉ beginString
  bodyLength_numeral : Numeral bodyLength
  bodyLength_ne : bodyLength ≠ []
  msgType_open : SOH ∉ msgType
  body_fields : ∀ f ∈ body, BodyField f
  checksum_field : ChecksumField checksum
  length_eq : (wire (⟨ascii ['3', '5'], msgType⟩ :: body)).length = Decimal.value bodyLength

/-- **A frame**: a message whose fields fit the table. -/
structure Frame extends Message where
  room : body.length + 4 ≤ kMaxFields

namespace Message

/-- Field 8. -/
def f8 (M : Message) : Field := ⟨ascii ['8'], M.beginString⟩

/-- Field 9, the declared body length. -/
def f9 (M : Message) : Field := ⟨ascii ['9'], M.bodyLength⟩

/-- Field 35, the message type. -/
def f35 (M : Message) : Field := ⟨ascii ['3', '5'], M.msgType⟩

/-- The fields of the message, in wire order. -/
def fields (M : Message) : List Field := M.f8 :: M.f9 :: M.f35 :: (M.body ++ [M.checksum])

/-- The message on the wire. -/
def bytes (M : Message) : List Byte := wire M.fields

/-- The checksum tag is spelled without leading zeros. -/
def Canonical (M : Message) : Prop := M.checksum.tag = ascii ['1', '0']

instance (M : Message) : Decidable M.Canonical := inferInstanceAs (Decidable (_ = _))

end Message

/-! ## The index of a message -/

/-- The entry of a field at offset `p`. -/
def Field.place (p : ℕ) (f : Field) : FieldEntry where
  tagStart := p
  valueStart := p + f.tag.length + 1
  valueEnd := p + f.tag.length + 1 + f.value.length
  tagNumber := f.number

/-- The entries of the fields `fs`, the first at offset `p`. -/
def places : ℕ → List Field → List FieldEntry
  | _, [] => []
  | p, f :: fs => f.place p :: places (p + f.size) fs

theorem places_length (fs : List Field) : ∀ p, (places p fs).length = fs.length := by
  induction fs with
  | nil =>
    intro p
    rfl
  | cons f fs ih =>
    intro p
    rw [places, List.length_cons, ih, List.length_cons]

theorem places_append (fs gs : List Field) :
    ∀ p, places p (fs ++ gs) = places p fs ++ places (p + (wire fs).length) gs := by
  induction fs with
  | nil =>
    intro p
    rfl
  | cons f fs ih =>
    intro p
    rw [List.cons_append, places, places, ih, wire_cons_length, Nat.add_assoc]
    rfl

/-- What holds of every field on the wire and its entry holds along the entries
    of the fields at the start of a buffer. -/
theorem forall₂_places {R : Buffer → FieldEntry → Field → Prop}
    (hR : ∀ pre t f, R (pre ++ (f.bytes ++ t)) (f.place pre.length) f) {b : Buffer}
    {fs : List Field} (h : wire fs <+: b) : List.Forall₂ (R b) (places 0 fs) fs := by
  obtain ⟨t, rfl⟩ := h
  suffices hpre : ∀ pre : List Byte,
      List.Forall₂ (R (pre ++ (wire fs ++ t))) (places pre.length fs) fs from hpre []
  induction fs with
  | nil => exact fun _ => .nil
  | cons f fs ih =>
    intro pre
    have hb : pre ++ (wire (f :: fs) ++ t) = pre ++ f.bytes ++ (wire fs ++ t) := by
      rw [wire_cons, List.append_assoc, List.append_assoc]
    have hl : pre.length + f.size = (pre ++ f.bytes).length := by
      rw [List.length_append, f.bytes_length]
    rw [places, hl]
    refine .cons ?_ ?_
    · rw [wire_cons, List.append_assoc]
      exact hR pre _ f
    · rw [hb]
      exact ih (pre ++ f.bytes)

namespace Message

/-- **The index of a message**: its field count, the four slots, the declared
    length, the message's length and every field where it stands. -/
def index (M : Message) : IndexView where
  beginStringIdx := 0
  bodyLengthIdx := 1
  msgTypeIdx := 2
  checksumIdx := M.fields.length - 1
  declaredBodyLength := Decimal.value M.bodyLength
  frameLength := M.bytes.length
  fieldCount := M.fields.length
  entries := places 0 M.fields

end Message

/-- Below `2^32` no offset is narrowed. -/
theorem layout_eq_places (fs : List Field) :
    ∀ {p : ℕ}, p + (wire fs).length ≤ 2 ^ 32 → layout p fs = places p fs := by
  induction fs with
  | nil => exact fun _ => rfl
  | cons f fs ih =>
    intro p h
    rw [wire_cons_length] at h
    have hsize : f.size = f.tag.length + f.value.length + 2 := rfl
    have hentry : f.entry p = f.place p := by
      simp only [Field.entry, Field.place]
      rw [u32_of_lt (show p < 2 ^ 32 by omega),
        u32_of_lt (show p + f.tag.length + 1 < 2 ^ 32 by omega),
        u32_of_lt (show p + f.tag.length + 1 + f.value.length < 2 ^ 32 by omega)]
    rw [layout, places, hentry, ih (by omega)]

namespace Message

theorem view_eq (M : Message) (h : M.bytes.length < 2 ^ 32) :
    Reading.view ⟨.ok, M.fields⟩ = M.index := by
  have hl : layout 0 M.fields = places 0 M.fields := by
    refine layout_eq_places _ ?_
    rw [Nat.zero_add]
    exact h.le
  have hn : M.fields.length = M.body.length + 4 := by simp [fields]
  rw [Reading.view, if_pos rfl, progress, hl]
  simp only [index, IndexView.mk.injEq, and_true, slotOf, hn, bytes]
  refine ⟨rfl, rfl, rfl, ?_, rfl, u32_of_lt h⟩
  omega

theorem bytes_eq (M : Message) :
    M.bytes = wire [M.f8, M.f9] ++ (wire (M.f35 :: M.body) ++ M.checksum.bytes) := by
  simp only [bytes, fields, wire_cons, wire_append, wire_nil, List.append_nil, List.append_assoc]

theorem Canonical.checksum_size {M : Message} (h : M.Canonical) : M.checksum.size = 7 :=
  M.checksum_field.size_eq h

theorem fields_injective {M N : Message} (h : M.fields = N.fields) : M = N := by
  simp only [fields, f8, f9, f35, List.cons.injEq, Field.mk.injEq, true_and] at h
  obtain ⟨h8, h9, h35, htail⟩ := h
  obtain ⟨hbody, hcks⟩ := List.append_inj' htail rfl
  rw [List.cons.injEq] at hcks
  cases M
  cases N
  simp only [Message.mk.injEq]
  exact ⟨h8, h9, h35, hbody, hcks.1⟩

end Message

theorem Frame.fields_injective {F G : Frame} (h : F.fields = G.fields) : F = G := by
  have hm := Message.fields_injective h
  cases F
  cases G
  simp only [Frame.mk.injEq]
  exact hm

end SwiftFIX
