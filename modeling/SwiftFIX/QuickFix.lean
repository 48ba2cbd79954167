/-
  The QuickFIX side: `Message::setFromPreScan`, which the patch adds to
  QuickFIX, and what it and the shim use of QuickFIX itself.

  QuickFIX is not part of the repository.  `FieldRules`, `Engine` and
  `IntConvertor` list what is called of it as parameters, with the behaviour the
  repository relies on as their laws; what the patch adds is modelled as it
  stands.
-/
import SwiftFIX.Grammar
import SwiftFIX.Lib.EarlyExit

namespace SwiftFIX
namespace FIX

open Decimal Delimited EarlyExit

/-! ## Fields and messages -/

/-- `field_metrics`: the length of a field on the wire and the sum of its bytes
    in 32 bits. -/
structure FieldMetrics where
  length : ℕ
  checksum : ℕ
  deriving DecidableEq, Repr

/-- `FieldBase`. -/
structure FieldBase where
  tag : ℤ
  string : List Byte
  metrics : FieldMetrics
  deriving DecidableEq, Repr

/-- `calculateMetrics` over the bytes of a range.  The sum wraps in 32 bits, where
    the `int` of the source overflows, which is undefined: from `2^31` on. -/
def calculateMetrics (s : List Byte) : FieldMetrics :=
  ⟨s.length, s.foldl (fun sum c => u32 (sum + c.toNat)) 0⟩

/-- The parts of a message. -/
inductive FieldType where
  | header
  | body
  | trailer
  deriving DecidableEq, Repr

/-- `FIX::Message`: its three field maps, `m_validStructure` and `m_tag`. -/
structure Message where
  header : List FieldBase
  body : List FieldBase
  trailer : List FieldBase
  validStructure : Bool
  tag : ℤ
  deriving DecidableEq, Repr

namespace Message

/-- A message after `clear()`. -/
def fresh : Message := ⟨[], [], [], true, 0⟩

/-- The fields of one part. -/
def part (m : Message) : FieldType → List FieldBase
  | .header => m.header
  | .body => m.body
  | .trailer => m.trailer

/-- The message with other fields in one part. -/
def setPart (m : Message) : FieldType → List FieldBase → Message
  | .header, fields => { m with header := fields }
  | .body, fields => { m with body := fields }
  | .trailer, fields => { m with trailer := fields }

end Message

/-! ## QuickFIX -/

/-- `static_cast<int>(n)` of a `std::uint32_t`. -/
def castInt (n : ℕ) : ℤ := if n < 2 ^ 31 then n else n - 2 ^ 32

/-- Why a call of QuickFIX does not return. -/
inductive Fault where
  /-- `InvalidMessage`, which leaves the message as it is then; any other
      exception ends the process at the exception specification -/
  | threw (left : Message)
  /-- undefined behaviour -/
  | stuck

/-- How QuickFIX treats the fields of a message, without dictionaries. -/
structure FieldRules where
  /-- `Message::isHeaderField` -/
  isHeaderField : ℤ → Bool
  /-- `Message::isTrailerField` -/
  isTrailerField : ℤ → Bool
  /-- `Message::clear` -/
  clear : Message → Message
  /-- `FieldMap::sortFields` of each part; `none` when it throws
      `InvalidMessage` -/
  sortFields : FieldType → List FieldBase → Option (List FieldBase)
  /-- `Message::validate` returns, and throws no `InvalidMessage` -/
  validate : Message → Bool
  clear_eq : ∀ m, clear m = .fresh
  sortFields_perm : ∀ {p l l'}, sortFields p l = some l' → l'.Perm l

/-- **QuickFIX**, as far as the patch and the shim call it. -/
structure Engine extends FieldRules where
  /-- `Message::setString(raw, false)`; the error is the message an exception
      leaves -/
  setString : List Byte → Message → Except Message Message
  /-- `setString` starts with `clear()` -/
  setString_clear : ∀ raw m m', setString raw m = setString raw m'

/-! ## `setFromPreScan` -/

/-- `PreScanField`, its pointers as offsets into the scanned buffer. -/
structure PreScanField where
  tag : ℤ
  tagStart : ℕ
  valueStart : ℕ
  valueEnd : ℕ
  deriving DecidableEq, Repr, Inhabited

/-- The bytes `[start, stop)` of the buffer. -/
def charRange (b : Buffer) (start stop : ℕ) : Except Fault (List Byte) :=
  if start ≤ stop ∧ stop ≤ b.length then .ok ((b.drop start).take (stop - start))
  else .error .stuck

/-- The `FieldBase` constructor from pointers. -/
def PreScanField.field (b : Buffer) (pf : PreScanField) : Except Fault FieldBase := do
  let string ← charRange b pf.valueStart pf.valueEnd
  let bytes ← charRange b pf.tagStart (pf.valueEnd + 1)
  .ok ⟨pf.tag, string, calculateMetrics bytes⟩

/-- `if (m_tag == 0) m_tag = field.getTag(); m_validStructure = false;` -/
def Message.misplaced (m : Message) (field : FieldBase) : Message :=
  { m with tag := if m.tag = 0 then field.tag else m.tag, validStructure := false }

namespace FieldRules
variable (E : FieldRules)

/-- One round of the loop: the field goes to its part, and is noted when it is
    out of order. -/
def setField (m : Message) (type : FieldType) (field : FieldBase) : Message × FieldType :=
  if E.isHeaderField field.tag then
    let m := if type ≠ .header then m.misplaced field else m
    ({ m with header := m.header ++ [field] }, type)
  else if E.isTrailerField field.tag then
    ({ m with trailer := m.trailer ++ [field] }, .trailer)
  else
    let m := if type = .trailer then m.misplaced field else m
    ({ m with body := m.body ++ [field] }, .body)

/-- The loop over the pre-scanned fields. -/
def preScanLoop (b : Buffer) : List PreScanField → Message → FieldType → Except Fault Message
  | [], m, _ => .ok m
  | pf :: pfs, m, type => do
    let field ← pf.field b
    let (m, type) := E.setField m type field
    preScanLoop b pfs m type

/-- `sortFields` of one part; the error is the message `InvalidMessage` leaves. -/
def sortPart (part : FieldType) (m : Message) : Except Message Message :=
  match E.sortFields part (m.part part) with
  | none => .error m
  | some fields => .ok (m.setPart part fields)

/-- `m_header.sortFields(); sortFields(); m_trailer.sortFields();` -/
def sortParts (m : Message) : Except Message Message := do
  let m ← E.sortPart .header m
  let m ← E.sortPart .body m
  E.sortPart .trailer m

/-- `Message::setFromPreScan`, which `throw( InvalidMessage )` lets throw nothing
    else. -/
def setFromPreScan (b : Buffer) (fields : List PreScanField) (doValidation : Bool) (out : Message) :
    Except Fault Message := do
  let m ← E.preScanLoop b fields (E.clear out) .header
  match E.sortParts m with
  | .error left => .error (.threw left)
  | .ok m => if doValidation && !E.validate m then .error (.threw m) else .ok m

end FieldRules

/-! ## `setString` -/

/-- `IntConvertor::convert`; `none` when it throws.  Digits carry no sign: on the
    tags a scanner accepts a negative result is the number wrapped around. -/
structure IntConvertor where
  convert : List Byte → Option ℤ
  convert_digits : ∀ {ds}, ds ≠ [] → (∀ c ∈ ds, IsDigit c) → Decimal.value ds < 2 ^ 31 →
    convert ds = some (Decimal.value ds : ℤ)
  convert_sign : ∀ {ds x}, (∀ c ∈ ds, IsDigit c) → Decimal.value ds ≤ maxNumber →
    convert ds = some x → 0 ≤ x ∨ x = castInt (Decimal.value ds)

/-- The next field of a string: the tag up to `=`, the value up to the next
    SOH; `none` when a delimiter is missing or the tag does not convert. -/
def IntConvertor.extractField (C : IntConvertor) (raw : List Byte) :
    Option (FieldBase × List Byte) :=
  match cut (ch '=') raw with
  | none => none
  | some (tag, s) =>
    match C.convert tag, cut SOH s with
    | some n, some (value, rest) =>
      some (⟨n, value, calculateMetrics (Field.bytes ⟨tag, value⟩)⟩, rest)
    | _, _ => none

namespace FieldRules
variable (E : FieldRules) (C : IntConvertor)

/-- The loop of `setString`, until the string is consumed.  A field takes at
    least two bytes, so one more round than there are bytes is never used up. -/
def stringLoop : ℕ → List Byte → Message → FieldType → Except Message Message
  | 0, _, m, _ => .error m
  | fuel + 1, raw, m, type =>
    if raw = [] then .ok m
    else match C.extractField raw with
      | none => .error m
      | some (field, rest) =>
        let (m, type) := E.setField m type field
        stringLoop fuel rest m type

/-- `Message::setString(raw, false)`, as QuickFIX documents it. -/
def setString (raw : List Byte) (out : Message) : Except Message Message := do
  let m ← E.stringLoop C (raw.length + 1) raw (E.clear out) .header
  E.sortParts m

/-- QuickFIX with that `setString`. -/
def engine : Engine where
  toFieldRules := E
  setString := E.setString C
  setString_clear raw m m' := by rw [setString, setString, E.clear_eq, E.clear_eq]

end FieldRules

/-- The field classes of a plain header and trailer, and no reordering. -/
def plainRules : FieldRules where
  isHeaderField tag := tag ∈ ([8, 9, 34, 35, 43, 49, 52, 56] : List ℤ)
  isTrailerField tag := tag ∈ ([10, 89, 93] : List ℤ)
  clear _ := .fresh
  sortFields _ fields := some fields
  validate _ := true
  clear_eq _ := rfl
  sortFields_perm h := by
    cases h
    exact .refl _

/-- A conversion that throws outside the range of `int`. -/
def plainConvertor : IntConvertor where
  convert ds :=
    if ds ≠ [] ∧ (∀ c ∈ ds, IsDigit c) ∧ Decimal.value ds < 2 ^ 31 then some (Decimal.value ds)
    else none
  convert_digits hne hd hlt := if_pos ⟨hne, hd, hlt⟩
  convert_sign _ _ h := by
    split at h
    · cases h
      exact Or.inl (Int.natCast_nonneg _)
    · cases h

/-! ## The fields of a message -/

/-- All fields of a message, part by part. -/
def Message.fields (m : Message) : List FieldBase := m.header ++ (m.body ++ m.trailer)

/-- Put a list of fields into a message, one after the other. -/
def FieldRules.setFields (E : FieldRules) (fields : List FieldBase) (s : Message × FieldType) :
    Message × FieldType :=
  fields.foldl (fun s field => E.setField s.1 s.2 field) s

section
variable {E : FieldRules}

/-- When every pre-scanned field can be built, the loop puts them into the
    message. -/
theorem FieldRules.preScanLoop_eq {b : Buffer} {pfs : List PreScanField} {fields : List FieldBase}
    (h : List.Forall₂ (fun pf field => pf.field b = .ok field) pfs fields) :
    ∀ (m : Message) (type : FieldType),
      E.preScanLoop b pfs m type = .ok (E.setFields fields (m, type)).1 := by
  induction h with
  | nil => exact fun _ _ => rfl
  | cons hf _ ih =>
    intro m type
    rw [preScanLoop, hf, ok_bind]
    exact ih _ _

theorem FieldRules.setField_perm (m : Message) (type : FieldType) (field : FieldBase) :
    (E.setField m type field).1.fields.Perm (field :: m.fields) := by
  have hheader : ∀ m : Message,
      Message.fields { m with header := m.header ++ [field] } =
        m.header ++ field :: (m.body ++ m.trailer) := fun m => by
    simp [Message.fields]
  have hbody : ∀ m : Message,
      Message.fields { m with body := m.body ++ [field] } =
        (m.header ++ m.body) ++ field :: m.trailer := fun m => by
    simp [Message.fields]
  have htrailer : ∀ m : Message,
      Message.fields { m with trailer := m.trailer ++ [field] } = m.fields ++ [field] := fun m => by
    simp [Message.fields]
  unfold setField
  split
  · have h : (if type ≠ .header then m.misplaced field else m).fields = m.fields := by
      split <;> rfl
    rw [hheader, ← h]
    exact List.perm_middle
  split
  · rw [htrailer]
    exact List.perm_append_singleton field m.fields
  · have h : (if type = .trailer then m.misplaced field else m).fields = m.fields := by
      split <;> rfl
    rw [hbody, ← h, Message.fields, ← List.append_assoc]
    exact List.perm_middle

theorem FieldRules.setFields_perm (fields : List FieldBase) :
    ∀ s : Message × FieldType, (E.setFields fields s).1.fields.Perm (s.1.fields ++ fields) := by
  induction fields with
  | nil =>
    intro s
    rw [List.append_nil]
    exact .refl _
  | cons field fields ih =>
    intro s
    refine (ih _).trans ?_
    exact ((setField_perm s.1 s.2 field).append_right fields).trans List.perm_middle.symm

theorem FieldRules.sortPart_perm {part : FieldType} {m m' : Message} (h : E.sortPart part m = .ok m') :
    m'.fields.Perm m.fields := by
  unfold sortPart at h
  split at h
  · cases h
  rename_i fields hs
  cases h
  have hp := E.sortFields_perm hs
  cases part with
  | header => exact hp.append_right _
  | body => exact (hp.append_right _).append_left _
  | trailer => exact (hp.append_left _).append_left _

theorem FieldRules.sortParts_perm {m m' : Message} (h : E.sortParts m = .ok m') :
    m'.fields.Perm m.fields := by
  obtain ⟨m₁, h₁, h⟩ := bind_eq_ok.1 h
  obtain ⟨m₂, h₂, h₃⟩ := bind_eq_ok.1 h
  exact (sortPart_perm h₃).trans ((sortPart_perm h₂).trans (sortPart_perm h₁))

end

end FIX
end SwiftFIX
