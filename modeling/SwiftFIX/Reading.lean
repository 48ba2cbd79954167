/-
  What the scanners read, on the bytes alone: no offsets into the buffer, no
  index object, no 32-bit arithmetic but where it decides the verdict.

  A `Read` computation leaves through a `Reading`, the verdict with the fields
  in the index by then.  `readHead` are the common headers,
  `ScalarScanner.read` and `Avx2Scanner.read` the two scanners; that the
  scanners compute these readings is proved in `ScalarReads` and `Avx2Reads`.
-/
import SwiftFIX.Wire

namespace SwiftFIX

open Decimal Delimited

/-- A reading step: what was read, or the status with the fields up to there. -/
abbrev Read (α : Type) := Except Reading α

/-- The reading that the steps end with. -/
def Reading.ofRead : Read (List Field) → Reading
  | .ok fs => ⟨.ok, fs⟩
  | .error r => r

/-! ## Pieces of a message -/

/-- The rest of `s` after the literal `pat`. -/
def strip (pat s : List Byte) : Option (List Byte) :=
  if s.take pat.length = pat then some (s.drop pat.length) else none

/-- A complete field, without its SOH. -/
def readPiece (s : List Byte) : Option Field :=
  match cut (ch '=') s with
  | none => none
  | some (t, v) => if Tag t then some ⟨t, v⟩ else none

/-- Bytes without an SOH that a complete field may begin with. -/
def OpenField (s : List Byte) : Prop :=
  match cut (ch '=') s with
  | none => Numeral s
  | some (t, _) => Tag t

instance : DecidablePred OpenField := fun s => by
  unfold OpenField; split <;> infer_instance

/-- The outcomes of scanning one field. -/
inductive FieldRead where
  | field (f : Field) (rest : List Byte)
  | truncated
  | malformed

/-- One field from the front, delimited by its SOH. -/
def readField (s : List Byte) : FieldRead :=
  match cut SOH s with
  | some (p, t) =>
    match readPiece p with
    | some f => .field f t
    | none => .malformed
  | none => if OpenField s then .truncated else .malformed

/-- The three bytes at `v` are digits. -/
def DigitsAt (b : Buffer) (v : ℕ) : Prop := ∀ c ∈ (b.drop v).take 3, IsDigit c

instance (b : Buffer) (v : ℕ) : Decidable (DigitsAt b v) :=
  inferInstanceAs (Decidable (∀ _ ∈ _, _))

/-! ## The headers -/

/-- The fields 8, 9 and 35, and the bytes after them. -/
structure Head where
  f8 : Field
  f9 : Field
  f35 : Field
  rest : List Byte

namespace Head

/-- The fields, in wire order. -/
def fields (h : Head) : List Field := [h.f8, h.f9, h.f35]

theorem fields_length_le (h : Head) : h.fields.length ≤ kMaxFields := by
  simp [fields, kMaxFields]

/-- The declared body length. -/
def bodyLen (h : Head) : ℕ := Decimal.value h.f9.value

/-- The offset of the body. -/
def bodyStart (h : Head) : ℕ := (wire [h.f8, h.f9]).length

/-- The declared end of the body. -/
def bodyEnd (h : Head) : ℕ := h.bodyStart + h.bodyLen

theorem fields_append_length (h : Head) (fs : List Field) :
    (h.fields ++ fs).length = fs.length + 3 := by
  rw [List.length_append, Nat.add_comm]
  rfl

theorem wire_fields_length (h : Head) : (wire h.fields).length = h.bodyStart + h.f35.size := by
  rw [fields, bodyStart, ← wire_snoc_length]
  rfl

theorem wire_fields_append_length (h : Head) (fs : List Field) :
    (wire (h.fields ++ fs)).length = h.bodyStart + (h.f35.size + (wire fs).length) := by
  rw [wire_append, List.length_append, wire_fields_length, Nat.add_assoc]

end Head

/-- Field 8 from the front. -/
def readTag8 (b : List Byte) : Read (Field × List Byte) :=
  match strip [ch '8', ch '='] b with
  | none => .error ⟨.badHeader, []⟩
  | some s =>
    match cut SOH s with
    | none => .error ⟨.truncated, []⟩
    | some (v, t) => .ok (⟨[ch '8'], v⟩, t)

/-- Field 9 behind field 8: a numeral, not empty. -/
def readTag9 (f8 : Field) (s : List Byte) : Read (Field × List Byte) :=
  if s.length < 2 then .error ⟨.truncated, [f8]⟩
  else match strip [ch '9', ch '='] s with
    | none => .error ⟨.badHeader, [f8]⟩
    | some s =>
      if ¬ Numeral (upTo SOH s) then .error ⟨.malformed, [f8]⟩
      else match cut SOH s with
        | none => .error ⟨.truncated, [f8]⟩
        | some (v, t) =>
          if v = [] then .error ⟨.malformed, [f8]⟩ else .ok (⟨[ch '9'], v⟩, t)

/-- The declared body and the seven bytes of a trailer are there. -/
def readBounds (f8 f9 : Field) (s : List Byte) : Read Unit :=
  if s.length < Decimal.value f9.value + 7 then .error ⟨.truncated, [f8, f9]⟩ else .ok ()

/-- Field 35, up to the next SOH. -/
def readTag35 (f8 f9 : Field) (s : List Byte) : Read (Field × List Byte) :=
  match strip [ch '3', ch '5', ch '='] s with
  | none => .error ⟨.badHeader, [f8, f9]⟩
  | some s =>
    match cut SOH s with
    | none => .error ⟨.truncated, [f8, f9]⟩
    | some (v, t) => .ok (⟨[ch '3', ch '5'], v⟩, t)

/-- The headers. -/
def readHead (b : List Byte) : Read Head :=
  if b.length < 12 then .error ⟨.truncated, []⟩
  else do
    let (f8, s) ← readTag8 b
    let (f9, s) ← readTag9 f8 s
    readBounds f8 f9 s
    let (f35, s) ← readTag35 f8 f9 s
    .ok ⟨f8, f9, f35, s⟩

/-! ## The scalar scanner -/

namespace ScalarScanner

/-- The body fields, with `left` bytes up to the body's end.  The rest is
    `none` when the last field runs past the body's end. -/
def readBody (fs : List Field) (left : ℕ) (s : List Byte) :
    Read (List Field × Option (List Byte)) :=
  if left = 0 then .ok (fs, some s)
  else if fs.length ≥ kMaxFields then .error ⟨.tableFull, fs⟩
  else match readField s with
    | .truncated => .error ⟨.truncated, fs⟩
    | .malformed => .error ⟨.malformed, fs⟩
    | .field f t =>
      if f.number = 95 ∨ f.number = 96 then .error ⟨.fallbackRequested, fs⟩
      else if left < f.size then .ok (fs ++ [f], none)
      else readBody (fs ++ [f]) (left - f.size) t
termination_by left
decreasing_by have := f.size_pos; omega

/-- The checksum field.  Its value's length and offset are compared and
    followed as 32-bit numbers. -/
def readEnding (b : Buffer) (fs : List Field) : Option (List Byte) → Read (List Field)
  | none => .error ⟨.badBodyLength, fs⟩
  | some s =>
    match readField s with
    | .truncated => .error ⟨.truncated, fs⟩
    | .malformed => .error ⟨.malformed, fs⟩
    | .field f _ =>
      if f.number ≠ 10 then .error ⟨.badBodyLength, fs⟩
      else if u32 f.value.length ≠ 3 then .error ⟨.malformed, fs⟩
      else if ¬ DigitsAt b (u32 ((wire fs).length + f.tag.length + 1)) then
        .error ⟨.malformed, fs⟩
      else if fs.length ≥ kMaxFields then .error ⟨.tableFull, fs⟩
      else .ok (fs ++ [f])

/-- The body after the headers. -/
def readRest (h : Head) : Read (List Field × Option (List Byte)) :=
  if h.bodyLen < h.f35.size then .ok (h.fields, none)
  else readBody h.fields (h.bodyLen - h.f35.size) h.rest

/-- What the scalar scanner reads of a buffer. -/
def read (b : Buffer) : Reading := .ofRead do
  let h ← readHead b
  let (fs, e) ← readRest h
  readEnding b fs e

end ScalarScanner

/-! ## The AVX2 scanner -/

namespace Avx2Scanner

/-- Pass 2: the pieces of the window as body fields. -/
def readPieces (fs : List Field) : List (List Byte) → Read (List Field)
  | [] => .ok fs
  | s :: ss =>
    if fs.length ≥ kMaxFields then .error ⟨.tableFull, fs⟩
    else match readPiece s with
      | none => .error ⟨.malformed, fs⟩
      | some f =>
        if f.number = 95 ∨ f.number = 96 then .error ⟨.fallbackRequested, fs⟩
        else readPieces (fs ++ [f]) ss

/-- The checksum field, from the last piece `s` of the window. -/
def readTrailer (bodyEnd : ℕ) (fs : List Field) (s : List Byte) : Read (List Field) :=
  if (wire fs).length ≠ bodyEnd then .error ⟨.badBodyLength, fs⟩
  else if s.length ≠ 6 then .error ⟨.badBodyLength, fs⟩
  else match strip [ch '1', ch '0', ch '='] s with
    | none => .error ⟨.badBodyLength, fs⟩
    | some d =>
      if ¬ ∀ c ∈ d, IsDigit c then .error ⟨.malformed, fs⟩
      else if fs.length ≥ kMaxFields then .error ⟨.tableFull, fs⟩
      else .ok (fs ++ [⟨[ch '1', ch '0'], d⟩])

/-- The window of pass 1: from the first byte after tag 35 to the end of a
    seven-byte trailer. -/
def window (h : Head) : List Byte := h.rest.take (h.bodyLen + 7 - h.f35.size)

theorem window_append_drop (h : Head) :
    window h ++ h.rest.drop (h.bodyLen + 7 - h.f35.size) = h.rest := List.take_append_drop _ _

/-- The message after the headers. -/
def readRest (h : Head) : Read (List Field) :=
  let ps := pieces SOH (window h)
  if ps.length > kMaxFields then .error ⟨.tableFull, h.fields⟩
  else match ps.getLast? with
    | none => .error ⟨.badBodyLength, h.fields⟩
    | some s => do
      let fs ← readPieces h.fields ps.dropLast
      readTrailer h.bodyEnd fs s

/-- What the AVX2 scanner reads of a buffer. -/
def read (b : Buffer) : Reading := .ofRead do
  let h ← readHead b
  readRest h

end Avx2Scanner

/-! ## What the readers accept -/

theorem strip_some {pat s t : List Byte} : strip pat s = some t ↔ s = pat ++ t := by
  unfold strip
  constructor
  · intro h
    split at h
    · rename_i hp
      simp only [Option.some.injEq] at h
      rw [← h]; conv_lhs => rw [← List.take_append_drop pat.length s, hp]
    · cases h
  · rintro rfl; simp

theorem strip_append {pat s : List Byte} (h : pat.length ≤ s.length) (t : List Byte) :
    strip pat (s ++ t) = (strip pat s).map (· ++ t) := by
  unfold strip
  rw [List.take_append_of_le_length h, List.drop_append_of_le_length h]
  split <;> rfl

theorem readPiece_some {s : List Byte} {f : Field} :
    readPiece s = some f ↔ s = f.tag ++ ch '=' :: f.value ∧ Tag f.tag := by
  unfold readPiece
  constructor
  · intro h
    split at h
    · cases h
    · rename_i t v hc
      split at h
      · rename_i ht
        simp only [Option.some.injEq] at h; subst h
        exact ⟨(cut_some.1 hc).1, ht⟩
      · cases h
  · rintro ⟨rfl, ht⟩
    rw [cut_append ht.1.eq_notMem]
    simp [ht]

theorem readField_field {s t : List Byte} {f : Field} :
    readField s = .field f t ↔ s = f.bytes ++ t ∧ Tag f.tag ∧ SOH ∉ f.value := by
  unfold readField
  constructor
  · intro h
    split at h
    · rename_i p t' hc
      split at h
      · rename_i f' hp
        simp only [FieldRead.field.injEq] at h
        obtain ⟨rfl, rfl⟩ := h
        obtain ⟨rfl, hs⟩ := cut_some.1 hc
        obtain ⟨rfl, ht⟩ := readPiece_some.1 hp
        refine ⟨by simp [Field.bytes], ht, fun hm => hs (by simp [hm])⟩
      · cases h
    · split at h <;> cases h
  · rintro ⟨rfl, ht, hv⟩
    have hc : cut SOH (f.bytes ++ t) = some (f.piece, t) := by
      rw [← cut_append (ht.piece_open hv) t, f.bytes_eq, List.append_assoc]; rfl
    have hp : readPiece f.piece = some f := readPiece_some.2 ⟨rfl, ht⟩
    rw [hc]
    simp only [hp]

theorem readField_truncated {s : List Byte} :
    readField s = .truncated ↔ SOH ∉ s ∧ OpenField s := by
  unfold readField
  constructor
  · intro h
    split at h
    · split at h <;> cases h
    · rename_i hc
      split at h
      · rename_i ho; exact ⟨cut_none.1 hc, ho⟩
      · cases h
  · rintro ⟨hs, ho⟩
    simp [cut_none.2 hs, ho]

/-- What stands before the first `=` is no tag: the field is malformed,
    complete or not. -/
theorem readField_badTag {tg : List Byte} (htg : ch '=' ∉ tg) (ht : ¬ Tag tg) (w : List Byte) :
    readField (tg ++ ch '=' :: w) = .malformed := by
  have heq := cut_append htg w
  rcases hsoh : cut SOH (tg ++ ch '=' :: w) with _ | ⟨q, t⟩
  · simp [readField, hsoh, OpenField, heq, ht]
  · rcases hp : readPiece q with _ | f
    · simp [readField, hsoh, hp]
    · obtain ⟨rfl, hf⟩ := readPiece_some.1 hp
      have he := (cut_some.1 hsoh).1
      simp only [List.append_assoc, List.cons_append] at he
      exact absurd ((cut_unique htg hf.1.eq_notMem he).1 ▸ hf) ht

end SwiftFIX
