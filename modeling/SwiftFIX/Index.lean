/-
  The data the pre-parser works on: the raw buffer (`field_index.hpp`,
  `status.hpp`), the reused `FieldIndex` the scanners fill, and the outcome of
  a scanner call.

  A scanner runs as a computation with early exits (`Scan`): it leaves through
  `return status` with the index as filled so far, or is `stuck` where the C++
  program would read outside the buffer or an array, write outside one, or let
  an unsigned subtraction drop below zero.  Pointers into the buffer are
  offsets from its start; `std::size_t` values are natural numbers (all of
  them are at most `buffer.size()`), `std::uint32_t` values are natural
  numbers that every cast and every addition reduces modulo `2^32`.
-/
import Mathlib.Tactic.Common
import Mathlib.Algebra.Order.Ring.Nat
import Mathlib.Data.List.Basic
import Mathlib.Data.Int.Notation

namespace SwiftFIX

/-! ## Bytes and machine integers -/

/-- `std::byte`. -/
abbrev Byte := UInt8

/-- A raw buffer, `std::span<const std::byte>`. -/
abbrev Buffer := List Byte

/-- The byte of a character literal of the source. -/
abbrev ch (c : Char) : Byte := c.toUInt8

/-- The bytes of an ASCII string. -/
def ascii (s : List Char) : List Byte := s.map ch

/-- The field terminator `0x01`. -/
def SOH : Byte := 0x01

/-- `UINT32_MAX`. -/
def UINT32_MAX : ℕ := 4294967295

/-- `static_cast<std::uint32_t>(n)`. -/
def u32 (n : ℕ) : ℕ := n % 2 ^ 32

/-- The difference `a - b` of two `std::uint32_t` values. -/
def u32Sub (a b : ℕ) : ℕ := u32 (a + 2 ^ 32 - b)

/-- `is_digit(c)`: `(c - '0') <= 9u` on `unsigned`, where a byte below `'0'`
    wraps around. -/
def isDigit (c : Byte) : Bool := decide (c.toUInt32 - 48 ≤ 9)

/-- A test of all elements of a list goes through the list, also where the type
    of the elements is finite. -/
instance (priority := 2000) decidableForallMem {α : Type} {p : α → Prop} [DecidablePred p]
    (l : List α) : Decidable (∀ c ∈ l, p c) := List.decidableBAll p l

/-! ## The field index -/

/-- Offsets of one field within the buffer, and its tag. -/
structure FieldEntry where
  /-- offset of the first tag-digit byte -/
  tagStart : ℕ
  /-- offset of the first value byte -/
  valueStart : ℕ
  /-- offset of the SOH terminating the value -/
  valueEnd : ℕ
  tagNumber : ℕ
  deriving DecidableEq, Repr, Inhabited

/-- `kMaxFields`: the slots of the field table. -/
def kMaxFields : ℕ := 256

/-- The reused output object.  Its array always has `kMaxFields` slots, of
    which the first `fieldCount` are populated and the others hold whatever an
    earlier call left there. -/
structure FieldIndex where
  beginStringIdx : ℤ
  bodyLengthIdx : ℤ
  msgTypeIdx : ℤ
  checksumIdx : ℤ
  declaredBodyLength : ℕ
  frameLength : ℕ
  fieldCount : ℕ
  fields : Vector FieldEntry kMaxFields

/-- A default-constructed index. -/
def FieldIndex.fresh : FieldIndex where
  beginStringIdx := -1
  bodyLengthIdx := -1
  msgTypeIdx := -1
  checksumIdx := -1
  declaredBodyLength := 0
  frameLength := 0
  fieldCount := 0
  fields := Vector.replicate kMaxFields ⟨0, 0, 0, 0⟩

/-- `reset()` clears the scalars and leaves the old entries in place. -/
def FieldIndex.reset (out : FieldIndex) : FieldIndex :=
  { out with
    beginStringIdx := -1, bodyLengthIdx := -1, msgTypeIdx := -1, checksumIdx := -1,
    declaredBodyLength := 0, frameLength := 0, fieldCount := 0 }

/-- The part of an index a caller may read: the seven scalars and the
    populated entries. -/
structure IndexView where
  beginStringIdx : ℤ
  bodyLengthIdx : ℤ
  msgTypeIdx : ℤ
  checksumIdx : ℤ
  declaredBodyLength : ℕ
  frameLength : ℕ
  fieldCount : ℕ
  entries : List FieldEntry
  deriving DecidableEq, Repr

/-- The populated entries. -/
def FieldIndex.entries (out : FieldIndex) : List FieldEntry := out.fields.toList.take out.fieldCount

/-- What a caller sees of the index. -/
def FieldIndex.view (out : FieldIndex) : IndexView where
  beginStringIdx := out.beginStringIdx
  bodyLengthIdx := out.bodyLengthIdx
  msgTypeIdx := out.msgTypeIdx
  checksumIdx := out.checksumIdx
  declaredBodyLength := out.declaredBodyLength
  frameLength := out.frameLength
  fieldCount := out.fieldCount
  entries := out.entries

/-! ## Outcomes -/

/-- `ScanStatus`. -/
inductive ScanStatus where
  | ok
  | truncated
  | malformed
  | badHeader
  | badBodyLength
  | fallbackRequested
  | tableFull
  deriving DecidableEq, Repr

/-- How a scanner call ends. -/
inductive Outcome where
  /-- `return status`, with the index as it is then -/
  | ret (status : ScanStatus) (out : FieldIndex)
  /-- undefined behaviour -/
  | stuck

/-- A stretch of scanner code: it goes on with a value or ends the call. -/
abbrev Scan (α : Type) := Except Outcome α

/-- The end of a scanner body: `return ScanStatus::Ok` with the final index. -/
def Outcome.ofScan : Scan FieldIndex → Outcome
  | .ok out => .ret .ok out
  | .error e => e

/-- What the caller sees of a call: the status and the index. -/
def Outcome.result : Outcome → Option (ScanStatus × IndexView)
  | .ret status out => some (status, out.view)
  | .stuck => none

/-! ## Elementary steps -/

/-- The read `base[i]`. -/
def byteAt (b : Buffer) (i : ℕ) : Scan Byte :=
  match b[i]? with
  | some c => .ok c
  | none => .error .stuck

/-- `base[p] == c₀ && base[p + 1] == c₁ && …`, left to right. -/
def matchesAt (b : Buffer) : ℕ → List Byte → Scan Bool
  | _, [] => .ok true
  | p, c :: cs => do
    let x ← byteAt b p
    if x = c then matchesAt b (p + 1) cs else .ok false

/-- `is_digit` of the three bytes at `v`, left to right. -/
def threeDigitsAt (b : Buffer) (v : ℕ) : Scan Bool := do
  let x ← byteAt b v
  if !isDigit x then .ok false
  else do
    let y ← byteAt b (v + 1)
    if !isDigit y then .ok false
    else do
      let z ← byteAt b (v + 2)
      .ok (isDigit z)

/-- The `std::size_t` subtraction `a - b`. -/
def sizeSub (a b : ℕ) : Scan ℕ := if b ≤ a then .ok (a - b) else .error .stuck

/-- `out.fields[out.field_count++] = e`. -/
def FieldIndex.push (out : FieldIndex) (e : FieldEntry) : Scan FieldIndex :=
  if h : out.fieldCount < kMaxFields then
    .ok { out with fields := out.fields.set out.fieldCount e h, fieldCount := out.fieldCount + 1 }
  else .error .stuck

/-- The slot value `static_cast<std::int32_t>(out.field_count)`. -/
def FieldIndex.slot (out : FieldIndex) : ℤ := out.fieldCount

/-! ## Lemmas -/

theorem isDigit_iff {c : Byte} : isDigit c = true ↔ 48 ≤ c.toNat ∧ c.toNat ≤ 57 := by
  have h := c.toNat_lt
  simp only [isDigit, decide_eq_true_eq, UInt32.le_iff_toNat_le, UInt32.toNat_sub,
    UInt8.toNat_toUInt32]
  simp only [UInt32.toNat_ofNat]
  omega

theorem u32_of_lt {n : ℕ} (h : n < 2 ^ 32) : u32 n = n := Nat.mod_eq_of_lt h

theorem u32_le (n : ℕ) : u32 n ≤ n := Nat.mod_le _ _

theorem map_u32_of_lt {offs : List ℕ} (h : ∀ k ∈ offs, k < 2 ^ 32) : offs.map u32 = offs := by
  conv_rhs => rw [← List.map_id offs]
  exact List.map_congr_left fun k hk => u32_of_lt (h k hk)

/-- An offset may be narrowed before it is added to. -/
theorem u32_add (n k : ℕ) : u32 (u32 n + k) = u32 (n + k) := Nat.mod_add_mod _ _ _

theorem u32Sub_u32 {a b : ℕ} (h : b ≤ a) : u32Sub (u32 a) (u32 b) = u32 (a - b) := by
  simp only [u32Sub, u32]; omega

theorem byteAt_eq {b : Buffer} {i : ℕ} {c : Byte} (h : b[i]? = some c) : byteAt b i = .ok c := by
  simp [byteAt, h]

theorem FieldIndex.push_eq {out : FieldIndex} (e : FieldEntry) (h : out.fieldCount < kMaxFields) :
    ∃ out', out.push e = .ok out' ∧
      out'.view = { out.view with
        fieldCount := out.fieldCount + 1, entries := out.entries ++ [e] } := by
  refine ⟨_, by rw [push, dif_pos h], ?_⟩
  have hl : out.fieldCount < out.fields.toList.length := by simpa using h
  simp only [FieldIndex.view, FieldIndex.entries, Vector.toList_set, IndexView.mk.injEq, true_and]
  rw [List.take_add_one, List.take_set_of_le (Nat.le_refl _), List.getElem?_set_self hl]
  rfl

end SwiftFIX
