/-
  The scanner headers: the size check, tags 8 and 9, the body bounds check and
  tag 35.  `scanner_scalar.cpp` and `scanner_avx2.cpp` run the same statements
  here, up to `p++` against `++p`.

  `[p, end)` is `b.drop p`; a loop bounded by `end` recurses on that list.
-/
import SwiftFIX.Index

namespace SwiftFIX

/-- `while (p < end && *p != 0x01) p++;`, from `p` with `[p, end)` given. -/
def skipValue (p : ℕ) : List Byte → ℕ
  | [] => p
  | c :: s => if c = SOH then p else skipValue (p + 1) s

/-- A digit loop `while (p < bound && *p != stop)`: it accumulates a decimal
    number in 32 bits, and rejects (`none`, `return Malformed`) a byte that is
    no digit, or a digit after an accumulator above the guard. -/
def digitLoop (stop : Byte) (p acc : ℕ) : List Byte → Option (ℕ × ℕ)
  | [] => some (p, acc)
  | c :: s =>
    if c = stop then some (p, acc)
    else if !isDigit c then none
    else if acc > (UINT32_MAX - 9) / 10 then none
    else digitLoop stop (p + 1) (u32 (acc * 10 + (c.toNat - 48))) s

/-- Tag 8: `8=`, the value up to its SOH, the first entry. -/
def scanTag8 (b : Buffer) (out : FieldIndex) : Scan (ℕ × FieldIndex) := do
  let found ← matchesAt b 0 [ch '8', ch '=']
  if !found then .error (.ret .badHeader out)
  else
    let p := skipValue 2 (b.drop 2)
    if p = b.length then .error (.ret .truncated out)
    else do
      let out := { out with beginStringIdx := out.slot }
      let out ← out.push ⟨u32 0, u32 2, u32 p, 8⟩
      .ok (p + 1, out)

/-- Tag 9 at `p`: `9=`, the declared body length, the second entry. -/
def scanTag9 (b : Buffer) (p : ℕ) (out : FieldIndex) : Scan (ℕ × ℕ × FieldIndex) :=
  if b.length - p < 2 then .error (.ret .truncated out)
  else do
    let found ← matchesAt b p [ch '9', ch '=']
    if !found then .error (.ret .badHeader out)
    else
      match digitLoop SOH (p + 2) 0 (b.drop (p + 2)) with
      | none => .error (.ret .malformed out)
      | some (q, bodyLen) =>
        if q = b.length then .error (.ret .truncated out)
        else if q = p + 2 then .error (.ret .malformed out)
        else do
          let out := { out with bodyLengthIdx := out.slot, declaredBodyLength := bodyLen }
          let out ← out.push ⟨u32 p, u32 (p + 2), u32 q, 9⟩
          .ok (q + 1, bodyLen, out)

/-- The body bounds check at `p`: the declared body and a trailer of at least
    seven bytes lie within the buffer.  Gives the offset of the body's end. -/
def bodyBounds (b : Buffer) (p bodyLen : ℕ) (out : FieldIndex) : Scan ℕ := do
  let remaining ← sizeSub b.length p
  if bodyLen > remaining then .error (.ret .truncated out)
  else do
    let left ← sizeSub remaining bodyLen
    if left < 7 then .error (.ret .truncated out) else .ok (p + bodyLen)

/-- Tag 35 at `p`: `35=`, the value up to its SOH, the third entry. -/
def scanTag35 (b : Buffer) (p : ℕ) (out : FieldIndex) : Scan (ℕ × FieldIndex) :=
  if b.length - p < 3 then .error (.ret .truncated out)
  else do
    let found ← matchesAt b p [ch '3', ch '5', ch '=']
    if !found then .error (.ret .badHeader out)
    else
      let q := skipValue (p + 3) (b.drop (p + 3))
      if q = b.length then .error (.ret .truncated out)
      else do
        let out := { out with msgTypeIdx := out.slot }
        let out ← out.push ⟨u32 p, u32 (p + 3), u32 q, 35⟩
        .ok (q + 1, out)

/-- The headers, up to the first byte after the tag 35 field: its offset, the
    offset of the body's end, and the index with three entries. -/
def scanHeaders (b : Buffer) (out : FieldIndex) : Scan (ℕ × ℕ × FieldIndex) :=
  let out := out.reset
  if b.length < 12 then .error (.ret .truncated out)
  else do
    let (p, out) ← scanTag8 b out
    let (p, bodyLen, out) ← scanTag9 b p out
    let bodyEnd ← bodyBounds b p bodyLen out
    let (p, out) ← scanTag35 b p out
    .ok (p, bodyEnd, out)

end SwiftFIX
