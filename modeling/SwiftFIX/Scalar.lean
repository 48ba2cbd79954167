/-
  The scalar reference scanner (`scanner_scalar.cpp`): after the headers, the
  fields of the body one by one, each scanned up to the end of the buffer, then
  the checksum field with the same field parser.
-/
import SwiftFIX.Headers

namespace SwiftFIX
namespace ScalarScanner

/-- The result of `scan_one_field`; on `ok`, the filled entry and the offset
    just past the field. -/
inductive FieldScan where
  | ok (entry : FieldEntry) (p : ℕ)
  | truncated
  | malformed
  deriving DecidableEq, Repr

/-- The tag loop of `scan_one_field`: it stops at `=` or at the end of the
    buffer with the accumulated tag, and rejects as `digitLoop` does. -/
def tagLoop (p tag : ℕ) : List Byte → Option (ℕ × ℕ)
  | [] => some (p, tag)
  | c :: s =>
    if isDigit c then
      if tag > (UINT32_MAX - 9) / 10 then none
      else tagLoop (p + 1) (u32 (tag * 10 + (c.toNat - 48))) s
    else if c = ch '=' then some (p, tag)
    else none

/-- `scan_one_field(p, end, base, entry)`. -/
def scanOneField (b : Buffer) (p : ℕ) : FieldScan :=
  match tagLoop p 0 (b.drop p) with
  | none => .malformed
  | some (q, tag) =>
    if q = b.length then .truncated
    else if q = p then .malformed
    else if tag = 0 then .malformed
    else
      let r := skipValue (q + 1) (b.drop (q + 1))
      if r = b.length then .truncated
      else .ok ⟨u32 p, u32 (q + 1), u32 r, tag⟩ (r + 1)

/-- The main body loop `while (p < body_end_ptr)`.  Every round fills an entry
    or ends the call, so `kMaxFields + 1` rounds are never used up. -/
def bodyLoop (b : Buffer) (bodyEnd : ℕ) : ℕ → ℕ → FieldIndex → Scan (ℕ × FieldIndex)
  | 0, _, _ => .error .stuck
  | fuel + 1, p, out =>
    if p < bodyEnd then
      if out.fieldCount ≥ kMaxFields then .error (.ret .tableFull out)
      else match scanOneField b p with
        | .truncated => .error (.ret .truncated out)
        | .malformed => .error (.ret .malformed out)
        | .ok entry q =>
          if entry.tagNumber = 95 ∨ entry.tagNumber = 96 then
            .error (.ret .fallbackRequested out)
          else do
            let out ← out.push entry
            bodyLoop b bodyEnd fuel q out
    else .ok (p, out)

/-- The end of the scan: `p` is the body's end, and a checksum field of three
    digits follows. -/
def checkEnding (b : Buffer) (bodyEnd p : ℕ) (out : FieldIndex) : Scan FieldIndex :=
  if p ≠ bodyEnd then .error (.ret .badBodyLength out)
  else match scanOneField b p with
    | .truncated => .error (.ret .truncated out)
    | .malformed => .error (.ret .malformed out)
    | .ok entry q =>
      if entry.tagNumber ≠ 10 then .error (.ret .badBodyLength out)
      else if u32Sub entry.valueEnd entry.valueStart ≠ 3 then .error (.ret .malformed out)
      else do
        let digits ← threeDigitsAt b entry.valueStart
        if !digits then .error (.ret .malformed out)
        else if out.fieldCount ≥ kMaxFields then .error (.ret .tableFull out)
        else do
          let out := { out with checksumIdx := out.slot }
          let out ← out.push entry
          .ok { out with frameLength := u32 q }

/-- The scan: the headers, the body and its end. -/
def scanBody (b : Buffer) (out : FieldIndex) : Scan FieldIndex := do
  let (p, bodyEnd, out) ← scanHeaders b out
  let (p, out) ← bodyLoop b bodyEnd (kMaxFields + 1) p out
  checkEnding b bodyEnd p out

/-- `ScalarScanner::scan(buffer, out)`. -/
def scan (b : Buffer) (out : FieldIndex) : Outcome := .ofScan (scanBody b out)

end ScalarScanner
end SwiftFIX
