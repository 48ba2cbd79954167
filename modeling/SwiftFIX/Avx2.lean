/-
  The AVX2 scanner (`scanner_avx2.cpp`): after the headers, one pass that
  collects the offset of every SOH up to the end of a seven-byte trailer, then a
  second pass that parses the fields between consecutive SOHs.

  The intrinsics are modelled by their effect on one 32-byte window: bit `k` of
  `movemask(cmpeq(v, 0x01))` is set iff byte `k` of the window is `0x01`.
-/
import SwiftFIX.Headers

namespace SwiftFIX
namespace Avx2Scanner

/-! ## Pass 1 -/

/-- The number whose bit `k` is set iff byte `k` is SOH. -/
def sohBits : List Byte → ℕ
  | [] => 0
  | c :: s => (if c = SOH then 1 else 0) + 2 * sohBits s

/-- `_mm256_movemask_epi8(_mm256_cmpeq_epi8(v, soh_target))`. -/
def movemask (v : List Byte) : BitVec 32 := BitVec.ofNat 32 (sohBits v)

/-- `_mm256_loadu_si256(q)`: the 32 bytes at `q`. -/
def loadWindow (b : Buffer) (q : ℕ) : Scan (List Byte) :=
  if q + 32 ≤ b.length then .ok ((b.drop q).take 32) else .error .stuck

/-- `sohs[soh_count++] = off`; the written part of `sohs` is the list. -/
def pushSoh (sohs : List ℕ) (off : ℕ) : Scan (List ℕ) :=
  if sohs.length < kMaxFields then .ok (sohs ++ [off]) else .error .stuck

/-- `while (m)`: record the offset of the lowest set bit and clear it.  A mask
    has at most 32 bits to clear. -/
def maskLoop (out : FieldIndex) (baseOff : ℕ) : ℕ → BitVec 32 → List ℕ → Scan (List ℕ)
  | 0, m, sohs => if m = 0 then .ok sohs else .error .stuck
  | fuel + 1, m, sohs =>
    if m = 0 then .ok sohs
    else if sohs.length ≥ kMaxFields then .error (.ret .tableFull out)
    else do
      let sohs ← pushSoh sohs (u32 (baseOff + m.ctz.toNat))
      maskLoop out baseOff fuel (m &&& (m - 1)) sohs

/-- `while (scan_end_ptr - q >= 32)`: one window a round. -/
def windowLoop (b : Buffer) (out : FieldIndex) (scanEnd : ℕ) :
    ℕ → ℕ → List ℕ → Scan (ℕ × List ℕ)
  | 0, _, _ => .error .stuck
  | fuel + 1, q, sohs =>
    if scanEnd - q ≥ 32 then do
      let v ← loadWindow b q
      let sohs ← maskLoop out (u32 q) 32 (movemask v) sohs
      windowLoop b out scanEnd fuel (q + 32) sohs
    else .ok (q, sohs)

/-- `while (q < scan_end_ptr)`, over the `n` bytes left. -/
def tailLoop (b : Buffer) (out : FieldIndex) : ℕ → ℕ → List ℕ → Scan (List ℕ)
  | 0, _, sohs => .ok sohs
  | n + 1, q, sohs => do
    let c ← byteAt b q
    if c = SOH then
      if sohs.length ≥ kMaxFields then .error (.ret .tableFull out)
      else do
        let sohs ← pushSoh sohs (u32 q)
        tailLoop b out n (q + 1) sohs
    else tailLoop b out n (q + 1) sohs

/-- Pass 1 over `[p, scanEnd)`: the SOH offsets. -/
def pass1 (b : Buffer) (out : FieldIndex) (p scanEnd : ℕ) : Scan (List ℕ) := do
  let (q, sohs) ← windowLoop b out scanEnd (scanEnd - p + 1) p []
  tailLoop b out (scanEnd - q) q sohs

/-! ## Pass 2 -/

/-- `sohs[i]`, of the written part. -/
def sohAt (sohs : List ℕ) (i : ℕ) : Scan ℕ :=
  match sohs[i]? with
  | some off => .ok off
  | none => .error .stuck

/-- The tag loop `while (tp < se && *tp != '=')`, over the `n` bytes up to
    `se`; `return Malformed` leaves through the exit. -/
def tagLoop (b : Buffer) (out : FieldIndex) : ℕ → ℕ → ℕ → Scan (ℕ × ℕ)
  | 0, tp, tag => .ok (tp, tag)
  | n + 1, tp, tag => do
    let c ← byteAt b tp
    if c = ch '=' then .ok (tp, tag)
    else if !isDigit c then .error (.ret .malformed out)
    else if tag > (UINT32_MAX - 9) / 10 then .error (.ret .malformed out)
    else tagLoop b out n (tp + 1) (u32 (tag * 10 + (c.toNat - 48)))

/-- The body of pass 2's loop: the field from `fs` up to the SOH at `se`. -/
def scanField (b : Buffer) (fs se : ℕ) (out : FieldIndex) : Scan FieldIndex := do
  let (tp, tag) ← tagLoop b out (se - fs) fs 0
  if tp = se then .error (.ret .malformed out)
  else if tp = fs then .error (.ret .malformed out)
  else if tag = 0 then .error (.ret .malformed out)
  else if tag = 95 ∨ tag = 96 then .error (.ret .fallbackRequested out)
  else out.push ⟨fs, u32 (u32 tp + 1), se, tag⟩

/-- `for (i = 0; i + 1 < soh_count; ++i)`, with `n` rounds left: every SOH but
    the last ends a field. -/
def fieldLoop (b : Buffer) (sohs : List ℕ) : ℕ → ℕ → ℕ → FieldIndex → Scan (ℕ × FieldIndex)
  | 0, _, fs, out => .ok (fs, out)
  | n + 1, i, fs, out =>
    if out.fieldCount ≥ kMaxFields then .error (.ret .tableFull out)
    else do
      let se ← sohAt sohs i
      let out ← scanField b fs se out
      fieldLoop b sohs n (i + 1) (u32 (se + 1)) out

/-- The end of the scan: the body ends where the last field starts, and that
    field is exactly `10=NNN<SOH>`. -/
def checkTrailer (b : Buffer) (bodyEnd fs cksumSoh : ℕ) (out : FieldIndex) : Scan FieldIndex :=
  if fs ≠ u32 bodyEnd then .error (.ret .badBodyLength out)
  else if cksumSoh ≠ u32 (u32 bodyEnd + 6) then .error (.ret .badBodyLength out)
  else do
    let found ← matchesAt b bodyEnd [ch '1', ch '0', ch '=']
    if !found then .error (.ret .badBodyLength out)
    else do
      let digits ← threeDigitsAt b (bodyEnd + 3)
      if !digits then .error (.ret .malformed out)
      else if out.fieldCount ≥ kMaxFields then .error (.ret .tableFull out)
      else do
        let out := { out with checksumIdx := out.slot }
        let out ← out.push ⟨u32 bodyEnd, u32 (u32 bodyEnd + 3), cksumSoh, 10⟩
        .ok { out with frameLength := u32 (cksumSoh + 1) }

/-- Both passes and the end, after the headers: `p` is the first byte after
    tag 35. -/
def scanPasses (b : Buffer) (p bodyEnd : ℕ) (out : FieldIndex) : Scan FieldIndex := do
  let sohs ← pass1 b out p (bodyEnd + 7)
  if sohs.length = 0 then .error (.ret .badBodyLength out)
  else do
    let (fs, out) ← fieldLoop b sohs (sohs.length - 1) 0 (u32 p) out
    let cksumSoh ← sohAt sohs (sohs.length - 1)
    checkTrailer b bodyEnd fs cksumSoh out

/-- The scan: the headers, then the two passes over the body. -/
def scanBody (b : Buffer) (out : FieldIndex) : Scan FieldIndex := do
  let (p, bodyEnd, out) ← scanHeaders b out
  scanPasses b p bodyEnd out

/-- `Avx2Scanner::scan(buffer, out)`. -/
def scan (b : Buffer) (out : FieldIndex) : Outcome := .ofScan (scanBody b out)

end Avx2Scanner
end SwiftFIX
