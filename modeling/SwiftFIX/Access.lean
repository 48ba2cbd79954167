/-
  The scanners with every access checked.

  The models in `Headers` and `Scalar` hand a loop the bytes `[p, end)` as a
  list.  Here the loops of the source read through the pointer, byte by byte, so
  that every access of a call passes a check and a call that fails one is
  `stuck`:

  * `byteAt` and `loadWindow`: reads of the buffer;
  * `FieldIndex.push` and `pushSoh`: writes to `out.fields` and to `sohs`;
  * `sohAt`: reads of `sohs`, of its written part only;
  * `sizeSub`: the unsigned subtractions of the bounds check.

  The checks change nothing (`Scanner.access_eq`), and no call fails one
  (`Scanner.access_safe`).
-/
import SwiftFIX.Safety

namespace SwiftFIX

open Delimited EarlyExit

namespace Access

/-! ## The loops -/

/-- `while (p < end && *p != 0x01) p++;`. -/
def skipValue (b : Buffer) (p : ℕ) : Scan ℕ :=
  if p < b.length then do
    let c ← byteAt b p
    if c = SOH then .ok p else skipValue b (p + 1)
  else .ok p
termination_by b.length - p

/-- The digit loop of tag 9. -/
def digitLoop (b : Buffer) (out : FieldIndex) (p acc : ℕ) : Scan (ℕ × ℕ) :=
  if p < b.length then do
    let c ← byteAt b p
    if c = SOH then .ok (p, acc)
    else if !isDigit c then .error (.ret .malformed out)
    else if acc > (UINT32_MAX - 9) / 10 then .error (.ret .malformed out)
    else digitLoop b out (p + 1) (u32 (acc * 10 + (c.toNat - 48)))
  else .ok (p, acc)
termination_by b.length - p

/-- The tag loop of `scan_one_field`; `none` is `return FieldScan::Malformed`. -/
def tagLoop (b : Buffer) (p tag : ℕ) : Scan (Option (ℕ × ℕ)) :=
  if p < b.length then do
    let c ← byteAt b p
    if isDigit c then
      if tag > (UINT32_MAX - 9) / 10 then .ok none
      else tagLoop b (p + 1) (u32 (tag * 10 + (c.toNat - 48)))
    else if c = ch '=' then .ok (some (p, tag))
    else .ok none
  else .ok (some (p, tag))
termination_by b.length - p

/-! ## The headers -/

/-- Tag 8, with its accesses checked. -/
def scanTag8 (b : Buffer) (out : FieldIndex) : Scan (ℕ × FieldIndex) := do
  let found ← matchesAt b 0 [ch '8', ch '=']
  if !found then .error (.ret .badHeader out)
  else do
    let p ← skipValue b 2
    if p = b.length then .error (.ret .truncated out)
    else do
      let out := { out with beginStringIdx := out.slot }
      let out ← out.push ⟨u32 0, u32 2, u32 p, 8⟩
      .ok (p + 1, out)

/-- Tag 9: the declared length and its delimiter. -/
def scanTag9 (b : Buffer) (p : ℕ) (out : FieldIndex) : Scan (ℕ × ℕ × FieldIndex) :=
  if b.length - p < 2 then .error (.ret .truncated out)
  else do
    let found ← matchesAt b p [ch '9', ch '=']
    if !found then .error (.ret .badHeader out)
    else do
      let (q, bodyLen) ← digitLoop b out (p + 2) 0
      if q = b.length then .error (.ret .truncated out)
      else if q = p + 2 then .error (.ret .malformed out)
      else do
        let out := { out with bodyLengthIdx := out.slot, declaredBodyLength := bodyLen }
        let out ← out.push ⟨u32 p, u32 (p + 2), u32 q, 9⟩
        .ok (q + 1, bodyLen, out)

/-- Tag 35: the value up to the end of the buffer. -/
def scanTag35 (b : Buffer) (p : ℕ) (out : FieldIndex) : Scan (ℕ × FieldIndex) :=
  if b.length - p < 3 then .error (.ret .truncated out)
  else do
    let found ← matchesAt b p [ch '3', ch '5', ch '=']
    if !found then .error (.ret .badHeader out)
    else do
      let q ← skipValue b (p + 3)
      if q = b.length then .error (.ret .truncated out)
      else do
        let out := { out with msgTypeIdx := out.slot }
        let out ← out.push ⟨u32 p, u32 (p + 3), u32 q, 35⟩
        .ok (q + 1, out)

/-- The headers: where the body starts, the declared end and the index. -/
def scanHeaders (b : Buffer) (out : FieldIndex) : Scan (ℕ × ℕ × FieldIndex) :=
  let out := out.reset
  if b.length < 12 then .error (.ret .truncated out)
  else do
    let (p, out) ← scanTag8 b out
    let (p, bodyLen, out) ← scanTag9 b p out
    let bodyEnd ← bodyBounds b p bodyLen out
    let (p, out) ← scanTag35 b p out
    .ok (p, bodyEnd, out)

/-! ## The scalar scanner -/

open ScalarScanner (FieldScan)

/-- `scan_one_field`, with every read in the buffer. -/
def scanOneField (b : Buffer) (p : ℕ) : Scan FieldScan := do
  match ← tagLoop b p 0 with
  | none => .ok .malformed
  | some (q, tag) =>
    if q = b.length then .ok .truncated
    else if q = p then .ok .malformed
    else if tag = 0 then .ok .malformed
    else do
      let r ← skipValue b (q + 1)
      if r = b.length then .ok .truncated
      else .ok (.ok ⟨u32 p, u32 (q + 1), u32 r, tag⟩ (r + 1))

/-- The loop over the body, as `ScalarScanner.bodyLoop`. -/
def bodyLoop (b : Buffer) (bodyEnd : ℕ) : ℕ → ℕ → FieldIndex → Scan (ℕ × FieldIndex)
  | 0, _, _ => .error .stuck
  | fuel + 1, p, out =>
    if p < bodyEnd then
      if out.fieldCount ≥ kMaxFields then .error (.ret .tableFull out)
      else do
        match ← scanOneField b p with
        | .truncated => .error (.ret .truncated out)
        | .malformed => .error (.ret .malformed out)
        | .ok entry q =>
          if entry.tagNumber = 95 ∨ entry.tagNumber = 96 then
            .error (.ret .fallbackRequested out)
          else do
            let out ← out.push entry
            bodyLoop b bodyEnd fuel q out
    else .ok (p, out)

/-- The end of the body and the checksum field. -/
def checkEnding (b : Buffer) (bodyEnd p : ℕ) (out : FieldIndex) : Scan FieldIndex :=
  if p ≠ bodyEnd then .error (.ret .badBodyLength out)
  else do
    match ← scanOneField b p with
    | .truncated => .error (.ret .truncated out)
    | .malformed => .error (.ret .malformed out)
    | .ok entry q =>
      if entry.tagNumber ≠ 10 then .error (.ret .badBodyLength out)
      else if u32Sub entry.valueEnd entry.valueStart ≠ 3 then .error (.ret .malformed out)
      else do
        let digits ← threeDigitsAt b entry.valueStart
        if !digits then .error (.ret .malformed out)
        else if out.fieldCount ≥ kMaxFields then .error (.ret .tableFull out)
        else do
          let out := { out with checksumIdx := out.slot }
          let out ← out.push entry
          .ok { out with frameLength := u32 q }

/-- `ScalarScanner::scan` that is stuck at an access out of bounds. -/
def scanScalar (b : Buffer) (out : FieldIndex) : Outcome := .ofScan do
  let (p, bodyEnd, out) ← scanHeaders b out
  let (p, out) ← bodyLoop b bodyEnd (kMaxFields + 1) p out
  checkEnding b bodyEnd p out

/-! ## The AVX2 scanner -/

/-- After the headers, both passes read through the pointer already. -/
def scanAvx2 (b : Buffer) (out : FieldIndex) : Outcome := .ofScan do
  let (p, bodyEnd, out) ← scanHeaders b out
  Avx2Scanner.scanPasses b p bodyEnd out

/-! ## The checks change nothing -/

variable {b : Buffer} {out : FieldIndex}

theorem byteAt_drop {p : ℕ} (h : p < b.length) :
    ∃ c, byteAt b p = .ok c ∧ b.drop p = c :: b.drop (p + 1) :=
  ⟨b[p], byteAt_eq (List.getElem?_eq_getElem h), List.drop_eq_getElem_cons h⟩

theorem skipValue_eq (p : ℕ) : skipValue b p = .ok (SwiftFIX.skipValue p (b.drop p)) := by
  fun_induction skipValue b p with
  | case1 p hp ih =>
    obtain ⟨c, hc, hd⟩ := byteAt_drop hp
    rw [hc, hd, ok_bind, SwiftFIX.skipValue]
    by_cases h : c = SOH
    · rw [if_pos h, if_pos h]
    · rw [if_neg h, if_neg h, ih]
  | case2 p hp => rw [List.drop_eq_nil_of_le (not_lt.1 hp), SwiftFIX.skipValue]

theorem digitLoop_eq (p acc : ℕ) :
    digitLoop b out p acc =
      match SwiftFIX.digitLoop SOH p acc (b.drop p) with
      | none => .error (.ret .malformed out)
      | some r => .ok r := by
  fun_induction digitLoop b out p acc with
  | case1 p acc hp ih =>
    obtain ⟨c, hc, hd⟩ := byteAt_drop hp
    rw [hc, hd, ok_bind, SwiftFIX.digitLoop]
    by_cases h : c = SOH
    · rw [if_pos h, if_pos h]
    rw [if_neg h, if_neg h]
    by_cases hdig : !isDigit c
    · rw [if_pos hdig, if_pos hdig]
    rw [if_neg hdig, if_neg hdig]
    by_cases hbig : acc > (UINT32_MAX - 9) / 10
    · rw [if_pos hbig, if_pos hbig]
    · rw [if_neg hbig, if_neg hbig, ih]
  | case2 p acc hp => rw [List.drop_eq_nil_of_le (not_lt.1 hp), SwiftFIX.digitLoop]

theorem tagLoop_eq (p tag : ℕ) : tagLoop b p tag = .ok (ScalarScanner.tagLoop p tag (b.drop p)) := by
  fun_induction tagLoop b p tag with
  | case1 p tag hp ih =>
    obtain ⟨c, hc, hd⟩ := byteAt_drop hp
    rw [hc, hd, ok_bind, ScalarScanner.tagLoop]
    by_cases hdig : isDigit c
    · rw [if_pos hdig, if_pos hdig]
      by_cases hbig : tag > (UINT32_MAX - 9) / 10
      · rw [if_pos hbig, if_pos hbig]
      · rw [if_neg hbig, if_neg hbig, ih]
    rw [if_neg hdig, if_neg hdig]
    by_cases h : c = ch '='
    · rw [if_pos h, if_pos h]
    · rw [if_neg h, if_neg h]
  | case2 p tag hp => rw [List.drop_eq_nil_of_le (not_lt.1 hp), ScalarScanner.tagLoop]

theorem scanTag8_eq : scanTag8 b out = SwiftFIX.scanTag8 b out := by
  simp only [scanTag8, SwiftFIX.scanTag8, skipValue_eq, ok_bind]

theorem scanTag9_eq (p : ℕ) : scanTag9 b p out = SwiftFIX.scanTag9 b p out := by
  unfold scanTag9 SwiftFIX.scanTag9
  simp only [digitLoop_eq]
  rcases SwiftFIX.digitLoop SOH (p + 2) 0 (b.drop (p + 2)) with _ | ⟨q, bodyLen⟩
  · rfl
  · rfl

theorem scanTag35_eq (p : ℕ) : scanTag35 b p out = SwiftFIX.scanTag35 b p out := by
  simp only [scanTag35, SwiftFIX.scanTag35, skipValue_eq, ok_bind]

theorem scanHeaders_eq : scanHeaders b out = SwiftFIX.scanHeaders b out := by
  simp only [scanHeaders, SwiftFIX.scanHeaders, scanTag8_eq, scanTag9_eq, scanTag35_eq]

theorem scanOneField_eq (p : ℕ) : scanOneField b p = .ok (ScalarScanner.scanOneField b p) := by
  rw [scanOneField, tagLoop_eq, ok_bind, ScalarScanner.scanOneField]
  rcases ScalarScanner.tagLoop p 0 (b.drop p) with _ | ⟨q, tag⟩
  · rfl
  simp only [skipValue_eq, ok_bind]
  split
  · rfl
  split
  · rfl
  split
  · rfl
  split
  · rfl
  · rfl

theorem bodyLoop_eq (bodyEnd fuel : ℕ) :
    ∀ p out, bodyLoop b bodyEnd fuel p out = ScalarScanner.bodyLoop b bodyEnd fuel p out := by
  induction fuel with
  | zero => exact fun _ _ => rfl
  | succ fuel ih =>
    intro p out
    have hfield := scanOneField_eq (b := b) p
    cases hs : ScalarScanner.scanOneField b p <;>
      simp only [bodyLoop, ScalarScanner.bodyLoop, hfield, hs, ok_bind, ih]

theorem checkEnding_eq (bodyEnd p : ℕ) :
    checkEnding b bodyEnd p out = ScalarScanner.checkEnding b bodyEnd p out := by
  have hfield := scanOneField_eq (b := b) p
  cases hs : ScalarScanner.scanOneField b p <;>
    simp only [checkEnding, ScalarScanner.checkEnding, hfield, hs, ok_bind]

end Access

namespace Scanner

/-- A call with every access checked. -/
def access : Scanner → Buffer → FieldIndex → Outcome
  | scalar => Access.scanScalar
  | avx2 => Access.scanAvx2

/-- **The checks change nothing.** -/
theorem access_eq (s : Scanner) (b : Buffer) (out : FieldIndex) :
    s.access b out = s.scan b out := by
  cases s with
  | scalar =>
    simp only [access, Access.scanScalar, Access.scanHeaders_eq, Access.bodyLoop_eq,
      Access.checkEnding_eq]
    rfl
  | avx2 =>
    simp only [access, Access.scanAvx2, Access.scanHeaders_eq]
    rfl

/-- **No access is outside its storage**, on any buffer and whatever the index
    held before: each call passes all its checks and returns, with what the
    scanner returns. -/
theorem access_safe (s : Scanner) (b : Buffer) (out : FieldIndex) :
    ∃ st out', s.access b out = .ret st out' ∧ s.scan b out = .ret st out' := by
  have hsome := s.scan_total b out
  rw [s.access_eq]
  rcases hs : s.scan b out with ⟨st, out'⟩ | _
  · exact ⟨st, out', rfl, rfl⟩
  · rw [hs] at hsome
    cases hsome

end Scanner
end SwiftFIX
