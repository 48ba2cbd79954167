/-
  Which buffers the scanners wait on (`Truncated`), and where they differ.

  Both wait for the headers and for the declared body with its trailer.  After
  that the AVX2 scanner never waits: it looks at the declared window only.  The
  scalar scanner follows a field up to the end of the buffer, and waits when the
  buffer ends inside one (`RunsOut`).
-/
import SwiftFIX.Safety

namespace SwiftFIX

open Decimal Delimited EarlyExit

/-! ## A buffer that ends inside a field -/

/-- The headers `h` and the body fields `gs` are complete and the declared body
    with its trailer is in the buffer, which ends inside a further field `u`
    that begins no later than the declared body ends; the table has room for
    what is read of it. -/
structure RunsOut (b : Buffer) (h : Head) (gs : List Field) (u : List Byte) : Prop where
  headers : h.WellFormed
  bytes : b = wire h.fields ++ h.rest
  long : h.bodyEnd + 7 ≤ b.length
  rest : h.rest = wire gs ++ u
  body : ∀ g ∈ gs, BodyField g
  unended : SOH ∉ u
  field : OpenField u
  inside : h.f35.size + (wire gs).length ≤ h.bodyLen
  room : h.fields.length + gs.length ≤ kMaxFields
  bodyRoom : h.f35.size + (wire gs).length < h.bodyLen → h.fields.length + gs.length < kMaxFields

/-! ## The scalar scanner -/

namespace ScalarScanner

theorem readBody_truncated {left : ℕ} {fs fs' : List Field} {s : List Byte} :
    readBody fs left s = .error ⟨.truncated, fs'⟩ ↔
      ∃ gs u, fs' = fs ++ gs ∧ s = wire gs ++ u ∧ (∀ g ∈ gs, BodyField g) ∧ SOH ∉ u ∧
        OpenField u ∧ (wire gs).length < left ∧ fs'.length < kMaxFields := by
  constructor
  · intro h
    obtain ⟨gs, u, rfl, hgs, hle, -, hstop⟩ := readBody_stops left fs s
    rw [h] at hstop
    cases hstop with
    | truncated inside room next =>
      obtain ⟨hs, ho⟩ := readField_truncated.1 next
      exact ⟨gs, u, rfl, rfl, hgs, hs, ho, by omega, room⟩
  · rintro ⟨gs, u, rfl, rfl, hgs, hs, ho, hlen, hlt⟩
    have hroom := hlt.le
    rw [List.length_append] at hroom
    rw [readBody_skip hgs u hroom hlen.le]
    exact (BodyStop.truncated (by omega) hlt (readField_truncated.2 ⟨hs, ho⟩)).readBody_eq

theorem readEnding_truncated {b : Buffer} {fs fs' : List Field} {x : Option (List Byte)} :
    readEnding b fs x = .error ⟨.truncated, fs'⟩ ↔
      fs' = fs ∧ ∃ s, x = some s ∧ SOH ∉ s ∧ OpenField s := by
  constructor
  · intro h
    unfold readEnding at h
    split at h
    · cases h
    rename_i s
    split at h
    · rename_i hr
      cases h
      exact ⟨rfl, s, rfl, readField_truncated.1 hr⟩
    · cases h
    split at h
    · cases h
    split at h
    · cases h
    split at h
    · cases h
    split at h
    · cases h
    · cases h
  · rintro ⟨rfl, s, rfl, ho⟩
    rw [readEnding, readField_truncated.2 ho]

/-- After the headers, the scanner waits exactly on the buffers that end inside
    a field. -/
theorem readMessage_truncated {b : Buffer} {h : Head} {fs : List Field}
    (hh : readHead b = .ok h) :
    (do let x ← readRest h; readEnding b x.1 x.2) = .error ⟨.truncated, fs⟩ ↔
      ∃ gs u, fs = h.fields ++ gs ∧ RunsOut b h gs u := by
  obtain ⟨hw, hb, hlen⟩ := readHead_ok.1 hh
  constructor
  · intro hr
    unfold readRest at hr
    split at hr
    · cases hr
    rename_i hsize
    rcases hbody : readBody h.fields (h.bodyLen - h.f35.size) h.rest with r | ⟨fs', x⟩
    · rw [hbody] at hr
      cases hr
      obtain ⟨gs, u, rfl, hrest, hgs, hs, ho, hlt, hroom⟩ := readBody_truncated.1 hbody
      rw [List.length_append] at hroom
      exact ⟨gs, u, rfl, hw, hb, hlen, hrest, hgs, hs, ho, by omega, hroom.le, fun _ => hroom⟩
    · rw [hbody] at hr
      obtain ⟨rfl, u, rfl, hs, ho⟩ := readEnding_truncated.1 hr
      obtain ⟨gs, rfl, hrest, hleft, hgs, hroom⟩ := (readBody_ok h.fields_length_le).1 hbody
      rw [List.length_append] at hroom
      exact ⟨gs, u, rfl, hw, hb, hlen, hrest, hgs, hs, ho, by omega, hroom, fun _ => by omega⟩
  · rintro ⟨gs, u, rfl, hro⟩
    have hin := hro.inside
    unfold readRest
    rw [if_neg (by omega)]
    by_cases hend : h.f35.size + (wire gs).length = h.bodyLen
    · have hbody : readBody h.fields (h.bodyLen - h.f35.size) h.rest =
          .ok (h.fields ++ gs, some u) :=
        (readBody_ok h.fields_length_le).2 ⟨gs, rfl, hro.rest, by omega, hro.body,
          by rw [List.length_append]; exact hro.room⟩
      rw [hbody, ok_bind]
      exact readEnding_truncated.2 ⟨rfl, u, rfl, hro.unended, hro.field⟩
    · have hbody : readBody h.fields (h.bodyLen - h.f35.size) h.rest =
          .error ⟨.truncated, h.fields ++ gs⟩ :=
        readBody_truncated.2 ⟨gs, u, rfl, hro.rest, hro.body, hro.unended, hro.field,
          by omega, by rw [List.length_append]; exact hro.bodyRoom (by omega)⟩
      rw [hbody]
      rfl

end ScalarScanner

/-! ## Both scanners -/

theorem Reading.ofRead_truncated {c : Read (List Field)} :
    (Reading.ofRead c).status = .truncated ↔ ∃ fs, c = .error ⟨.truncated, fs⟩ := by
  rcases c with ⟨st, fs⟩ | fs
  · constructor
    · rintro rfl
      exact ⟨fs, rfl⟩
    · rintro ⟨_, h⟩
      cases h
      rfl
  · constructor
    · intro h
      cases h
    · rintro ⟨_, h⟩
      cases h

/-- The headers end the call with `Truncated`. -/
def HeadersWait (b : Buffer) : Prop := ∃ fs, readHead b = .error ⟨.truncated, fs⟩

/-- **The scalar scanner waits** for the headers and the declared body, and on
    a buffer that ends inside a field. -/
theorem ScalarScanner.read_truncated (b : Buffer) :
    (read b).status = .truncated ↔ HeadersWait b ∨ ∃ h gs u, RunsOut b h gs u := by
  refine Reading.ofRead_truncated.trans ?_
  rcases hr : readHead b with r | h
  · simp only [HeadersWait, hr, error_bind, Except.error.injEq]
    constructor
    · exact Or.inl
    · rintro (h | ⟨h, gs, u, hro⟩)
      · exact h
      · rw [readHead_ok.2 ⟨hro.headers, hro.bytes, hro.long⟩] at hr
        cases hr
  · rw [HeadersWait, hr]
    constructor
    · rintro ⟨fs, hfs⟩
      obtain ⟨gs, u, -, hro⟩ := (readMessage_truncated hr).1 hfs
      exact Or.inr ⟨h, gs, u, hro⟩
    · rintro (⟨_, h⟩ | ⟨h', gs, u, hro⟩)
      · cases h
      · rw [readHead_ok.2 ⟨hro.headers, hro.bytes, hro.long⟩] at hr
        cases hr
        have hh := readHead_ok.2 ⟨hro.headers, hro.bytes, hro.long⟩
        exact ⟨_, (readMessage_truncated hh).2 ⟨gs, u, rfl, hro⟩⟩

namespace Scanner

/-- **The scalar scanner's wait**, on the bytes. -/
theorem scalar_truncated (b : Buffer) :
    (Scanner.scalar.verdict b).1 = .truncated ↔ HeadersWait b ∨ ∃ h gs u, RunsOut b h gs u := by
  rw [← ScalarScanner.read_truncated, Scanner.scalar.verdict_reads (fun h => by cases h)]
  rfl

/-- **The AVX2 scanner waits** for the headers and the declared body only. -/
theorem avx2_truncated (b : Buffer) :
    (Scanner.avx2.verdict b).1 = .truncated ↔ HeadersWait b := by
  have hv := Scanner.avx2.result_eq b .fresh
  rcases Avx2Scanner.scan_cases b .fresh with ⟨r, hr, hres⟩ | ⟨h, o, hr, hat, hlen, hres⟩
  · rw [scan, hres, Option.some.injEq] at hv
    rw [HeadersWait, hr, ← hv]
    constructor
    · intro hst
      exact ⟨r.fields, by rw [← hst]⟩
    · rintro ⟨fs, hfs⟩
      cases hfs
      rfl
  · have hp : (wire h.fields).length ≤ b.length := by
      have := hat.length
      omega
    have hsafe : Avx2Scanner.Safe (fun _ => True) (Avx2Scanner.scanPasses b _ _ o) :=
      Avx2Scanner.scanPasses_safe hlen hp
    rw [HeadersWait, hr]
    constructor
    · intro hst
      rw [scan, hres] at hv
      rcases hc : Avx2Scanner.scanPasses b (wire h.fields).length h.bodyEnd o with e | o'
      · rw [hc] at hsafe hv
        obtain ⟨st, out', rfl, hne⟩ := hsafe
        rw [Outcome.ofScan, Outcome.result, Option.some.injEq] at hv
        exact absurd (by rw [← hst, ← hv]) hne
      · rw [hc, Outcome.ofScan, Outcome.result, Option.some.injEq] at hv
        rw [← hv] at hst
        cases hst
    · rintro ⟨fs, hfs⟩
      cases hfs

end Scanner

/-- The scanners agree on waiting for more bytes. -/
def AgreeOnTruncated (b : Buffer) (out out' : FieldIndex) : Prop :=
  (∃ v, (ScalarScanner.scan b out).result = some (.truncated, v)) ↔
    ∃ v, (Avx2Scanner.scan b out').result = some (.truncated, v)

/-- **The scanners agree on waiting** exactly on the buffers that do not end
    inside a field beyond complete headers and a complete declared body. -/
theorem agreeOnTruncated_iff (b : Buffer) (out out' : FieldIndex) :
    AgreeOnTruncated b out out' ↔ ¬ ∃ h gs u, RunsOut b h gs u := by
  have hwait : ∀ (s : Scanner) (o : FieldIndex),
      (∃ v, (s.scan b o).result = some (.truncated, v)) ↔ (s.verdict b).1 = .truncated := by
    intro s o
    rw [s.result_eq b o]
    constructor
    · rintro ⟨v, h⟩
      exact congrArg Prod.fst (Option.some.inj h)
    · intro h
      exact ⟨_, by rw [← h]⟩
  have hs := (hwait .scalar out).trans (Scanner.scalar_truncated b)
  have ha := (hwait .avx2 out').trans (Scanner.avx2_truncated b)
  rw [AgreeOnTruncated]
  refine (iff_congr hs ha).trans ?_
  constructor
  · rintro hagree ⟨h, gs, u, hro⟩
    obtain ⟨fs, hfs⟩ := hagree.1 (Or.inr ⟨h, gs, u, hro⟩)
    rw [readHead_ok.2 ⟨hro.headers, hro.bytes, hro.long⟩] at hfs
    cases hfs
  · intro hno
    exact ⟨fun h => h.resolve_right hno, Or.inl⟩

/-- A message whose declared body ends inside its text field, which the buffer
    does not end. -/
def openText : Buffer := ascii "8=F\x019=5\x0135=\x0158=abcdef".toList

set_option maxRecDepth 4000 in
/-- On the open text field the scalar scanner waits, the AVX2 scanner answers
    `BadBodyLength`. -/
theorem not_agreeOnTruncated_openText :
    openText.length < 2 ^ 32 ∧ ¬ AgreeOnTruncated openText .fresh .fresh := by
  refine ⟨by decide, fun hagree => ?_⟩
  have hscalar : (ScalarScanner.scan openText .fresh).result.map (·.1) = some .truncated := by decide
  have havx2 : (Avx2Scanner.scan openText .fresh).result.map (·.1) = some .badBodyLength := by
    decide
  obtain ⟨⟨st, v⟩, hv, rfl⟩ := Option.map_eq_some_iff.1 hscalar
  obtain ⟨v', hv'⟩ := hagree.1 ⟨v, hv⟩
  rw [hv'] at havx2
  cases havx2

end SwiftFIX
