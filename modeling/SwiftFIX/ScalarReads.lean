/-
  The scalar scanner computes its reading (`ScalarScanner.scan_reads`), for
  buffers of any length.
-/
import SwiftFIX.Scalar
import SwiftFIX.HeadReads

namespace SwiftFIX
namespace ScalarScanner

open Decimal Delimited EarlyExit

variable {b : Buffer} {fs : List Field} {s : List Byte} {p : ℕ} {out : FieldIndex}

/-! ## One field -/

/-- The tag loop tests for a digit first and for `=` second, which makes no
    difference. -/
theorem tagLoop_eq (s : List Byte) : ∀ p tag, tagLoop p tag s = digitLoop (ch '=') p tag s := by
  induction s with
  | nil => exact fun _ _ => rfl
  | cons c s ih =>
    intro p tag
    simp only [tagLoop, digitLoop, ih]
    by_cases hc : isDigit c
    · have hne : c ≠ ch '=' := digit_ne_eq (isDigit_iff.1 hc)
      simp [hc, hne]
    · by_cases he : c = ch '='
      · subst he; rw [if_neg hc, if_pos rfl, if_pos rfl]
      · simp [hc, he]

/-- What `scan_one_field` gives for the reading of the bytes at `p`. -/
def FieldScan.ofRead (p : ℕ) : FieldRead → FieldScan
  | .field f _ => .ok (f.entry p) (p + f.size)
  | .truncated => .truncated
  | .malformed => .malformed

/-- **`scan_one_field` reads one field** of the bytes up to the buffer's end. -/
theorem scanOneField_eq (hd : b.drop p = s) (hl : b.length = p + s.length) :
    scanOneField b p = .ofRead p (readField s) := by
  unfold scanOneField
  rw [hd, tagLoop_eq, digitLoop_eq]
  rcases heq : cut (ch '=') s with _ | ⟨tg, w⟩
  · -- no `=`: the tag loop runs to the end of the buffer, or meets a bad byte
    have hne := cut_none.1 heq
    rw [upTo_open hne]
    rcases hsoh : cut SOH s with _ | ⟨q, t⟩
    · by_cases hn : Numeral s <;> simp [readField, hsoh, OpenField, heq, hn, hl, FieldScan.ofRead]
    · obtain ⟨rfl, -⟩ := cut_some.1 hsoh
      have hn : ¬ Numeral (q ++ SOH :: t) := fun h => h.soh_notMem (by simp)
      have hq : cut (ch '=') q = none := cut_none.2 fun h => hne (by simp [h])
      simp [readField, hsoh, readPiece, hq, hn, FieldScan.ofRead]
  · obtain ⟨rfl, htg⟩ := cut_some.1 heq
    rw [upTo_append htg]
    simp only [List.length_append, List.length_cons] at hl
    by_cases hn : Numeral tg
    · have hne : p + tg.length ≠ b.length := by omega
      have hdw : b.drop (p + tg.length + 1) = w := by
        rw [Nat.add_assoc, ← List.drop_drop, hd]; simp
      simp only [hn, if_true, hne, if_false, hdw]
      by_cases hz : Decimal.value tg = 0
      · -- an empty tag or tag 0
        rw [readField_badTag htg fun h => h.2 hz]
        by_cases h0 : tg = [] <;> simp [h0, hz, FieldScan.ofRead]
      · have ht : Tag tg := ⟨hn, hz⟩
        have hpos : p + tg.length ≠ p := by
          have := List.length_pos_iff.2 ht.ne_nil; omega
        simp only [hpos, hz, if_false]
        rcases hsoh : cut SOH w with _ | ⟨v, t⟩
        · have hs : SOH ∉ tg ++ ch '=' :: w := by
            simp only [List.mem_append, List.mem_cons, not_or]
            exact ⟨hn.soh_notMem, by decide, cut_none.1 hsoh⟩
          have hr : readField (tg ++ ch '=' :: w) = .truncated :=
            readField_truncated.2 ⟨hs, by simp [OpenField, heq, ht]⟩
          have he : p + tg.length + 1 + w.length = b.length := by omega
          simp [hr, skipValue_open hsoh, he, FieldScan.ofRead]
        · obtain ⟨rfl, hv⟩ := cut_some.1 hsoh
          have hr : readField (tg ++ ch '=' :: (v ++ SOH :: t)) = .field ⟨tg, v⟩ t :=
            readField_field.2 ⟨by simp [Field.bytes], ht, hv⟩
          simp only [List.length_append, List.length_cons] at hl
          have he : p + tg.length + 1 + v.length ≠ b.length := by omega
          have hsz : p + tg.length + 1 + v.length + 1 = p + Field.size ⟨tg, v⟩ := by
            simp [Field.size]; omega
          simp only [hr, skipValue_cut hsoh, he, if_false, hsz, FieldScan.ofRead]
          rfl
    · -- a bad byte in the tag, or a tag out of range
      rw [readField_badTag htg fun h => hn h.1]
      simp only [hn, if_false]; rfl

/-! ## The body -/

/-- The state after the body: at its end, with the bytes left, or past it. -/
structure AfterBody (b : Buffer) (bodyEnd : ℕ) (x : List Field × Option (List Byte))
    (y : ℕ × FieldIndex) : Prop where
  count : 3 ≤ x.1.length
  view : y.2.view = progress x.1
  atEnd : ∀ t, x.2 = some t → At b x.1 t y.1 y.2 ∧ y.1 = bodyEnd
  past : x.2 = none → bodyEnd < y.1

theorem bodyLoop_reads (bodyEnd fuel : ℕ) :
    ∀ {fs : List Field} {left : ℕ} {s : List Byte} {p : ℕ} {out : FieldIndex},
      At b fs s p out → 3 ≤ fs.length → fs.length ≤ kMaxFields → kMaxFields < fs.length + fuel →
      p + left = bodyEnd →
      Reads (AfterBody b bodyEnd) (readBody fs left s) (bodyLoop b bodyEnd fuel p out) := by
  induction fuel with
  | zero => intro fs left s p out _ _ h1 h2; omega
  | succ fuel ih =>
    intro fs left s p out h h3 hmax hfuel hend
    rw [readBody, bodyLoop]
    by_cases hleft : left = 0
    · rw [if_pos hleft, if_neg (show ¬ p < bodyEnd by omega)]
      refine Sim.ok ⟨h3, h.view, ?_, by simp⟩
      rintro t ⟨⟩
      exact ⟨h, by omega⟩
    · rw [if_neg hleft, if_pos (show p < bodyEnd by omega), h.count]
      refine Sim.ite (fun _ => Reads.error h.view) fun hroom => ?_
      rw [scanOneField_eq h.drop h.length]
      rcases hr : readField s with ⟨f, t⟩ | _ | _
      · obtain ⟨hs, -, -⟩ := readField_field.1 hr
        refine Sim.ite (fun _ => Reads.error h.view) fun _ => ?_
        obtain ⟨out', h1, h2⟩ := progress_push h.view h3 (by omega) f
        rw [← h.off] at h1
        rw [h1, ok_bind]
        have hnext := h.snoc hs h2
        by_cases hover : left < f.size
        · -- the field runs past the body's end: the loop stops behind it
          rw [if_pos hover]
          cases fuel with
          | zero => simp at hfuel; omega
          | succ fuel =>
            rw [bodyLoop, if_neg (show ¬ p + f.size < bodyEnd by omega)]
            exact Sim.ok ⟨by simp; omega, h2, by simp, fun _ => by simp; omega⟩
        · rw [if_neg hover]
          exact ih hnext (by simp; omega) (by simp; omega) (by simp; omega) (by omega)
      · exact Reads.error h.view
      · exact Reads.error h.view

/-! ## The ending -/

theorem checkEnding_reads {bodyEnd : ℕ} {x : List Field × Option (List Byte)}
    {y : ℕ × FieldIndex} (h : AfterBody b bodyEnd x y) :
    Reads (fun fs o => o.view = Reading.view ⟨.ok, fs⟩)
      (readEnding b x.1 x.2) (checkEnding b bodyEnd y.1 y.2) := by
  obtain ⟨fs, e⟩ := x
  obtain ⟨p, out⟩ := y
  rcases e with _ | s
  · have hp := h.past rfl
    unfold checkEnding readEnding
    simp only at hp
    rw [if_pos (show p ≠ bodyEnd by omega)]
    exact Reads.error h.view
  · obtain ⟨hat, hp⟩ := h.atEnd s rfl
    simp only at hat hp
    unfold checkEnding readEnding
    rw [if_neg (not_not_intro hp), scanOneField_eq hat.drop hat.length]
    rcases hr : readField s with ⟨f, t⟩ | _ | _
    · obtain ⟨hs, -, -⟩ := readField_field.1 hr
      have hl := hat.length
      rw [hs, List.length_append, f.bytes_length] at hl
      have hsub : u32Sub (f.entry p).valueEnd (f.entry p).valueStart = u32 f.value.length := by
        rw [Field.entry, u32Sub_u32 (by omega)]; congr 1; omega
      simp only [FieldScan.ofRead, hr, hsub]
      refine Sim.ite (fun _ => Reads.error hat.view) fun _ => ?_
      refine Sim.ite (fun _ => Reads.error hat.view) fun h3 => ?_
      -- the value has at least three bytes, and narrowing only lowers its offset
      have hv3 : 3 ≤ f.value.length := by
        have := u32_le f.value.length; omega
      have hvs : (f.entry p).valueStart ≤ p + f.tag.length + 1 := u32_le _
      rw [threeDigitsAt_eq (show (f.entry p).valueStart + 3 ≤ b.length by
        simp only [Field.size] at hl; omega), ok_bind,
        show (f.entry p).valueStart = u32 ((wire fs).length + f.tag.length + 1) by
          rw [← hat.off]; rfl]
      by_cases hd : DigitsAt b (u32 ((wire fs).length + f.tag.length + 1))
      · simp only [hd, not_true, decide_true, Bool.not_true, Bool.false_eq_true, if_false]
        refine Sim.ite_iff (by rw [hat.count]) (fun _ => Reads.error hat.view) fun hroom => ?_
        obtain ⟨out', h1, h2⟩ := progress_finish hat.view h.count (by simp at hroom ⊢; omega) f
        rw [← hat.off] at h1 h2
        rw [h1, ok_bind]
        exact Sim.ok h2
      · simp only [hd, not_false_eq_true, decide_false, Bool.not_false, if_true]
        exact Reads.error hat.view
    · simp only [FieldScan.ofRead, hr]; exact Reads.error h.view
    · simp only [FieldScan.ofRead, hr]; exact Reads.error h.view

/-! ## The scan -/

theorem scanBody_reads (b : Buffer) (out : FieldIndex) :
    Reads (fun fs o => o.view = Reading.view ⟨.ok, fs⟩)
      (do let h ← readHead b; let x ← readRest h; readEnding b x.1 x.2) (scanBody b out) := by
  refine Sim.bind (scanHeaders_reads b out) fun h ⟨p, e, o⟩ ⟨hat, he, hlen⟩ => ?_
  simp only at hat he
  subst he
  have hoff : p = h.bodyStart + h.f35.size := hat.off.trans h.wire_fields_length
  have hbody : Reads (AfterBody b h.bodyEnd) (readRest h)
      (bodyLoop b h.bodyEnd (kMaxFields + 1) p o) := by
    unfold readRest
    by_cases hshort : h.bodyLen < h.f35.size
    · -- tag 35 already runs past the body's end
      have hp : h.bodyEnd < p := by rw [hoff, Head.bodyEnd]; omega
      rw [if_pos hshort, bodyLoop, if_neg (by omega)]
      exact Sim.ok ⟨le_rfl, hat.view, by simp, fun _ => hp⟩
    · rw [if_neg hshort]
      have h3 : h.fields.length = 3 := rfl
      exact bodyLoop_reads _ _ hat h3.ge (by simp [h3, kMaxFields]) (by omega)
        (by rw [hoff, Head.bodyEnd]; omega)
  exact Sim.bind hbody fun x y hxy => checkEnding_reads hxy

/-- **The scalar scanner computes its reading**: on every buffer and whatever
    the index held before, the status is that of the reading and the index
    shows its fields. -/
theorem scan_reads (b : Buffer) (out : FieldIndex) : Ends (read b) (scan b out) :=
  (scanBody_reads b out).ends

end ScalarScanner
end SwiftFIX
