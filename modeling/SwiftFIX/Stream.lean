/-
  Scanners on a stream: verdicts that more bytes do not change, and the loop
  that splits a stream frame by frame (`run_swiftfix_split`).

  A scanner is a framer in the sense of `Lib/Framing`: `Scanner.answer` is its
  answer, `Scanner.answer_final` says that only `Truncated` is not final.
-/
import SwiftFIX.Safety
import SwiftFIX.Acceptance
import SwiftFIX.Lib.Framing

namespace SwiftFIX

open Framing

/-! ## Scanners as framers -/

namespace Scanner

/-- The answer of a scanner: a frame with its length and index, or the status
    that stops a caller. -/
def answer (s : Scanner) (b : Buffer) : Answer IndexView ScanStatus :=
  if (s.verdict b).1 = .ok then .frame (s.verdict b).2.frameLength (s.verdict b).2
  else .stop (s.verdict b).1

theorem answer_ok {s : Scanner} {b : Buffer} {v : IndexView} (h : s.verdict b = (.ok, v)) :
    s.answer b = .frame v.frameLength v := by
  rw [answer, h, if_pos rfl]

theorem answer_stop {s : Scanner} {b : Buffer} {st : ScanStatus} (h : (s.verdict b).1 = st)
    (hst : st ≠ .ok) : s.answer b = .stop st := by
  rw [answer, h, if_neg hst]

theorem answer_eq_stop {s : Scanner} {b : Buffer} {st : ScanStatus} (h : s.answer b = .stop st) :
    (s.verdict b).1 = st := by
  unfold answer at h
  split at h
  · cases h
  · cases h
    rfl

theorem answer_final (s : Scanner) : Final s.answer .truncated := by
  intro b e h
  have hst : (s.verdict b).1 ≠ .truncated := fun ht => h (answer_stop ht (by decide))
  rw [answer, answer, s.verdict_append b e hst]

theorem answer_sound (s : Scanner) {b : Buffer} (hb : b.length < 2 ^ 32) :
    ∀ n v, s.answer b = .frame n v → 0 < n ∧ n ≤ b.length := by
  intro n v h
  unfold answer at h
  split at h
  · rename_i hok
    cases h
    have hr := s.result_eq b .fresh
    rw [← Prod.eta (s.verdict b), hok] at hr
    obtain ⟨F, -, hF, hv⟩ := (s.result_ok hb .fresh).1 hr
    rw [hv]
    refine ⟨?_, hF.length_le⟩
    have := F.checksum_field.size_ge
    simp only [Message.index, F.bytes_eq, List.length_append, Field.bytes_length]
    omega
  · cases h

end Scanner

/-! ## Finality -/

namespace Scanner

/-- **Verdicts are final except `Truncated`**: any other status comes again, with
    the same index, on every longer buffer; and on every proper prefix of an
    accepted frame a scanner answers `Truncated`. -/
theorem verdicts_final (s : Scanner) :
    (∀ (b e : Buffer) (out out' : FieldIndex) (st : ScanStatus) (v : IndexView),
      (s.scan b out).result = some (st, v) → st ≠ .truncated →
        (s.scan (b ++ e) out').result = some (st, v)) ∧
    ∀ (b q : Buffer) (out out' : FieldIndex) (v : IndexView), b.length < 2 ^ 32 →
      (s.scan b out).result = some (.ok, v) → q <+: b → q.length < v.frameLength →
        ∃ v', (s.scan q out').result = some (.truncated, v') := by
  refine ⟨fun b e out out' st v h hst => s.scan_extend b e out out' h hst, ?_⟩
  intro b q out out' v hb h hq hlt
  rw [s.result_eq, Option.some.injEq] at h
  have hqb : q.length < 2 ^ 32 := lt_of_le_of_lt hq.length_le hb
  have hw := s.answer_final.waits (answer_ok h) hq hlt fun m x hx => (s.answer_sound hqb m x hx).2
  refine ⟨(s.verdict q).2, ?_⟩
  rw [s.result_eq, ← answer_eq_stop hw]

set_option maxRecDepth 4000 in
/-- The frame `plainChecksum` before a longer stream, and without its last SOH. -/
theorem verdicts_final_plain :
    (avx2.scan (plainChecksum ++ ascii ['8', '=']) .fresh).result =
        (avx2.scan plainChecksum .fresh).result ∧
      ∃ v, (avx2.scan (plainChecksum.take 18) .fresh).result = some (.truncated, v) := by
  have hok : (avx2.scan plainChecksum .fresh).result.map (fun x => (x.1, x.2.frameLength)) =
      some (.ok, 19) := by decide
  obtain ⟨⟨st, v⟩, hv, hx⟩ := Option.map_eq_some_iff.1 hok
  simp only [Prod.mk.injEq] at hx
  obtain ⟨rfl, hlen⟩ := hx
  constructor
  · rw [hv]
    exact avx2.verdicts_final.1 plainChecksum (ascii ['8', '=']) .fresh .fresh .ok v hv (by decide)
  · refine avx2.verdicts_final.2 plainChecksum (plainChecksum.take 18) .fresh .fresh v (by decide)
      hv (List.take_prefix _ _) ?_
    rw [hlen]
    decide

end Scanner

/-! ## Splitting a stream -/

/-- The loop of `run_swiftfix_split`: scan what is left of the stream at `pos`,
    return on any status but `Ok`, else advance by `frame_length`.  The index
    is reused from round to round; `visits` are the rounds counted. -/
def splitLoop (scanner : Scanner) (stream : Buffer) :
    ℕ → ℕ → FieldIndex → Option (Split IndexView ScanStatus)
  | 0, _, _ => none
  | fuel + 1, pos, idx =>
    if pos < stream.length then
      match scanner.scan (stream.drop pos) idx with
      | .stuck => none
      | .ret st idx =>
        if st ≠ .ok then some ⟨[], pos, some st⟩
        else (splitLoop scanner stream fuel (pos + idx.frameLength) idx).map
          fun t => { t with visits := (pos, idx.view) :: t.visits }
    else some ⟨[], pos, none⟩

/-- The loop splits as the scanner's answers say; the reused index plays no
    part. -/
theorem splitLoop_eq (s : Scanner) (stream : Buffer) (fuel : ℕ) :
    ∀ (pos : ℕ) (idx : FieldIndex),
      splitLoop s stream fuel pos idx = split s.answer fuel pos (stream.drop pos) := by
  induction fuel with
  | zero => exact fun _ _ => rfl
  | succ fuel ih =>
    intro pos idx
    have hempty : (stream.drop pos).isEmpty = decide (stream.length ≤ pos) := by
      rw [Bool.eq_iff_iff, List.isEmpty_iff, List.drop_eq_nil_iff, decide_eq_true_iff]
    rw [splitLoop, split, hempty]
    by_cases hpos : pos < stream.length
    · have hle : ¬ stream.length ≤ pos := by omega
      have hr := s.result_eq (stream.drop pos) idx
      simp only [hpos, if_true, hle, decide_false, Bool.false_eq_true, if_false]
      rcases hs : s.scan (stream.drop pos) idx with ⟨st, o⟩ | _
      · rw [hs, Outcome.result, Option.some.injEq] at hr
        by_cases hst : st = .ok
        · subst hst
          have hfl : o.frameLength = o.view.frameLength := rfl
          simp only [ne_eq, not_true, if_false, Scanner.answer_ok hr.symm, ih, List.drop_drop, hfl]
        · have ha := Scanner.answer_stop (congrArg Prod.fst hr.symm) hst
          simp only [ne_eq, hst, not_false_eq_true, if_true, ha]
      · rw [hs] at hr
        cases hr
    · have hle : stream.length ≤ pos := by omega
      simp only [hpos, if_false, hle, decide_true, if_true]

/-- A frame on its own: accepted, and all of the buffer. -/
structure WholeFrame (s : Scanner) where
  bytes : Buffer
  view : IndexView
  short : bytes.length < 2 ^ 32
  accepted : (s.scan bytes .fresh).result = some (.ok, view)
  whole : view.frameLength = bytes.length

namespace WholeFrame
variable {s : Scanner}

theorem isFrame (f : WholeFrame s) : IsFrame s.answer f.bytes f.view := by
  have hv := f.accepted
  rw [s.result_eq, Option.some.injEq] at hv
  have ha := Scanner.answer_ok hv
  refine ⟨by rw [ha, f.whole], ?_⟩
  intro h0
  have := (s.answer_sound f.short _ _ ha).1
  rw [f.whole, h0] at this
  cases this

end WholeFrame

/-- **Splitting a stream of frames** loses, merges and invents nothing: followed
    by nothing or by the beginning of one more frame, the loop visits exactly
    the frames, each at its position with the index it has alone, and ends
    where the tail starts: at the end of the stream if there is no tail, on
    `Truncated` otherwise. -/
theorem splitLoop_frames (s : Scanner) (fs : List (WholeFrame s)) (t : Buffer)
    (ht : t = [] ∨ ∃ f : WholeFrame s, t <+: f.bytes ∧ t.length < f.bytes.length)
    (idx : FieldIndex) :
    ∃ N, ∀ fuel ≥ N,
      splitLoop s ((fs.map (·.bytes)).flatten ++ t) fuel 0 idx =
        some ⟨placed 0 (fs.map fun f => (f.bytes, f.view)), ((fs.map (·.bytes)).flatten).length,
          if t = [] then none else some .truncated⟩ := by
  have hwait : t = [] ∨ s.answer t = .stop .truncated := by
    refine ht.imp id ?_
    rintro ⟨f, hpre, hlt⟩
    have hshort : t.length < 2 ^ 32 := lt_of_le_of_lt hpre.length_le f.short
    exact s.answer_final.waits f.isFrame.1 hpre hlt fun m x hx => (s.answer_sound hshort m x hx).2
  have hframes : ∀ f ∈ fs.map fun f => (f.bytes, f.view), IsFrame s.answer f.1 f.2 := by
    intro f hf
    obtain ⟨g, -, rfl⟩ := List.mem_map.1 hf
    exact g.isFrame
  refine ⟨fs.length + 1, fun fuel hfuel => ?_⟩
  have h := s.answer_final.split_flatten hwait _ hframes 0 fuel (by rw [List.length_map]; omega)
  rw [List.map_map, Nat.zero_add] at h
  rw [splitLoop_eq, List.drop_zero]
  exact h

set_option maxRecDepth 4000 in
/-- The message `plainChecksum` as a frame of the scalar scanner. -/
def plainFrame : WholeFrame .scalar where
  bytes := plainChecksum
  view := ⟨0, 1, 2, 3, 4, 19, 4, [⟨0, 2, 3, 8⟩, ⟨4, 6, 7, 9⟩, ⟨8, 11, 11, 35⟩, ⟨12, 15, 18, 10⟩]⟩
  short := by decide
  accepted := by decide
  whole := by decide

theorem splitLoop_frames_plain :
    ∃ N, ∀ fuel ≥ N,
      splitLoop .scalar (([plainFrame, plainFrame].map (·.bytes)).flatten ++ plainChecksum.take 5)
          fuel 0 .fresh =
        some ⟨[(0, plainFrame.view), (19, plainFrame.view)], 38, some .truncated⟩ :=
  splitLoop_frames .scalar [plainFrame, plainFrame] (plainChecksum.take 5)
    (Or.inr ⟨plainFrame, List.take_prefix _ _, by decide⟩) .fresh

end SwiftFIX
