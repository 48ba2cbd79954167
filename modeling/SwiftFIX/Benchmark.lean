/-
  The split benchmark (`run_swiftfix_split`): its iterations, what it reports
  and its errors.

  It is the loop of `splitLoop` again and again with one index, so below 4 GiB it
  reports iterations times frames exactly on a stream of whole frames
  (`runSwiftfixSplit_report`), and on a bulk stream of any length iterations
  times messages (`Written.benchmarked`).
-/
import SwiftFIX.Bulk

namespace SwiftFIX

open Framing Generator

/-! ## The benchmark -/

/-- What a run leaves in the benchmark's state. -/
inductive Report where
  /-- `SkipWithError` -/
  | error (message : String)
  /-- `SetItemsProcessed` and `SetBytesProcessed` -/
  | processed (items bytes : ℕ)
  deriving DecidableEq, Repr

/-- One iteration: the frames counted, or nothing when the scanner does not
    return `Ok`; and the index it leaves. -/
def splitPass (scanner : Scanner) (stream : Buffer) :
    ℕ → ℕ → ℕ → FieldIndex → Option (Option ℕ × FieldIndex)
  | 0, _, _, _ => none
  | fuel + 1, pos, iterCount, idx =>
    if pos < stream.length then
      match scanner.scan (stream.drop pos) idx with
      | .stuck => none
      | .ret s idx =>
        if s ≠ .ok then some (none, idx)
        else splitPass scanner stream fuel (pos + idx.frameLength) (iterCount + 1) idx
    else some (some iterCount, idx)

/-- `for (auto _ : state)`: the `msg_count` of the last iteration, or nothing
    when one returns early. -/
def iterate (scanner : Scanner) (stream : Buffer) (fuel : ℕ) :
    ℕ → ℕ → FieldIndex → Option (Option ℕ)
  | 0, msgCount, _ => some (some msgCount)
  | iterations + 1, _, idx =>
    match splitPass scanner stream fuel 0 0 idx with
    | none => none
    | some (none, _) => some none
    | some (some iterCount, idx) => iterate scanner stream fuel iterations iterCount idx

/-- The product of two numbers below `2^63` as `std::int64_t`; its overflow is
    undefined. -/
def mulInt64 (a b : ℕ) : Option ℕ := if a * b < 2 ^ 63 then some (a * b) else none

/-- `run_swiftfix_split(state, scanner)` on the stream of `stream_corpus()`. -/
def runSwiftfixSplit (scanner : Scanner) (stream : Buffer) (iterations fuel : ℕ) :
    Option Report :=
  if stream.isEmpty then some (.error "stream is empty")
  else
    match iterate scanner stream fuel iterations 0 .fresh with
    | none => none
    | some none => some (.error "scanner returned non-Ok on valid stream")
    | some (some msgCount) => do
      let items ← mulInt64 iterations msgCount
      let bytes ← mulInt64 iterations stream.length
      return .processed items bytes

/-! ## Iterations are runs of the loop -/

variable {s : Scanner} {stream : Buffer} {fuel : ℕ}

/-- The frames counted by a run of the loop that comes to the end of the stream. -/
def counted (t : Split IndexView ScanStatus) : Option ℕ :=
  if t.stopped = none then some t.visits.length else none

theorem splitPass_eq (s : Scanner) (stream : Buffer) (fuel : ℕ) :
    ∀ (pos n : ℕ) (idx : FieldIndex), (splitPass s stream fuel pos n idx).map Prod.fst =
      (splitLoop s stream fuel pos idx).map fun t => (counted t).map (n + ·) := by
  induction fuel with
  | zero => exact fun _ _ _ => rfl
  | succ fuel ih =>
    intro pos n idx
    rw [splitPass, splitLoop]
    by_cases hpos : pos < stream.length
    · rw [if_pos hpos, if_pos hpos]
      rcases s.scan (stream.drop pos) idx with ⟨st, idx'⟩ | _
      · by_cases hst : st = .ok
        · simp only [hst, ne_eq, not_true, if_false]
          rw [ih, Option.map_map]
          refine congrArg (Option.map · _) (funext fun t => ?_)
          simp only [counted, Function.comp]
          split
          · simp only [Option.map_some, List.length_cons]
            congr 1
            omega
          · rfl
        · simp [hst, counted]
      · rfl
    · rw [if_neg hpos, if_neg hpos]
      rfl

section
variable {t : Split IndexView ScanStatus} (ht : ∀ idx, splitLoop s stream fuel 0 idx = some t)
include ht

/-- An iteration counts the frames of the loop, whatever the index holds. -/
theorem splitPass_counted (idx : FieldIndex) :
    ∃ idx', splitPass s stream fuel 0 0 idx = some (counted t, idx') := by
  have hpass := splitPass_eq s stream fuel 0 0 idx
  have hcount : (counted t).map (0 + ·) = counted t := by
    cases counted t <;> simp
  rw [ht idx, Option.map_some, hcount] at hpass
  obtain ⟨⟨c, idx'⟩, hp, rfl⟩ := Option.map_eq_some_iff.1 hpass
  exact ⟨idx', hp⟩

theorem iterate_eq (iterations : ℕ) :
    ∀ n idx, iterate s stream fuel (iterations + 1) n idx = some (counted t) := by
  induction iterations with
  | zero =>
    intro n idx
    obtain ⟨idx', hp⟩ := splitPass_counted ht idx
    rw [iterate, hp]
    cases counted t <;> rfl
  | succ iterations ih =>
    intro n idx
    obtain ⟨idx', hp⟩ := splitPass_counted ht idx
    rw [iterate, hp]
    cases hcount : counted t with
    | none => rfl
    | some m => exact (ih m idx').trans (congrArg some hcount)

end

theorem runSwiftfixSplit_eq {t : Split IndexView ScanStatus} (hne : stream ≠ [])
    (ht : ∀ idx, splitLoop s stream fuel 0 idx = some t) (hle : t.visits.length ≤ stream.length)
    {iterations : ℕ} (hpos : 0 < iterations) (hfit : iterations * stream.length < 2 ^ 63) :
    runSwiftfixSplit s stream iterations fuel = some
      (if t.stopped = none then
        .processed (iterations * t.visits.length) (iterations * stream.length)
      else .error "scanner returned non-Ok on valid stream") := by
  obtain ⟨k, rfl⟩ := Nat.exists_eq_add_of_le' hpos
  have hempty : stream.isEmpty = false := List.isEmpty_eq_false_iff.2 hne
  rw [runSwiftfixSplit, hempty, iterate_eq ht, counted]
  by_cases hstop : t.stopped = none
  · have hitems : (k + 1) * t.visits.length < 2 ^ 63 :=
      (Nat.mul_le_mul_left _ hle).trans_lt hfit
    simp only [hstop, if_true, mulInt64, if_pos hitems, if_pos hfit, Bool.false_eq_true, if_false]
    rfl
  · simp [hstop]

theorem length_placed {ρ α : Type} (fs : List (List α × ρ)) :
    ∀ pos, (placed pos fs).length = fs.length := by
  induction fs with
  | nil => exact fun _ => rfl
  | cons f fs ih =>
    intro pos
    rw [placed, List.length_cons, ih, List.length_cons]

theorem length_le_flatMap (Fs : List Frame) : Fs.length ≤ (Fs.flatMap (·.bytes)).length := by
  induction Fs with
  | nil => exact Nat.zero_le _
  | cons F Fs ih =>
    have hpos := List.length_pos_of_ne_nil (Scanner.bytes_ne_nil F)
    rw [List.length_cons, List.flatMap_cons, List.length_append]
    omega

/-- **What the benchmark reports.**  On a stream below 4 GiB that is the frames
    `Fs` and a rest: iterations times the frames, and iterations times the bytes,
    if there is no rest; and its errors on an empty stream and on any rest. -/
theorem runSwiftfixSplit_report (s : Scanner) (stream rest : Buffer) (Fs : List Frame)
    (h : Parsed s stream Fs rest) (hb : stream.length < 2 ^ 32) (iterations fuel : ℕ)
    (hpos : 0 < iterations) (hfit : iterations * stream.length < 2 ^ 63) (hfuel : Fs.length < fuel) :
    runSwiftfixSplit s stream iterations fuel = some
      (if stream = [] then .error "stream is empty"
      else if rest = [] then .processed (iterations * Fs.length) (iterations * stream.length)
      else .error "scanner returned non-Ok on valid stream") := by
  by_cases hne : stream = []
  · rw [runSwiftfixSplit, hne]
    rfl
  rw [if_neg hne]
  have hvisits : (placed 0 (Fs.map Frame.piece)).length = Fs.length := by
    rw [length_placed, List.length_map]
  have hle : (placed 0 (Fs.map Frame.piece)).length ≤ stream.length := by
    rw [hvisits, h.bytes, List.length_append]
    exact (length_le_flatMap Fs).trans (Nat.le_add_right _ _)
  rw [runSwiftfixSplit_eq hne (fun idx => h.splitLoop_eq hb idx hfuel) hle hpos hfit]
  simp only [hvisits, stopped]
  by_cases hrest : rest = [] <;> simp [hrest]

theorem runSwiftfixSplit_report_mixed : ∃ Fs : List Frame, ∃ rest : Buffer,
    runSwiftfixSplit .scalar mixedStream 10 (Fs.length + 1) = some
      (if mixedStream = [] then .error "stream is empty"
      else if rest = [] then .processed (10 * Fs.length) (10 * mixedStream.length)
      else .error "scanner returned non-Ok on valid stream") := by
  have hb : mixedStream.length < 2 ^ 32 := by decide
  obtain ⟨Fs, rest, h⟩ := parsed_exists .scalar hb
  exact ⟨Fs, rest, runSwiftfixSplit_report .scalar mixedStream rest Fs h hb 10 (Fs.length + 1)
    (by decide) (by decide) (Nat.lt_succ_self _)⟩

/-! ## Bulk streams -/

/-- **The benchmark measures what the generator wrote**: on a bulk stream of any
    length it reports iterations times the messages, with either scanner. -/
theorem Generator.Written.benchmarked {ms : List (Kind × Tags)} (h : Written stream ms) (s : Scanner)
    (hne : ms ≠ []) (iterations fuel : ℕ) (hpos : 0 < iterations)
    (hfit : iterations * stream.length < 2 ^ 63) (hfuel : ms.length < fuel) :
    runSwiftfixSplit s stream iterations fuel =
      some (.processed (iterations * ms.length) (iterations * stream.length)) := by
  obtain ⟨Fs, hFs, rfl⟩ := h.exists_framed
  have hvisits : (placed 0 (Fs.map Frame.piece)).length = ms.length := by
    rw [length_placed, List.length_map, hFs.length_eq]
  have hle := length_le_flatMap Fs
  rw [List.flatMap_def, ← hFs.length_eq] at hle
  have hstream : (Fs.map (·.bytes)).flatten ≠ [] := by
    have hms := List.length_pos_of_ne_nil hne
    exact List.ne_nil_of_length_pos (hms.trans_le hle)
  rw [runSwiftfixSplit_eq hstream (fun idx => splitLoop_framed hFs s idx hfuel) (hvisits ▸ hle) hpos
    hfit, hvisits]
  rfl

theorem length_framed {ms : List (Kind × Tags)} {Fs : List Frame} (h : List.Forall₂ Framed ms Fs) :
    (Fs.map (·.bytes)).flatten.length ≤ ms.length * 2 ^ 32 := by
  induction h with
  | nil => exact Nat.zero_le _
  | cons hF _ ih =>
    have hshort := hF.short
    rw [List.map_cons, List.flatten_cons, List.length_append, List.length_cons]
    omega

theorem Generator.Written.benchmarked_plain : ∃ stream, ∃ ms : List (Kind × Tags),
    writeBulk plainRandom 3 7 = some stream ∧ runSwiftfixSplit .avx2 stream 10 4 =
      some (.processed (10 * ms.length) (10 * stream.length)) := by
  obtain ⟨stream, ms, hstream, hlen, hwritten⟩ :=
    exists_written plainRandom (by decide : 3 ≤ lastSeq) 7
  refine ⟨stream, ms, hstream, ?_⟩
  have hfit : 10 * stream.length < 2 ^ 63 := by
    obtain ⟨Fs, hFs, rfl⟩ := hwritten.exists_framed
    have hle := length_framed hFs
    omega
  exact hwritten.benchmarked .avx2 (List.ne_nil_of_length_pos (by omega)) 10 4 (by decide) hfit
    (by omega)

end SwiftFIX
