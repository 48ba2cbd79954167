/-
  No call is stuck: on every buffer of any length, both scanners stay within
  the buffer, the field table and the SOH array, and none of their unsigned
  subtractions drops below zero (`Scanner.scan_total`).

  Together with `Scanner.scan_prior` this makes a call a function of its
  buffer, `Scanner.verdict`.
-/
import SwiftFIX.Finality

namespace SwiftFIX

open Delimited EarlyExit

/-! ## The AVX2 scanner -/

namespace Avx2Scanner

/-- The computation is not stuck and does not wait, and its values satisfy
    `R`. -/
abbrev Safe {α : Type} (R : α → Prop) : Scan α → Prop :=
  Run (fun e => ∃ st out, e = .ret st out ∧ st ≠ .truncated) R

variable {b : Buffer} {out : FieldIndex}

theorem Safe.ret {α : Type} {R : α → Prop} (st : ScanStatus) (out : FieldIndex)
    (h : st ≠ .truncated := by decide) : Safe R (.error (.ret st out) : Scan α) :=
  Run.exit ⟨st, out, rfl, h⟩

theorem byteAt_safe {i : ℕ} (h : i < b.length) : Safe (fun _ => True) (byteAt b i) := by
  rw [byteAt_eq (List.getElem?_eq_getElem h)]
  exact Run.ok trivial

theorem matchesAt_safe (pat : List Byte) :
    ∀ {p : ℕ}, p + pat.length ≤ b.length → Safe (fun _ => True) (matchesAt b p pat) := by
  induction pat with
  | nil => exact fun _ => Run.ok trivial
  | cons c cs ih =>
    intro p h
    rw [List.length_cons] at h
    refine Run.bind (byteAt_safe (by omega)) fun x _ => ?_
    exact Run.ite (fun _ => ih (by omega)) fun _ => Run.ok trivial

theorem threeDigitsAt_safe {v : ℕ} (h : v + 3 ≤ b.length) :
    Safe (fun _ => True) (threeDigitsAt b v) := by
  rw [threeDigitsAt_eq h]
  exact Run.ok trivial

theorem push_safe (f : FieldEntry) (h : out.fieldCount < kMaxFields) :
    Safe (fun _ => True) (out.push f) := by
  obtain ⟨o, ho, -⟩ := FieldIndex.push_eq f h
  rw [ho]
  exact Run.ok trivial

theorem tagLoop_safe (n : ℕ) :
    ∀ {tp : ℕ} (tag : ℕ), tp + n ≤ b.length → Safe (fun _ => True) (tagLoop b out n tp tag) := by
  induction n with
  | zero => exact fun _ _ => Run.ok trivial
  | succ n ih =>
    intro tp tag h
    refine Run.bind (byteAt_safe (by omega)) fun c _ => ?_
    refine Run.ite (fun _ => Run.ok trivial) fun _ => ?_
    refine Run.ite (fun _ => Safe.ret _ _) fun _ => ?_
    exact Run.ite (fun _ => Safe.ret _ _) fun _ => ih _ (by omega)

theorem scanField_safe {fs se : ℕ} (hfs : fs ≤ b.length) (hse : se ≤ b.length)
    (h : out.fieldCount < kMaxFields) : Safe (fun _ => True) (scanField b fs se out) := by
  refine Run.bind (tagLoop_safe (se - fs) 0 (by omega)) fun x _ => ?_
  refine Run.ite (fun _ => Safe.ret _ _) fun _ => ?_
  refine Run.ite (fun _ => Safe.ret _ _) fun _ => ?_
  refine Run.ite (fun _ => Safe.ret _ _) fun _ => ?_
  exact Run.ite (fun _ => Safe.ret _ _) fun _ => push_safe _ h

/-- `sohs` is read where it is written, and holds offsets inside the buffer. -/
theorem sohAt_safe {sohs : List ℕ} (hin : ∀ k ∈ sohs, k < b.length) {i : ℕ} (hi : i < sohs.length) :
    Safe (· < b.length) (sohAt sohs i) := by
  rw [sohAt, List.getElem?_eq_getElem hi]
  exact Run.ok (hin _ (List.getElem_mem hi))

theorem fieldLoop_safe {sohs : List ℕ} (hin : ∀ k ∈ sohs, k < b.length) (n : ℕ) :
    ∀ {i fs : ℕ} {out : FieldIndex}, i + n ≤ sohs.length → fs ≤ b.length →
      Safe (fun _ => True) (fieldLoop b sohs n i fs out) := by
  induction n with
  | zero => exact fun _ _ => Run.ok trivial
  | succ n ih =>
    intro i fs out hi hfs
    refine Run.ite (fun _ => Safe.ret _ _) fun hroom => ?_
    refine Run.bind (sohAt_safe hin (by omega)) fun se hse => ?_
    refine Run.bind (scanField_safe hfs hse.le (by omega)) fun o _ => ih (by omega) ?_
    exact (u32_le _).trans hse

theorem checkTrailer_safe {bodyEnd : ℕ} (h : bodyEnd + 7 ≤ b.length) (fs c : ℕ) :
    Safe (fun _ => True) (checkTrailer b bodyEnd fs c out) := by
  refine Run.ite (fun _ => Safe.ret _ _) fun _ => ?_
  refine Run.ite (fun _ => Safe.ret _ _) fun _ => ?_
  refine Run.bind (matchesAt_safe _ (by simp; omega)) fun found _ => ?_
  refine Run.ite (fun _ => Safe.ret _ _) fun _ => ?_
  refine Run.bind (threeDigitsAt_safe (by omega)) fun digits _ => ?_
  refine Run.ite (fun _ => Safe.ret _ _) fun _ => ?_
  refine Run.ite (fun _ => Safe.ret _ _) fun hroom => ?_
  exact Run.bind (push_safe _ (not_le.1 hroom)) fun o _ => Run.ok trivial

/-- Pass 1 leaves at least the offsets it counts, all inside the buffer. -/
theorem pass1_safe {p E : ℕ} (hE : E ≤ b.length) :
    Safe (fun sohs => ∀ k ∈ sohs, k < b.length) (pass1 b out p E) := by
  rw [pass1_eq hE]
  refine Run.ite (fun _ => Run.ok ?_) fun _ => Safe.ret _ _
  intro k hk
  rw [List.nil_append] at hk
  obtain ⟨off, hoff, rfl⟩ := List.mem_map.1 hk
  obtain ⟨i, c, hi, -, rfl⟩ := (mem_positions _ _ _ _).1 hoff
  have hlt := (List.getElem?_eq_some_iff.1 hi).1
  rw [List.length_take, List.length_drop] at hlt
  have := u32_le (p + i)
  omega

/-- **Both passes stay inside** the buffer, the table and the SOH array. -/
theorem scanPasses_safe {p bodyEnd : ℕ} (hE : bodyEnd + 7 ≤ b.length) (hp : p ≤ b.length) :
    Safe (fun _ => True) (scanPasses b p bodyEnd out) := by
  refine Run.bind (pass1_safe hE) fun sohs hin => ?_
  refine Run.ite (fun _ => Safe.ret _ _) fun hpos => ?_
  refine Run.bind (fieldLoop_safe hin _ (by omega) ((u32_le p).trans hp)) fun x _ => ?_
  exact Run.bind (sohAt_safe hin (by omega)) fun c _ => checkTrailer_safe hE _ _

end Avx2Scanner

/-! ## Both scanners -/

namespace Scanner

/-- **No call is stuck**, whatever the buffer and its length. -/
theorem scan_total (s : Scanner) (b : Buffer) (out : FieldIndex) :
    (s.scan b out).result.isSome := by
  cases s with
  | scalar =>
    rw [scan, (ScalarScanner.scan_reads b out).result_eq]
    rfl
  | avx2 =>
    rcases Avx2Scanner.scan_cases b out with ⟨r, -, hres⟩ | ⟨h, o, -, hat, hlen, hres⟩
    · rw [scan, hres]
      rfl
    · have hp : (wire h.fields).length ≤ b.length := by
        have := hat.length
        omega
      have hsafe : Avx2Scanner.Safe (fun _ => True) (Avx2Scanner.scanPasses b _ _ o) :=
        Avx2Scanner.scanPasses_safe hlen hp
      rw [scan, hres]
      rcases hc : Avx2Scanner.scanPasses b (wire h.fields).length h.bodyEnd o with e | o'
      · rw [hc] at hsafe
        obtain ⟨st, out', rfl, -⟩ := hsafe
        rfl
      · rfl

/-- **The verdict on a buffer**: the status and the index of a call. -/
def verdict (s : Scanner) (b : Buffer) : ScanStatus × IndexView :=
  (s.scan b .fresh).result.get (s.scan_total b .fresh)

/-- Every call gives the verdict, whatever the index held before. -/
theorem result_eq (s : Scanner) (b : Buffer) (out : FieldIndex) :
    (s.scan b out).result = some (s.verdict b) := by
  rw [s.scan_prior b out .fresh, verdict, Option.some_get]

theorem verdict_append (s : Scanner) (b e : Buffer) (h : (s.verdict b).1 ≠ .truncated) :
    s.verdict (b ++ e) = s.verdict b := by
  have hr := s.scan_extend b e .fresh .fresh (s.result_eq b .fresh) h
  rw [s.result_eq, Option.some.injEq] at hr
  exact hr

theorem verdict_reads (s : Scanner) {b : Buffer}
    (hfit : s = .avx2 → ∀ h, readHead b = .ok h → h.bodyEnd + 7 ≤ 2 ^ 32) :
    s.verdict b = ((s.read b).status, (s.read b).view) := by
  have hr := (s.scan_ends hfit .fresh).result_eq
  rw [s.result_eq, Option.some.injEq] at hr
  exact hr

end Scanner
end SwiftFIX
