/-
  The scanner interface and the runtime choice of a scanner (`scanner.hpp`,
  `dispatch.cpp`), and what holds of either scanner.
-/
import SwiftFIX.ScalarReads
import SwiftFIX.Avx2Reads
import SwiftFIX.Accepts

namespace SwiftFIX

/-! ## Scanners -/

/-- The scanners of the library. -/
inductive Scanner where
  | scalar
  | avx2
  deriving DecidableEq, Repr

namespace Scanner

/-- `Scanner::scan`, the virtual call. -/
def scan : Scanner → Buffer → FieldIndex → Outcome
  | scalar => ScalarScanner.scan
  | avx2 => Avx2Scanner.scan

/-- What the scanner reads of a buffer. -/
def read : Scanner → Buffer → Reading
  | scalar => ScalarScanner.read
  | avx2 => Avx2Scanner.read

/-- The frames a scanner accepts. -/
def Accepts : Scanner → Frame → Prop
  | scalar, _ => True
  | avx2, F => F.Canonical

end Scanner

/-! ## Dispatch -/

/-- What the dispatch asks of the build and of the CPU. -/
structure Host where
  /-- `SWIFTFIX_COMPILE_AVX2` -/
  compileAvx2 : Bool
  /-- `__builtin_cpu_supports("avx2")` -/
  supportsAvx2 : Bool
  deriving DecidableEq, Repr

/-- `avx2_is_available_at_runtime()`. -/
def avx2IsAvailableAtRuntime (host : Host) : Bool := host.compileAvx2 && host.supportsAvx2

/-- `default_scanner()`. -/
def defaultScanner (host : Host) : Scanner :=
  if avx2IsAvailableAtRuntime host then .avx2 else .scalar

/-! ## What either scanner does -/

namespace Scanner

variable {b : Buffer}

/-- **Either scanner computes its reading**, the AVX2 scanner for messages that
    fit its 32-bit offsets. -/
theorem scan_ends (s : Scanner)
    (hfit : s = .avx2 → ∀ h, readHead b = .ok h → h.bodyEnd + 7 ≤ 2 ^ 32) (out : FieldIndex) :
    Ends (s.read b) (s.scan b out) := by
  cases s with
  | scalar => exact ScalarScanner.scan_reads b out
  | avx2 => exact Avx2Scanner.scan_reads b out (hfit rfl)

/-- Below 4 GiB every message fits. -/
theorem scan_result (s : Scanner) (hb : b.length < 2 ^ 32) (out : FieldIndex) :
    (s.scan b out).result = some ((s.read b).status, (s.read b).view) := by
  refine Ends.result_eq (s.scan_ends (fun _ h hh => ?_) out)
  have := (readHead_ok.1 hh).2.2
  omega

theorem read_ok (s : Scanner) (hb : b.length < 2 ^ 32) {fs : List Field} :
    s.read b = ⟨.ok, fs⟩ ↔ ∃ F : Frame, F.fields = fs ∧ s.Accepts F ∧ F.bytes <+: b := by
  cases s with
  | scalar =>
    refine (ScalarScanner.read_ok hb).trans ?_
    simp [Accepts]
  | avx2 => exact Avx2Scanner.read_ok

theorem frame_unique {F G : Frame} (hb : b.length < 2 ^ 32) (hF : F.bytes <+: b)
    (hG : G.bytes <+: b) : F = G := by
  have h1 := (ScalarScanner.read_ok hb).2 ⟨F, rfl, hF⟩
  have h2 := (ScalarScanner.read_ok hb).2 ⟨G, rfl, hG⟩
  rw [h1, Reading.mk.injEq] at h2
  exact Frame.fields_injective h2.2

/-- **A scanner accepts** a buffer iff it begins with a frame the scanner
    accepts, and the index is then the frame's. -/
theorem result_ok (s : Scanner) (hb : b.length < 2 ^ 32) (out : FieldIndex) {v : IndexView} :
    (s.scan b out).result = some (.ok, v) ↔
      ∃ F : Frame, s.Accepts F ∧ F.bytes <+: b ∧ v = F.index := by
  rw [s.scan_result hb, Option.some.injEq, Prod.mk.injEq]
  constructor
  · rintro ⟨hok, rfl⟩
    have hr : s.read b = ⟨.ok, (s.read b).fields⟩ := by rw [← hok]
    obtain ⟨F, hF, hacc, hpre⟩ := (s.read_ok hb).1 hr
    refine ⟨F, hacc, hpre, ?_⟩
    rw [hr, ← hF]
    exact F.view_eq (lt_of_le_of_lt hpre.length_le hb)
  · rintro ⟨F, hacc, hpre, rfl⟩
    have hr := (s.read_ok hb).2 ⟨F, rfl, hacc, hpre⟩
    rw [hr]
    exact ⟨rfl, F.view_eq (lt_of_le_of_lt hpre.length_le hb)⟩

end Scanner
end SwiftFIX
