/-
  Which buffers the two scanners accept, and where they differ.
-/
import SwiftFIX.Dispatch

namespace SwiftFIX

/-- A message with a zero-padded checksum tag: the scalar scanner accepts it,
    the AVX2 scanner does not. -/
def paddedChecksum : Buffer := ascii "8=F\x019=4\x0135=\x01010=123\x01".toList

/-- The same message with the checksum tag spelled `10`. -/
def plainChecksum : Buffer := ascii "8=F\x019=4\x0135=\x0110=123\x01".toList

namespace ScalarScanner

/-- **The scalar scanner accepts exactly the frame grammar**: it answers `Ok`
    iff the buffer begins with a frame.  That frame is the only one, the index
    describes it, and it lies within the buffer. -/
theorem accepts_frames (b : Buffer) (out : FieldIndex) (hb : b.length < 2 ^ 32) :
    ((∃ v, (scan b out).result = some (.ok, v)) ↔ ∃ F : Frame, F.bytes <+: b) ∧
      ∀ v, (scan b out).result = some (.ok, v) →
        ∃ F : Frame, F.bytes <+: b ∧ (∀ G : Frame, G.bytes <+: b → G = F) ∧ v = F.index ∧
          v.frameLength ≤ b.length := by
  refine ⟨⟨?_, ?_⟩, ?_⟩
  · rintro ⟨v, hv⟩
    obtain ⟨F, -, hF, -⟩ := (Scanner.scalar.result_ok hb out).1 hv
    exact ⟨F, hF⟩
  · rintro ⟨F, hF⟩
    exact ⟨F.index, (Scanner.scalar.result_ok hb out).2 ⟨F, trivial, hF, rfl⟩⟩
  · intro v hv
    obtain ⟨F, -, hF, rfl⟩ := (Scanner.scalar.result_ok hb out).1 hv
    exact ⟨F, hF, fun G hG => Scanner.frame_unique hb hG hF, rfl, hF.length_le⟩

theorem accepts_frames_padded :
    ((∃ v, (scan paddedChecksum .fresh).result = some (.ok, v)) ↔
        ∃ F : Frame, F.bytes <+: paddedChecksum) ∧
      ∀ v, (scan paddedChecksum .fresh).result = some (.ok, v) →
        ∃ F : Frame, F.bytes <+: paddedChecksum ∧ (∀ G : Frame, G.bytes <+: paddedChecksum → G = F) ∧
          v = F.index ∧ v.frameLength ≤ paddedChecksum.length :=
  accepts_frames paddedChecksum .fresh (by decide)

end ScalarScanner

namespace Avx2Scanner

/-- **The AVX2 scanner accepts exactly the frames with a seven-byte trailer**
    `10=NNN<SOH>`; the index describes the frame, which ends seven bytes after
    the declared body. -/
theorem accepts_canonical_frames (b : Buffer) (out : FieldIndex) (hb : b.length < 2 ^ 32) :
    ((∃ v, (scan b out).result = some (.ok, v)) ↔ ∃ F : Frame, F.Canonical ∧ F.bytes <+: b) ∧
      ∀ v, (scan b out).result = some (.ok, v) →
        ∃ F : Frame, F.Canonical ∧ F.bytes <+: b ∧ v = F.index ∧
          v.frameLength = (wire [F.f8, F.f9]).length + v.declaredBodyLength + 7 := by
  refine ⟨⟨?_, ?_⟩, ?_⟩
  · rintro ⟨v, hv⟩
    obtain ⟨F, hc, hF, -⟩ := (Scanner.avx2.result_ok hb out).1 hv
    exact ⟨F, hc, hF⟩
  · rintro ⟨F, hc, hF⟩
    exact ⟨F.index, (Scanner.avx2.result_ok hb out).2 ⟨F, hc, hF, rfl⟩⟩
  · intro v hv
    obtain ⟨F, hc, hF, rfl⟩ := (Scanner.avx2.result_ok hb out).1 hv
    refine ⟨F, hc, hF, rfl, ?_⟩
    have hL : (wire (F.f35 :: F.body)).length = Decimal.value F.bodyLength := F.length_eq
    have h7 : F.checksum.size = 7 := Message.Canonical.checksum_size hc
    rw [Message.index, F.bytes_eq, List.length_append, List.length_append, Field.bytes_length, hL, h7]
    simp only
    omega

theorem accepts_canonical_frames_plain :
    ((∃ v, (scan plainChecksum .fresh).result = some (.ok, v)) ↔
        ∃ F : Frame, F.Canonical ∧ F.bytes <+: plainChecksum) ∧
      ∀ v, (scan plainChecksum .fresh).result = some (.ok, v) →
        ∃ F : Frame, F.Canonical ∧ F.bytes <+: plainChecksum ∧ v = F.index ∧
          v.frameLength = (wire [F.f8, F.f9]).length + v.declaredBodyLength + 7 :=
  accepts_canonical_frames plainChecksum .fresh (by decide)

end Avx2Scanner

/-! ## Agreement -/

/-- The scanners agree on acceptance: both answer `Ok` or none does, and the
    indexes are equal when both do. -/
def AgreeOnOk (b : Buffer) (out out' : FieldIndex) : Prop :=
  ((∃ v, (ScalarScanner.scan b out).result = some (.ok, v)) ↔
      ∃ v, (Avx2Scanner.scan b out').result = some (.ok, v)) ∧
    ∀ v v', (ScalarScanner.scan b out).result = some (.ok, v) →
      (Avx2Scanner.scan b out').result = some (.ok, v') → v = v'

/-- **The scanners agree on acceptance** exactly on the buffers that do not
    begin with a frame whose checksum tag is zero-padded. -/
theorem agreeOnOk_iff (b : Buffer) (out out' : FieldIndex) (hb : b.length < 2 ^ 32) :
    AgreeOnOk b out out' ↔ ¬ ∃ F : Frame, F.bytes <+: b ∧ F.checksum.tag ≠ ascii ['1', '0'] := by
  constructor
  · rintro ⟨hiff, -⟩ ⟨F, hF, hpad⟩
    have hscalar := (Scanner.scalar.result_ok hb out).2 ⟨F, trivial, hF, rfl⟩
    obtain ⟨v, hv⟩ := hiff.1 ⟨F.index, hscalar⟩
    obtain ⟨G, hc, hG, -⟩ := (Scanner.avx2.result_ok hb out').1 hv
    obtain rfl := Scanner.frame_unique hb hF hG
    exact hpad hc
  · intro h
    refine ⟨⟨?_, ?_⟩, ?_⟩
    · rintro ⟨v, hv⟩
      obtain ⟨F, -, hF, -⟩ := (Scanner.scalar.result_ok hb out).1 hv
      have hc : F.Canonical := by
        by_contra hc
        exact h ⟨F, hF, hc⟩
      exact ⟨F.index, (Scanner.avx2.result_ok hb out').2 ⟨F, hc, hF, rfl⟩⟩
    · rintro ⟨v, hv⟩
      obtain ⟨F, -, hF, -⟩ := (Scanner.avx2.result_ok hb out').1 hv
      exact ⟨F.index, (Scanner.scalar.result_ok hb out).2 ⟨F, trivial, hF, rfl⟩⟩
    · intro v v' hv hv'
      obtain ⟨F, -, hF, rfl⟩ := (Scanner.scalar.result_ok hb out).1 hv
      obtain ⟨G, -, hG, rfl⟩ := (Scanner.avx2.result_ok hb out').1 hv'
      rw [Scanner.frame_unique hb hF hG]

theorem agreeOnOk_plain :
    AgreeOnOk plainChecksum .fresh .fresh ↔
      ¬ ∃ F : Frame, F.bytes <+: plainChecksum ∧ F.checksum.tag ≠ ascii ['1', '0'] :=
  agreeOnOk_iff plainChecksum .fresh .fresh (by decide)

set_option maxRecDepth 4000 in
/-- The scalar scanner accepts the zero-padded checksum tag `010`, the AVX2
    scanner answers `BadBodyLength`. -/
theorem not_agreeOnOk_padded :
    paddedChecksum.length < 2 ^ 32 ∧ ¬ AgreeOnOk paddedChecksum .fresh .fresh := by
  refine ⟨by decide, fun ⟨hiff, _⟩ => ?_⟩
  have hscalar : (ScalarScanner.scan paddedChecksum .fresh).result.map (·.1) = some .ok := by decide
  have havx2 : (Avx2Scanner.scan paddedChecksum .fresh).result.map (·.1) = some .badBodyLength := by
    decide
  obtain ⟨⟨st, v⟩, hv, rfl⟩ := Option.map_eq_some_iff.1 hscalar
  obtain ⟨v', hv'⟩ := hiff.1 ⟨v, hv⟩
  rw [hv'] at havx2
  cases havx2

end SwiftFIX
