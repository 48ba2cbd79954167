/-
  What the shim hands to QuickFIX on the fast path.

  * `handsOver_iff`: the tags and the ranges in the array are the ones on the
    wire, unless the frame has a tag from `2^31` on: the scanner's bound is one
    of 32 bits, and the shim casts the number to an `int`.
  * `scan_metrics`: the lengths and the byte sums of the fields add up to the
    declared body length, to the length of the frame and to its checksum.
-/
import SwiftFIX.Preparse
import SwiftFIX.Spans

namespace SwiftFIX

open Decimal Delimited EarlyExit FIX

/-! ## The array -/

/-- The span that the pointers delimit. -/
def FIX.PreScanField.span (pf : PreScanField) : Span := ⟨pf.tagStart, pf.valueStart, pf.valueEnd⟩

namespace Shim

/-- The fields of the array are the fields of the buffer from its start on, each
    with the positive number that its tag bytes spell. -/
structure OnWire (b : Buffer) (pfs : List PreScanField) : Prop where
  tiles : ∃ q, Tiles b 0 (pfs.map PreScanField.span) q
  positive : ∀ pf ∈ pfs, 0 < pf.tag
  tags : ∀ pf ∈ pfs, pf.tag = Decimal.value (pf.span.tagBytes b)

/-- On an `Ok` the array that `apply_field_index` hands to QuickFIX is on the
    wire, whatever the scratch array held. -/
def HandsOver (s : Scanner) (b : Buffer) : Prop :=
  ∀ out v, (s.scan b out).result = some (.ok, v) → ∀ scratch, ∃ scratch',
    translate v.entries 0 scratch = some scratch' ∧
      OnWire b (scratch'.toList.take v.fieldCount)

/-- The buffer begins with a frame that the scanner accepts and that has a tag
    from `2^31` on. -/
def LargeTag (s : Scanner) (b : Buffer) : Prop :=
  ∃ F : Frame, s.Accepts F ∧ F.bytes <+: b ∧ ∃ f ∈ F.fields, 2 ^ 31 ≤ f.number

section
variable {s : Scanner} {b : Buffer}

theorem translate_index (F : Frame) (scratch : Vector PreScanField kMaxFields) :
    ∃ scratch', translate F.index.entries 0 scratch = some scratch' ∧
      scratch'.toList.take F.index.fieldCount = (places 0 F.fields).map preScanField := by
  have hroom : F.fields.length ≤ kMaxFields := by
    have h := F.room
    simp only [Message.fields, List.length_cons, List.length_append, List.length_nil]
    omega
  have hlen := places_length F.fields 0
  obtain ⟨scratch', hs, ht⟩ := translate_eq (places 0 F.fields) 0 scratch (by omega)
  refine ⟨scratch', hs, ?_⟩
  rw [Nat.zero_add, hlen, List.take_zero, List.nil_append] at ht
  exact ht

theorem castInt_pos {n : ℕ} (hn : n ≠ 0) (h : n < 2 ^ 31) : 0 < castInt n ∧ castInt n = n := by
  rw [castInt, if_pos h]
  exact ⟨by omega, rfl⟩

/-- **The array of a frame** is on the wire iff no tag of the frame is cast to a
    negative number. -/
theorem onWire_index {F : Frame} (hF : F.bytes <+: b) :
    OnWire b ((places 0 F.fields).map preScanField) ↔ ∀ f ∈ F.fields, f.number < 2 ^ 31 := by
  have hspells := spells_of_prefix hF
  constructor
  · intro h f hf
    have hpos : ∀ f ∈ F.fields, 0 < castInt f.number := by
      refine forall_of_forall₂ (hspells.imp fun e f h => h.number).flip ?_
        (List.forall_mem_map.1 h.positive)
      intro f e hnum hpos
      rw [← hnum]
      exact hpos
    by_contra hlarge
    have hneg := (castInt_neg (F.fields_tag f hf).1.1.2).2 (not_lt.1 hlarge)
    exact absurd hneg (lt_asymm (hpos f hf))
  · intro hsmall
    have htags : ∀ e ∈ places 0 F.fields, 0 < castInt e.tagNumber ∧
        castInt e.tagNumber = Decimal.value (e.span.tagBytes b) := by
      refine forall_of_forall₂ hspells (Q := fun f => f.number ≠ 0 ∧ f.number < 2 ^ 31) ?_ ?_
      · rintro e f ⟨htag, -, hnum⟩ ⟨hne, hlt⟩
        rw [hnum, htag]
        exact castInt_pos hne hlt
      · intro f hf
        exact ⟨(F.fields_tag f hf).1.2, hsmall f hf⟩
    refine ⟨⟨F.bytes.length, ?_⟩, ?_, ?_⟩
    · rw [List.map_map]
      exact tiles_of_prefix F.fields_tag hF
    · rw [List.forall_mem_map]
      exact fun e he => (htags e he).1
    · rw [List.forall_mem_map]
      exact fun e he => (htags e he).2

end

section
variable {s : Scanner} {b : Buffer}

theorem LargeTag.not_handsOver (hb : b.length < 2 ^ 32) (h : LargeTag s b) : ¬ HandsOver s b := by
  obtain ⟨F, hacc, hF, f, hf, hlarge⟩ := h
  intro hover
  have hok := (s.result_ok hb .fresh).2 ⟨F, hacc, hF, rfl⟩
  obtain ⟨scratch, htranslate, hwire⟩ := hover .fresh _ hok (.replicate _ default)
  obtain ⟨scratch', htranslate', htake⟩ := translate_index F (.replicate _ default)
  obtain rfl : scratch = scratch' := Option.some.inj (htranslate.symm.trans htranslate')
  rw [htake, onWire_index hF] at hwire
  exact absurd (hwire f hf) (not_lt.2 hlarge)

theorem handsOver_of_not (hb : b.length < 2 ^ 32) (h : ¬ LargeTag s b) : HandsOver s b := by
  intro out v hv scratch
  obtain ⟨F, hacc, hF, rfl⟩ := (s.result_ok hb out).1 hv
  obtain ⟨scratch', htranslate, htake⟩ := translate_index F scratch
  refine ⟨scratch', htranslate, ?_⟩
  rw [htake, onWire_index hF]
  intro f hf
  exact not_le.1 fun hlarge => h ⟨F, hacc, hF, f, hf, hlarge⟩

end

/-- **The array is the one on the wire** exactly on the buffers that do not begin
    with an accepted frame with a tag from `2^31` on. -/
theorem handsOver_iff (s : Scanner) (b : Buffer) (hb : b.length < 2 ^ 32) :
    HandsOver s b ↔ ¬ LargeTag s b :=
  ⟨fun h hlarge => hlarge.not_handsOver hb h, handsOver_of_not hb⟩

theorem handsOver_plain : HandsOver .scalar plainChecksum ↔ ¬ LargeTag .scalar plainChecksum :=
  handsOver_iff .scalar plainChecksum (by decide)

/-- A message with the tag `2^31`. -/
def largeTagFrame : Frame where
  beginString := ascii ['F']
  bodyLength := ascii ['1', '6']
  msgType := []
  body := [⟨ascii "2147483648".toList, []⟩]
  checksum := ⟨ascii ['1', '0'], ascii ['0', '0', '0']⟩
  beginString_open := by decide
  bodyLength_numeral := by decide
  bodyLength_ne := by decide
  msgType_open := by decide
  body_fields f hf := by
    rw [List.mem_singleton.1 hf]
    exact ⟨by decide, by decide, by decide, by decide⟩
  checksum_field := ⟨by decide, by decide, by decide, by decide⟩
  length_eq := by decide
  room := by decide

/-- Either scanner accepts the tag `2147483648`, and the shim hands it over as a
    negative number. -/
theorem not_handsOver_largeTag :
    largeTagFrame.bytes = ascii "8=F\x019=16\x0135=\x012147483648=\x0110=000\x01".toList ∧
      ¬ HandsOver .scalar largeTagFrame.bytes ∧ ¬ HandsOver .avx2 largeTagFrame.bytes := by
  have hb : largeTagFrame.bytes.length < 2 ^ 32 := by decide
  have hlarge : ∃ f ∈ largeTagFrame.fields, 2 ^ 31 ≤ f.number :=
    ⟨⟨ascii "2147483648".toList, []⟩, by decide, by decide⟩
  refine ⟨by decide, ?_, ?_⟩
  · exact LargeTag.not_handsOver hb ⟨largeTagFrame, trivial, List.prefix_rfl, hlarge⟩
  · exact LargeTag.not_handsOver hb ⟨largeTagFrame, rfl, List.prefix_rfl, hlarge⟩

/-! ## The metrics -/

/-- The sum of the bytes. -/
def byteSum (s : List Byte) : ℕ := (s.map UInt8.toNat).sum

/-- **The metrics of an index add up**: those of the body fields and `35` to the
    declared length, all to the length of the frame, and the byte sums before the
    checksum field to the checksum of the frame. -/
structure AddsUp (b : Buffer) (v : IndexView) (ms : List FieldMetrics) : Prop where
  count : ms.length = v.fieldCount
  body : ((ms.drop 2).dropLast.map FieldMetrics.length).sum = v.declaredBodyLength
  frame : (ms.map FieldMetrics.length).sum = v.frameLength
  checksum : ∃ e, v.entries[v.checksumIdx.toNat]? = some e ∧
    (ms.dropLast.map FieldMetrics.checksum).sum % 256 = byteSum (b.take e.tagStart) % 256

section
variable {s : Scanner} {b : Buffer}

theorem byteSum_cons (c : Byte) (s : List Byte) : byteSum (c :: s) = c.toNat + byteSum s := by
  rw [byteSum, List.map_cons, List.sum_cons]
  rfl

theorem byteSum_append (s t : List Byte) : byteSum (s ++ t) = byteSum s + byteSum t := by
  rw [byteSum, List.map_append, List.sum_append]
  rfl

/-- The sum of the model is the sum of the bytes in 32 bits. -/
theorem checksum_calculateMetrics (s : List Byte) :
    (calculateMetrics s).checksum = u32 (byteSum s) := by
  have hfold : ∀ n, s.foldl (fun sum c => u32 (sum + c.toNat)) (u32 n) = u32 (n + byteSum s) := by
    induction s with
    | nil => exact fun _ => rfl
    | cons c s ih =>
      intro n
      rw [List.foldl_cons, u32_add, ih, byteSum_cons, Nat.add_assoc]
  have h := hfold 0
  rwa [Nat.zero_add] at h

/-- It is the sum modulo 256. -/
theorem checksum_mod (s : List Byte) : (calculateMetrics s).checksum % 256 = byteSum s % 256 := by
  rw [checksum_calculateMetrics, u32]
  omega

/-- The metrics of a field on the wire. -/
abbrev metricsOf (f : Field) : FieldMetrics := calculateMetrics f.bytes

theorem sum_lengths (fs : List Field) :
    ((fs.map metricsOf).map FieldMetrics.length).sum = (wire fs).length := by
  induction fs with
  | nil => rfl
  | cons f fs ih =>
    rw [List.map_cons, List.map_cons, List.sum_cons, ih, wire_cons_length, ← f.bytes_length]
    rfl

theorem sum_checksums (fs : List Field) :
    ((fs.map metricsOf).map FieldMetrics.checksum).sum % 256 = byteSum (wire fs) % 256 := by
  induction fs with
  | nil => rfl
  | cons f fs ih =>
    have hf := checksum_mod f.bytes
    rw [List.map_cons, List.map_cons, List.sum_cons, wire_cons, byteSum_append, Nat.add_mod, hf, ih,
      ← Nat.add_mod]

theorem addsUp_index {F : Frame} (hF : F.bytes <+: b) : AddsUp b F.index (F.fields.map metricsOf) := by
  have hfields : F.fields = F.f8 :: F.f9 :: F.f35 :: F.body ++ [F.checksum] := by
    rw [Message.fields]
    simp
  have hhead : F.fields.dropLast = F.f8 :: F.f9 :: F.f35 :: F.body := by
    rw [hfields, List.dropLast_concat]
  refine ⟨List.length_map _, ?_, sum_lengths F.fields, ?_⟩
  · have hbody : ((F.fields.map metricsOf).drop 2).dropLast = (F.f35 :: F.body).map metricsOf := by
      rw [← List.map_drop, ← List.map_dropLast, hfields]
      show ((F.f35 :: F.body ++ [F.checksum]).dropLast).map metricsOf = _
      rw [List.dropLast_concat]
    rw [hbody, sum_lengths]
    exact F.length_eq
  · have hplaces := places_append F.fields.dropLast [F.checksum] 0
    have hlast : F.fields.dropLast ++ [F.checksum] = F.fields := by
      rw [hhead, hfields]
    have hidx : F.index.checksumIdx.toNat = (places 0 F.fields.dropLast).length := by
      rw [places_length, List.length_dropLast]
      show ((F.fields.length : ℤ) - 1).toNat = _
      omega
    rw [hlast, Nat.zero_add] at hplaces
    refine ⟨F.checksum.place (wire F.fields.dropLast).length, ?_, ?_⟩
    · show (places 0 F.fields)[F.index.checksumIdx.toNat]? = _
      rw [hidx, hplaces, List.getElem?_append_right le_rfl, Nat.sub_self]
      rfl
    · obtain ⟨t, rfl⟩ := hF
      have htake : (F.bytes ++ t).take (wire F.fields.dropLast).length = wire F.fields.dropLast := by
        rw [Message.bytes, ← hlast, wire_append, List.append_assoc, List.dropLast_concat,
          List.take_left]
      rw [← List.map_dropLast, sum_checksums]
      exact congrArg (fun s => byteSum s % 256) htake.symm

end

/-- **The metrics of the fast path add up** to the length and the checksum of
    the frame. -/
theorem scan_metrics (s : Scanner) (b : Buffer) (hb : b.length < 2 ^ 32) (out : FieldIndex)
    (v : IndexView) (hv : (s.scan b out).result = some (.ok, v)) :
    ∃ fields, List.Forall₂ (fun e field => (preScanField e).field b = .ok field) v.entries fields ∧
      AddsUp b v (fields.map FieldBase.metrics) := by
  obtain ⟨F, -, hF, rfl⟩ := (s.result_ok hb out).1 hv
  refine ⟨F.fields.map fastField, ?_, ?_⟩
  · obtain ⟨t, rfl⟩ := hF
    exact List.forall₂_map_left_iff.1 (fields_places (List.prefix_append F.bytes t))
  · rw [List.map_map]
    exact addsUp_index hF

theorem scan_metrics_largeTag :
    ∃ fields, List.Forall₂ (fun e field => (preScanField e).field largeTagFrame.bytes = .ok field)
        largeTagFrame.index.entries fields ∧
      AddsUp largeTagFrame.bytes largeTagFrame.index (fields.map FieldBase.metrics) := by
  have hb : largeTagFrame.bytes.length < 2 ^ 32 := by decide
  have hok := (Scanner.scalar.result_ok hb .fresh).2 ⟨_, trivial, List.prefix_rfl, rfl⟩
  exact scan_metrics .scalar largeTagFrame.bytes hb .fresh _ hok

end Shim
end SwiftFIX
