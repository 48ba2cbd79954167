/-
  The two scanners on the same message, error paths included.

  In an `Enclosed` buffer the declared body ends with an SOH, and a trailer of
  seven bytes stands behind it; nothing is asked of the fields.  On the pieces
  of such a body the loops of the two scanners do the same (`readBody_joined`),
  up to the capacity of the SOH array (`enclosed_agree`).
-/
import SwiftFIX.Verdicts
import SwiftFIX.Spans

namespace SwiftFIX

open Decimal Delimited EarlyExit

/-- The trailer `10=ddd<SOH>`, whatever the three bytes `d` are. -/
def trailerField (d : List Byte) : Field := ⟨ascii ['1', '0'], d⟩

/-- **A delimited message** at the start of the buffer: the headers `h`, the
    pieces `ps` of a body of the declared length, and a trailer. -/
structure Enclosed (b : Buffer) (h : Head) (ps : List (List Byte)) (d : List Byte) : Prop where
  head : h.WellFormed
  bytes : b = wire h.fields ++ h.rest
  rest : joined ps ++ (trailerField d).bytes <+: h.rest
  unended : ∀ s ∈ ps, SOH ∉ s
  length : h.f35.size + (joined ps).length = h.bodyLen
  three : d.length = 3
  digits_open : SOH ∉ d

/-- The piece is a field that both loops take. -/
def Takable (s : List Byte) : Prop := ∃ f : Field, s = f.piece ∧ TakenField f

/-! ## The loops on pieces -/

theorem readField_piece {s : List Byte} (hs : SOH ∉ s) (t : List Byte) :
    readField (s ++ SOH :: t) =
      match readPiece s with
      | some f => .field f t
      | none => .malformed := by
  cases hp : readPiece s <;> simp [readField, cut_append hs, hp]

theorem readPiece_piece {f : Field} (h : Tag f.tag) : readPiece f.piece = some f :=
  readPiece_some.2 ⟨rfl, h⟩

theorem Field.piece_length (f : Field) : f.piece.length + 1 = f.size := by
  rw [← f.bytes_length, f.bytes_eq, List.length_append]
  rfl

/-- **The body loop on pieces** that fill the body does what pass 2 does. -/
theorem readBody_joined (t : List Byte) {ps : List (List Byte)} (hps : ∀ s ∈ ps, SOH ∉ s) :
    ∀ fs : List Field, ScalarScanner.readBody fs (joined ps).length (joined ps ++ t) =
      Avx2Scanner.readPieces fs ps >>= fun fs => .ok (fs, some t) := by
  induction ps with
  | nil =>
    intro fs
    rw [ScalarScanner.readBody]
    rfl
  | cons s ps ih =>
    intro fs
    rw [List.forall_mem_cons] at hps
    have hlen := joined_length_cons s ps
    have hb : joined (s :: ps) ++ t = s ++ SOH :: (joined ps ++ t) := by
      rw [joined_cons, List.append_assoc, List.cons_append]
    rw [ScalarScanner.readBody, if_neg (by omega), Avx2Scanner.readPieces, hb,
      readField_piece hps.1]
    by_cases hfull : fs.length ≥ kMaxFields
    · rw [if_pos hfull, if_pos hfull]
      rfl
    rw [if_neg hfull, if_neg hfull]
    rcases hp : readPiece s with _ | f
    · rfl
    · have hsize : s.length + 1 = f.size := by
        rw [(readPiece_some.1 hp).1]
        exact f.piece_length
      have hleft : (joined (s :: ps)).length - f.size = (joined ps).length := by omega
      have hlong : ¬ (joined (s :: ps)).length < f.size := by omega
      simp only [hlong, if_false, hleft]
      split
      · rfl
      · exact ih hps.2 _

/-- The two endings agree on a trailer at the end of the body. -/
theorem readEnding_trailer {b : Buffer} {fs : List Field} {bodyEnd : ℕ} {d t : List Byte}
    (hb : b = wire fs ++ ((trailerField d).bytes ++ t)) (hlt : b.length < 2 ^ 32)
    (hend : (wire fs).length = bodyEnd) (h3 : d.length = 3) (hd : SOH ∉ d) :
    ScalarScanner.readEnding b fs (some ((trailerField d).bytes ++ t)) =
      Avx2Scanner.readTrailer bodyEnd fs (trailerField d).piece := by
  have htag : Tag (trailerField d).tag := (by decide : Tag (ascii ['1', '0']))
  have hnum : (trailerField d).number = 10 :=
    (by decide : Decimal.value (ascii ['1', '0']) = 10)
  have hval : (trailerField d).value = d := rfl
  have hf : readField ((trailerField d).bytes ++ t) = .field (trailerField d) t :=
    readField_field.2 ⟨rfl, htag, hd⟩
  have hlen := congrArg List.length hb
  rw [List.length_append, List.length_append, Field.bytes_length] at hlen
  have hdigits : DigitsAt b (u32 ((wire fs).length + (trailerField d).tag.length + 1)) ↔
      ∀ c ∈ d, IsDigit c := ScalarScanner.digitsAt_value hb (by omega) h3
  have h3' : u32 (trailerField d).value.length = 3 := by
    rw [hval, h3]
    rfl
  have hpiece : (trailerField d).piece = [ch '1', ch '0', ch '='] ++ d := rfl
  rw [hpiece, Avx2Scanner.readTrailer_digits hend h3]
  by_cases hall : ∀ c ∈ d, IsDigit c
  · rw [if_neg (not_not.2 hall)]
    split
    · rename_i hfull
      exact (ScalarScanner.EndingStop.full hf hnum h3' (hdigits.2 hall) hfull).readEnding_eq
    · rename_i hroom
      exact (ScalarScanner.EndingStop.done hf hnum h3' (hdigits.2 hall)
        (not_le.1 hroom)).readEnding_eq
  · rw [if_pos hall]
    exact (ScalarScanner.EndingStop.noDigits hf hnum fun h => hall (hdigits.1 h.2)).readEnding_eq

/-! ## Delimited messages -/

namespace Enclosed
variable {b : Buffer} {h : Head} {ps : List (List Byte)} {d : List Byte}

theorem trailer_size (he : Enclosed b h ps d) : (trailerField d).size = 7 := by
  rw [Field.size, trailerField, he.three]
  rfl

theorem exists_rest (he : Enclosed b h ps d) :
    ∃ t, h.rest = joined ps ++ ((trailerField d).bytes ++ t) := by
  obtain ⟨t, ht⟩ := he.rest
  exact ⟨t, by rw [← List.append_assoc, ht]⟩

theorem readHead_eq (he : Enclosed b h ps d) : readHead b = .ok h := by
  refine readHead_ok.2 ⟨he.head, he.bytes, ?_⟩
  obtain ⟨t, ht⟩ := he.exists_rest
  have hlen := congrArg List.length he.bytes
  have hsize := he.trailer_size
  have hL := he.length
  rw [List.length_append, ht, h.wire_fields_length, List.length_append, List.length_append,
    Field.bytes_length] at hlen
  rw [Head.bodyEnd]
  omega

theorem scalar_read (he : Enclosed b h ps d) {t : List Byte}
    (ht : h.rest = joined ps ++ ((trailerField d).bytes ++ t)) :
    ScalarScanner.read b = .ofRead (Avx2Scanner.readPieces h.fields ps >>= fun fs =>
      ScalarScanner.readEnding b fs (some ((trailerField d).bytes ++ t))) := by
  have hL := he.length
  have hleft : h.bodyLen - h.f35.size = (joined ps).length := by omega
  have hrest : ScalarScanner.readRest h =
      Avx2Scanner.readPieces h.fields ps >>= fun fs =>
        .ok (fs, some ((trailerField d).bytes ++ t)) := by
    rw [ScalarScanner.readRest, if_neg (by omega), hleft, ht, readBody_joined _ he.unended]
  rw [ScalarScanner.read, he.readHead_eq, ok_bind, hrest]
  cases Avx2Scanner.readPieces h.fields ps with
  | error r => rfl
  | ok fs => rfl

theorem pieces_window (he : Enclosed b h ps d) :
    pieces SOH (Avx2Scanner.window h) = ps ++ [(trailerField d).piece] := by
  obtain ⟨t, ht⟩ := he.exists_rest
  have hL := he.length
  have hwin : Avx2Scanner.window h = joined ps ++ (trailerField d).bytes := by
    rw [Avx2Scanner.window, ht, ← List.append_assoc]
    refine List.take_left' ?_
    rw [List.length_append, Field.bytes_length, he.trailer_size]
    omega
  have htag : Tag (trailerField d).tag := (by decide : Tag (ascii ['1', '0']))
  refine pieces_eq.2 ⟨[], ?_, List.not_mem_nil, ?_⟩
  · rw [hwin, Field.bytes_eq, List.append_nil, List.flatMap_append, List.flatMap_singleton]
  · rw [List.forall_mem_append, List.forall_mem_singleton]
    exact ⟨he.unended, htag.piece_open he.digits_open⟩

theorem avx2_read (he : Enclosed b h ps d) :
    Avx2Scanner.read b =
      if kMaxFields ≤ ps.length then ⟨.tableFull, h.fields⟩
      else .ofRead (Avx2Scanner.readPieces h.fields ps >>= fun fs =>
        Avx2Scanner.readTrailer h.bodyEnd fs (trailerField d).piece) := by
  have hlen : (ps ++ [(trailerField d).piece]).length = ps.length + 1 := by simp
  rw [Avx2Scanner.read, he.readHead_eq, ok_bind]
  split
  · unfold Avx2Scanner.readRest
    simp only
    rw [he.pieces_window, if_pos (by omega)]
    rfl
  · rw [Avx2Scanner.readRest_eq he.pieces_window (by omega)]

/-- The fields of a body that was taken whole end at its declared end. -/
theorem wire_length (he : Enclosed b h ps d) {gs : List Field} (hps : ps = gs.map Field.piece) :
    (wire (h.fields ++ gs)).length = h.bodyEnd := by
  have hL := he.length
  rw [h.wire_fields_append_length, Head.bodyEnd, ← hL, hps, wire_eq]

/-- Up to the capacity of the SOH array the readings are the same. -/
theorem read_eq (he : Enclosed b h ps d) (hb : b.length < 2 ^ 32) (hfew : ps.length < kMaxFields) :
    ScalarScanner.read b = Avx2Scanner.read b := by
  obtain ⟨t, ht⟩ := he.exists_rest
  rw [he.scalar_read ht, he.avx2_read, if_neg (not_le.2 hfew)]
  rcases hp : Avx2Scanner.readPieces h.fields ps with r | fs
  · rfl
  · obtain ⟨gs, rfl, hps, -, -⟩ := (Avx2Scanner.readPieces_ok h.fields_length_le).1 hp
    have hbytes : b = wire (h.fields ++ gs) ++ ((trailerField d).bytes ++ t) := by
      rw [he.bytes, ht, wire_append, List.append_assoc, wire_eq gs, ← hps]
    rw [ok_bind, ok_bind, readEnding_trailer hbytes hb (he.wire_length hps) he.three he.digits_open]

end Enclosed

/-- Pass 2 on more pieces than the table has room for: it is full unless one of
    those before stops it. -/
theorem readPieces_tableFull {fs : List Field} {ps : List (List Byte)} (hfs : fs.length ≤ kMaxFields)
    (hmany : kMaxFields < fs.length + ps.length) (f : List Field → Read (List Field)) :
    (Reading.ofRead (Avx2Scanner.readPieces fs ps >>= f)).status = .tableFull ↔
      ∀ s ∈ ps.take (kMaxFields - fs.length), Takable s := by
  obtain ⟨gs, qs, rfl, hgs, hroom, hstop⟩ := Avx2Scanner.readPieces_stops ps fs
  have hroom := hroom hfs
  rw [List.length_append, List.length_map] at hmany
  generalize Avx2Scanner.readPieces fs (gs.map Field.piece ++ qs) = c at hstop
  have hlen : (gs.map Field.piece).length = gs.length := List.length_map _
  -- a piece that stops the pass is among those the table has room for
  have hmem : ∀ {q : List Byte} {qs : List (List Byte)}, (fs ++ gs).length < kMaxFields →
      q ∈ (gs.map Field.piece ++ q :: qs).take (kMaxFields - fs.length) := by
    intro q qs hlt
    rw [List.length_append] at hlt
    rw [List.take_append, hlen]
    refine List.mem_append_right _ ?_
    obtain ⟨k, hk⟩ := Nat.exists_eq_add_of_lt (show gs.length < kMaxFields - fs.length by omega)
    rw [hk, Nat.add_assoc, Nat.add_sub_cancel_left, List.take_succ_cons]
    exact List.mem_cons_self
  cases hstop with
  | done =>
    rw [List.length_nil] at hmany
    omega
  | full many =>
    rw [List.length_append] at many
    refine iff_of_true rfl fun s hs => ?_
    rw [List.take_append_of_le_length (by omega), List.take_of_length_le (by omega)] at hs
    obtain ⟨g, hg, rfl⟩ := List.mem_map.1 hs
    exact ⟨g, rfl, hgs g hg⟩
  | malformed room next =>
    refine iff_of_false (by simp [Reading.ofRead]) fun hall => ?_
    obtain ⟨g, rfl, hg⟩ := hall _ (hmem room)
    rw [readPiece_piece hg.tag] at next
    cases next
  | embedded room next number =>
    refine iff_of_false (by simp [Reading.ofRead]) fun hall => ?_
    obtain ⟨g, rfl, hg⟩ := hall _ (hmem room)
    rw [readPiece_piece hg.tag, Option.some.injEq] at next
    rw [← next] at number
    exact number.elim hg.notLength hg.notData

/-- **The scanners agree on delimited messages**, whatever is wrong with them.
    With fewer than 256 pieces in the body both give the same status and the
    same index.  With more the AVX2 scanner answers `TableFull`, and the scalar
    scanner answers the same exactly if the first 253 pieces are fields that a
    scanner takes. -/
theorem enclosed_agree (b : Buffer) (hb : b.length < 2 ^ 32) (h : Head) (ps : List (List Byte))
    (d : List Byte) (he : Enclosed b h ps d) (out out' : FieldIndex) :
    (ps.length < 256 → (ScalarScanner.scan b out).result = (Avx2Scanner.scan b out').result) ∧
      (256 ≤ ps.length →
        (Avx2Scanner.scan b out').result.map Prod.fst = some .tableFull ∧
        ((ScalarScanner.scan b out).result.map Prod.fst = some .tableFull ↔
          ∀ s ∈ ps.take 253, Takable s)) := by
  have hscalar := Scanner.scalar.scan_result hb out
  have havx2 := Scanner.avx2.scan_result hb out'
  simp only [Scanner.scan, Scanner.read] at hscalar havx2
  rw [hscalar, havx2]
  constructor
  · intro hfew
    rw [he.read_eq hb hfew]
  · intro hmany
    have h3 : h.fields.length = 3 := rfl
    have hfull : kMaxFields ≤ ps.length := hmany
    obtain ⟨t, ht⟩ := he.exists_rest
    rw [he.scalar_read ht, he.avx2_read, if_pos hfull]
    refine ⟨rfl, ?_⟩
    rw [Option.map_some, Option.some.injEq]
    exact readPieces_tableFull h.fields_length_le (by rw [h3]; omega) _

/-- The headers of a message with a body field without a tag number, and a
    checksum field without digits. -/
def brokenHead : Head :=
  ⟨⟨[ch '8'], [ch 'F']⟩, ⟨[ch '9'], [ch '8']⟩, ⟨[ch '3', ch '5'], []⟩,
    ascii "x=1\x0110=abc\x01".toList⟩

theorem enclosed_agree_broken :
    (ScalarScanner.scan (wire brokenHead.fields ++ brokenHead.rest) .fresh).result =
      (Avx2Scanner.scan (wire brokenHead.fields ++ brokenHead.rest) .fresh).result :=
  (enclosed_agree (wire brokenHead.fields ++ brokenHead.rest) (by decide) brokenHead
    [ascii "x=1".toList] (ascii "abc".toList)
    ⟨⟨by decide, by decide, by decide, by decide, by decide, by decide, by decide⟩, rfl, by decide,
      by decide, by decide, by decide, by decide⟩ .fresh .fresh).1 (by decide)

end SwiftFIX
