/-
  What the AVX2 scanner takes, for messages of any length
  (`Avx2Scanner.scan_taken`), and on which of its windows pass 2 leaves for
  QuickFIX (`LeavesAt`).

  Pass 2 works on narrowed offsets alone.  From 4 GiB on it parses the bytes
  that stand at these offsets, not those of the message (`Narrowed`); the
  trailer is read through a pointer, where it is.
-/
import SwiftFIX.Accepts
import SwiftFIX.Avx2Reads
import SwiftFIX.Spans

namespace SwiftFIX
namespace Avx2Scanner

open Decimal Delimited EarlyExit

/-- Each of the pieces, which start at offset `p`, reads as a body field at its
    narrowed offsets. -/
def Narrowed (b : Buffer) : ℕ → List (List Byte) → Prop
  | _, [] => True
  | p, s :: ps =>
    (∃ f, readPiece (slice b (u32 p) (u32 (p + s.length))) = some f ∧
      f.number ≠ 95 ∧ f.number ≠ 96) ∧ Narrowed b (p + s.length + 1) ps

/-- **A message the AVX2 scanner takes**, of any length: the headers `h`, the
    pieces of a body that fills the declared length, and a trailer of seven
    bytes. -/
structure Taken (b : Buffer) (h : Head) (ps : List (List Byte)) (f : Field) : Prop where
  head : h.WellFormed
  bytes : b = wire h.fields ++ h.rest
  rest : joined ps ++ f.bytes <+: h.rest
  unended : ∀ s ∈ ps, SOH ∉ s
  narrowed : Narrowed b (wire h.fields).length ps
  length : h.f35.size + (joined ps).length = h.bodyLen
  tag : f.tag = ascii ['1', '0']
  checksum : ChecksumField f
  room : ps.length + 4 ≤ kMaxFields

/-- An exit that is no acceptance. -/
def Rejects (e : Outcome) : Prop := ∀ v, e.result ≠ some (.ok, v)

theorem rejects_ret {st : ScanStatus} {out : FieldIndex} (h : st ≠ .ok := by decide) :
    Rejects (.ret st out) := by
  intro v hv
  rw [Outcome.result, Option.some.injEq, Prod.mk.injEq] at hv
  exact h hv.1

/-- The call ends with `Ok`, `FallbackRequested` or `TableFull`. -/
def Arrived (e : Outcome) : Prop := ∃ st v, e.result = some (st, v) ∧ st.Arrived

theorem arrived_ret {st : ScanStatus} {out : FieldIndex} : Arrived (.ret st out) ↔ st.Arrived := by
  constructor
  · rintro ⟨_, _, h, harr⟩
    rw [Outcome.result, Option.some.injEq, Prod.mk.injEq] at h
    exact h.1 ▸ harr
  · exact fun h => ⟨_, _, rfl, h⟩

theorem not_arrived_ret {st : ScanStatus} {out : FieldIndex}
    (h : st = .malformed ∨ st = .badBodyLength := by decide) : ¬ Arrived (.ret st out) := by
  rw [arrived_ret]
  rcases h with rfl | rfl <;> simp [ScanStatus.Arrived]

/-- The piece `s`, which starts at offset `p`, reads as a field of embedded data
    at its narrowed offsets. -/
def EmbeddedAt (b : Buffer) (p : ℕ) (s : List Byte) : Prop :=
  ∃ f, readPiece (slice b (u32 p) (u32 (p + s.length))) = some f ∧
    (f.number = 95 ∨ f.number = 96)

/-- Pass 2, with `n` entries populated, gets to one of the pieces with the table
    full, or to one that reads as a field of embedded data. -/
def LeavesAt (b : Buffer) (n p : ℕ) (ps : List (List Byte)) : Prop :=
  ∃ qs q rs, ps = qs ++ q :: rs ∧ Narrowed b p qs ∧
    (kMaxFields ≤ n + qs.length ∨ EmbeddedAt b (p + (joined qs).length) q)

variable {b : Buffer} {out : FieldIndex}

/-! ## Pass 2 -/

theorem leavesAt_cons {n p : ℕ} {s : List Byte} {ps : List (List Byte)} :
    LeavesAt b n p (s :: ps) ↔ kMaxFields ≤ n ∨ EmbeddedAt b p s ∨
      (∃ f, readPiece (slice b (u32 p) (u32 (p + s.length))) = some f ∧
        f.number ≠ 95 ∧ f.number ≠ 96) ∧ LeavesAt b (n + 1) (p + s.length + 1) ps := by
  have hoff : ∀ qs, p + (joined (s :: qs)).length = p + s.length + 1 + (joined qs).length :=
    fun qs => by rw [joined_length_cons, ← Nat.add_assoc, ← Nat.add_assoc]
  have hcount : ∀ qs : List (List Byte), n + (s :: qs).length = n + 1 + qs.length :=
    fun qs => by rw [List.length_cons]; omega
  constructor
  · rintro ⟨qs, q, rs, hps, hqs, hstop⟩
    rcases qs with _ | ⟨r, qs⟩
    · cases hps
      exact hstop.imp id Or.inl
    · cases hps
      rw [hoff, hcount] at hstop
      exact Or.inr (Or.inr ⟨hqs.1, qs, q, rs, rfl, hqs.2, hstop⟩)
  · rintro (hfull | hdata | ⟨hs, qs, q, rs, rfl, hqs, hstop⟩)
    · exact ⟨[], s, ps, rfl, trivial, Or.inl hfull⟩
    · exact ⟨[], s, ps, rfl, trivial, Or.inr hdata⟩
    · refine ⟨s :: qs, q, rs, rfl, ⟨hs, hqs⟩, ?_⟩
      rw [hoff, hcount]
      exact hstop

/-- Pieces that are all fields overflow the table, or fit it. -/
theorem Narrowed.length_le {n p : ℕ} {ps : List (List Byte)} (h : Narrowed b p ps)
    (hmax : n ≤ kMaxFields) (hleaves : ¬ LeavesAt b n p ps) : n + ps.length ≤ kMaxFields := by
  induction ps generalizing n p with
  | nil => exact hmax
  | cons s ps ih =>
    rw [leavesAt_cons, not_or, not_or, not_and] at hleaves
    have := ih h.2 (not_le.1 hleaves.1) (hleaves.2.2 h.1)
    rw [List.length_cons]
    omega

section
variable {n p : ℕ} {s : List Byte} {ps : List (List Byte)} {f : Field}

theorem not_narrowed_of_unread (hread : readPiece (slice b (u32 p) (u32 (p + s.length))) = none) :
    ¬ Narrowed b p (s :: ps) := by
  rintro ⟨⟨f, hf, -⟩, -⟩
  rw [hread] at hf
  cases hf

theorem narrowed_field (hread : readPiece (slice b (u32 p) (u32 (p + s.length))) = some f) :
    Narrowed b p (s :: ps) ↔
      ¬ (f.number = 95 ∨ f.number = 96) ∧ Narrowed b (p + s.length + 1) ps := by
  rw [Narrowed, hread, not_or]
  refine and_congr_left fun _ => ⟨?_, fun h => ⟨f, rfl, h⟩⟩
  rintro ⟨g, hg, h⟩
  cases hg
  exact h

theorem not_leavesAt_of_unread (hroom : n < kMaxFields)
    (hread : readPiece (slice b (u32 p) (u32 (p + s.length))) = none) :
    ¬ LeavesAt b n p (s :: ps) := by
  rw [leavesAt_cons, EmbeddedAt, hread]
  rintro (hfull | ⟨f, hf, -⟩ | ⟨⟨f, hf, -⟩, -⟩)
  · omega
  · cases hf
  · cases hf

theorem leavesAt_of_data (hread : readPiece (slice b (u32 p) (u32 (p + s.length))) = some f)
    (hdata : f.number = 95 ∨ f.number = 96) : LeavesAt b n p (s :: ps) :=
  leavesAt_cons.2 (Or.inr (Or.inl ⟨f, hread, hdata⟩))

/-- Behind a body field, what pass 2 leaves on is among the other pieces. -/
theorem leavesAt_field (hroom : n < kMaxFields)
    (hread : readPiece (slice b (u32 p) (u32 (p + s.length))) = some f)
    (hdata : ¬ (f.number = 95 ∨ f.number = 96)) :
    LeavesAt b n p (s :: ps) ↔ LeavesAt b (n + 1) (p + s.length + 1) ps := by
  rw [leavesAt_cons, EmbeddedAt, hread]
  constructor
  · rintro (hfull | ⟨g, hg, h⟩ | ⟨-, h⟩)
    · omega
    · cases hg
      exact absurd h hdata
    · exact h
  · exact fun h => Or.inr (Or.inr ⟨⟨f, rfl, not_or.1 hdata⟩, h⟩)

end

/-- The next SOH ends the next piece. -/
theorem sohAt_piece {sohs : List ℕ} {i p : ℕ} {s x : List Byte} (hs : SOH ∉ s)
    (hoffs : sohs.drop i = (sohOffsets p (s ++ SOH :: x)).map u32) :
    sohAt sohs i = .ok (u32 (p + s.length)) ∧
      sohs.drop (i + 1) = (sohOffsets (p + s.length + 1) x).map u32 := by
  rw [sohOffsets, positions_of_cut (cut_append hs x), List.map_cons] at hoffs
  constructor
  · have hi := congrArg (·[0]?) hoffs
    simp only [List.getElem?_drop, Nat.add_zero, List.getElem?_cons_zero] at hi
    rw [sohAt, hi]
  · rw [← List.drop_drop, hoffs]
    rfl

/-- **The body of pass 2's loop** reads what stands at its narrowed offsets. -/
theorem scanField_narrowed {P Q : ℕ} (hQ : Q ≤ b.length) (hlt : Q < 2 ^ 32) :
    scanField b P Q out =
      match readPiece (slice b P Q) with
      | none => .error (.ret .malformed out)
      | some f =>
        if f.number = 95 ∨ f.number = 96 then .error (.ret .fallbackRequested out)
        else out.push (f.entry P) := by
  rcases le_or_gt P Q with hle | hgt
  · have hlen := slice_length P hQ
    have hsum : P + (slice b P Q).length = Q := by omega
    have hfield := @scanField_eq b out _ _ _ (drop_eq_slice b hle) (by omega)
    rwa [hsum] at hfield
  · -- a field that straddles a multiple of `2^32`: the tag loop does not run
    have hslice : slice b P Q = [] := by
      rw [slice, Nat.sub_eq_zero_of_le hgt.le, List.take_zero]
    rw [hslice, scanField, Nat.sub_eq_zero_of_le hgt.le, tagLoop, ok_bind]
    simp only
    rw [if_neg hgt.ne', if_pos trivial]
    rfl

/-- Pass 2 gets through the pieces: they read as body fields at their narrowed
    offsets, and fit the table. -/
def Passes (b : Buffer) (p : ℕ) (ps : List (List Byte)) (out : FieldIndex) : Prop :=
  Narrowed b p ps ∧ out.fieldCount + ps.length ≤ kMaxFields

/-- **Pass 2** goes on if and only if it gets through the pieces, and arrives if
    and only if it leaves on one of them. -/
theorem fieldLoop_run {sohs : List ℕ} {u : List Byte} (ps : List (List Byte)) :
    ∀ {i p : ℕ} {out : FieldIndex}, (∀ s ∈ ps, SOH ∉ s) → out.fieldCount ≤ kMaxFields →
      p + (joined ps).length ≤ b.length →
      sohs.drop i = (sohOffsets p (joined ps ++ u)).map u32 →
      Run (fun e => Rejects e ∧ ¬ Passes b p ps out ∧
          (Arrived e ↔ LeavesAt b out.fieldCount p ps))
        (fun y => Passes b p ps out ∧ ¬ LeavesAt b out.fieldCount p ps ∧
          y.1 = u32 (p + (joined ps).length) ∧ y.2.fieldCount = out.fieldCount + ps.length)
        (fieldLoop b sohs ps.length i (u32 p) out) := by
  induction ps with
  | nil =>
    intro i p out _ hcount _ _
    refine Run.ok ⟨⟨trivial, hcount⟩, ?_, rfl, rfl⟩
    rintro ⟨qs, q, rs, h, -⟩
    exact List.append_ne_nil_of_right_ne_nil qs (List.cons_ne_nil q rs) h.symm
  | cons s ps ih =>
    intro i p out hopen hcount hlen hoffs
    rw [List.forall_mem_cons] at hopen
    rw [joined_length_cons] at hlen
    rw [List.length_cons, fieldLoop]
    refine Run.ite (fun hfull => Run.exit ⟨rejects_ret, ?_, ?_⟩) fun hroom => ?_
    · rintro ⟨-, hfit⟩
      rw [List.length_cons] at hfit
      omega
    · exact iff_of_true (arrived_ret.2 (Or.inr (Or.inr rfl))) (leavesAt_cons.2 (Or.inl hfull))
    rw [joined_cons, List.append_assoc, List.cons_append] at hoffs
    obtain ⟨hsoh, hrest⟩ := sohAt_piece hopen.1 hoffs
    have hnarrow := u32_le (p + s.length)
    have hlt : u32 (p + s.length) < 2 ^ 32 := Nat.mod_lt _ (by decide)
    rw [hsoh, ok_bind, scanField_narrowed (by omega) hlt]
    rcases hread : readPiece (slice b (u32 p) (u32 (p + s.length))) with _ | f
    · exact Run.exit ⟨rejects_ret, fun h => not_narrowed_of_unread hread h.1,
        iff_of_false not_arrived_ret (not_leavesAt_of_unread (not_le.1 hroom) hread)⟩
    simp only
    by_cases hdata : f.number = 95 ∨ f.number = 96
    · rw [if_pos hdata]
      exact Run.exit ⟨rejects_ret, fun h => ((narrowed_field hread).1 h.1).1 hdata,
        iff_of_true (arrived_ret.2 (Or.inr (Or.inl rfl))) (leavesAt_of_data hread hdata)⟩
    obtain ⟨out', hpush, hview⟩ := FieldIndex.push_eq (f.entry (u32 p)) (not_le.1 hroom)
    have hcount' : out'.fieldCount = out.fieldCount + 1 := congrArg IndexView.fieldCount hview
    have hpasses : Passes b p (s :: ps) out ↔ Passes b (p + s.length + 1) ps out' := by
      rw [Passes, Passes, hcount', List.length_cons, narrowed_field hread, and_iff_right hdata,
        ← Nat.add_assoc, Nat.add_right_comm out.fieldCount]
    rw [if_neg hdata, leavesAt_field (not_le.1 hroom) hread hdata, hpush, ok_bind, u32_add, hpasses,
      ← hcount']
    refine (ih hopen.2 (by omega) (by omega) hrest).mono (fun e he => he) ?_
    rintro y ⟨hps, hstay, hfs, hfields⟩
    refine ⟨hps, hstay, ?_, ?_⟩
    · rw [hfs, joined_length_cons]
      congr 1
      omega
    · rw [hfields, hcount']
      omega

/-! ## The trailer -/

/-- The trailer test passes: the last field starts where the body ends and has
    seven bytes, by the narrowed offsets, and `10=` and three digits stand
    there; `n` entries are populated. -/
structure Closed (b : Buffer) (bodyEnd fs cksumSoh n : ℕ) : Prop where
  start : fs = u32 bodyEnd
  stop : cksumSoh = u32 (bodyEnd + 6)
  tag : (strip [ch '1', ch '0', ch '='] (b.drop bodyEnd)).isSome
  digits : DigitsAt b (bodyEnd + 3)
  room : n < kMaxFields

/-- **The end of the scan** accepts if and only if the trailer test passes, and
    arrives if and only if it does so up to the room in the table. -/
theorem checkTrailer_run {bodyEnd : ℕ} (hlen : bodyEnd + 7 ≤ b.length) (fs cksumSoh : ℕ) :
    Run (fun e => Rejects e ∧ ¬ Closed b bodyEnd fs cksumSoh out.fieldCount ∧
        (Arrived e ↔ Closed b bodyEnd fs cksumSoh 0))
      (fun o => Closed b bodyEnd fs cksumSoh out.fieldCount ∧
        o.fieldCount = out.fieldCount + 1 ∧ o.frameLength = u32 (bodyEnd + 7))
      (checkTrailer b bodyEnd fs cksumSoh out) := by
  -- an exit before the room is tested
  have hexit : ∀ {st : ScanStatus}, (st = .malformed ∨ st = .badBodyLength) →
      (∀ n, ¬ Closed b bodyEnd fs cksumSoh n) →
      Rejects (.ret st out) ∧ ¬ Closed b bodyEnd fs cksumSoh out.fieldCount ∧
        (Arrived (.ret st out) ↔ Closed b bodyEnd fs cksumSoh 0) := by
    intro st hst h
    refine ⟨rejects_ret ?_, h _, iff_of_false (not_arrived_ret hst) (h 0)⟩
    rintro rfl
    simp at hst
  unfold checkTrailer
  rw [u32_add bodyEnd 6]
  refine Run.ite (fun hstart => Run.exit (hexit (Or.inr rfl) fun n h => hstart h.start))
    fun hstart => ?_
  refine Run.ite (fun hstop => Run.exit (hexit (Or.inr rfl) fun n h => hstop h.stop))
    fun hstop => ?_
  rw [matchesAt_eq _ rfl (by rw [List.length_drop]; simp; omega), ok_bind]
  refine Run.ite (fun htag => Run.exit (hexit (Or.inr rfl) fun n h => ?_)) fun htag => ?_
  · rw [h.tag] at htag
    cases htag
  rw [Bool.not_eq_true, Bool.not_eq_false'] at htag
  rw [threeDigitsAt_eq (by omega), ok_bind]
  refine Run.ite (fun hdig => Run.exit (hexit (Or.inl rfl) fun n h => ?_)) fun hdig => ?_
  · simp [h.digits] at hdig
  have hclosed : ∀ {n}, n < kMaxFields → Closed b bodyEnd fs cksumSoh n := fun hn =>
    ⟨not_not.1 hstart, not_not.1 hstop, htag, by simpa using hdig, hn⟩
  refine Run.ite (fun hroom => Run.exit ⟨rejects_ret, fun h => ?_, ?_⟩) fun hroom => ?_
  · exact absurd h.room (not_lt.2 hroom)
  · exact iff_of_true (arrived_ret.2 (Or.inr (Or.inr rfl))) (hclosed (by decide))
  obtain ⟨out', hpush, hview⟩ := @FieldIndex.push_eq { out with checksumIdx := out.slot }
    ⟨u32 bodyEnd, u32 (u32 bodyEnd + 3), cksumSoh, 10⟩ (not_le.1 hroom)
  simp only [hpush, ok_bind]
  refine Run.ok ⟨hclosed (not_le.1 hroom), ?_, ?_⟩
  · exact congrArg IndexView.fieldCount hview
  · show u32 (cksumSoh + 1) = _
    rw [not_not.1 hstop, u32_add]

theorem exists_checksum {q : ℕ} {s t : List Byte} (hd : b.drop q = s ++ SOH :: t)
    (h6 : s.length = 6) :
    (strip [ch '1', ch '0', ch '='] (b.drop q)).isSome ∧ DigitsAt b (q + 3) ↔
      ∃ f : Field, s = f.piece ∧ f.tag = ascii ['1', '0'] ∧ ChecksumField f := by
  have hstrip : (strip [ch '1', ch '0', ch '='] (b.drop q)).isSome ↔
      ∃ d, s = [ch '1', ch '0', ch '='] ++ d := by
    rw [hd, strip_append (by rw [h6]; decide), Option.isSome_map, Option.isSome_iff_exists]
    exact exists_congr fun d => strip_some
  have hdigits : ∀ d, s = [ch '1', ch '0', ch '='] ++ d →
      d.length = 3 ∧ (DigitsAt b (q + 3) ↔ ∀ c ∈ d, IsDigit c) := by
    rintro d rfl
    have h3 : d.length = 3 := by
      rw [List.length_append] at h6
      exact Nat.add_left_cancel h6
    have hdrop : b.drop (q + 3) = d ++ SOH :: t := by
      rw [← List.drop_drop, hd]
      rfl
    refine ⟨h3, ?_⟩
    rw [DigitsAt, hdrop, List.take_append_of_le_length h3.ge, ← h3, List.take_length]
  rw [hstrip]
  constructor
  · rintro ⟨⟨d, hs⟩, hdig⟩
    obtain ⟨h3, hiff⟩ := hdigits d hs
    exact ⟨⟨ascii ['1', '0'], d⟩, hs, rfl, .of_digits h3 (hiff.1 hdig)⟩
  · rintro ⟨⟨tag, d⟩, hs, rfl, hf⟩
    exact ⟨⟨d, hs⟩, (hdigits d hs).2.2 hf.digits⟩

/-! ## The scan -/

section
variable {h : Head} {ps : List (List Byte)} {f : Field} {p : ℕ}

theorem Taken.rest_length (ht : Taken b h ps f) :
    h.bodyEnd = (wire h.fields).length + (joined ps).length ∧ f.size = 7 := by
  have hlen := ht.length
  refine ⟨?_, ht.checksum.size_eq ht.tag⟩
  rw [Head.bodyEnd, h.wire_fields_length]
  omega

theorem Taken.window_eq (ht : Taken b h ps f) : window h = joined ps ++ f.bytes := by
  obtain ⟨t, hrest⟩ := ht.rest
  have hlen := ht.length
  rw [window, ← hrest]
  refine List.take_left' ?_
  rw [List.length_append, f.bytes_length, ht.rest_length.2]
  omega

theorem Taken.pieces_window (ht : Taken b h ps f) : pieces SOH (window h) = ps ++ [f.piece] := by
  refine pieces_eq.2 ⟨[], ?_, by simp, ?_⟩
  · rw [ht.window_eq, f.bytes_eq, List.append_nil, List.flatMap_append]
    simp
  · rw [List.forall_mem_append, List.forall_mem_singleton]
    exact ⟨ht.unended, ht.checksum.tag.piece_open ht.checksum.value⟩

theorem Taken.readHead_eq (ht : Taken b h ps f) : readHead b = .ok h := by
  refine readHead_ok.2 ⟨ht.head, ht.bytes, ?_⟩
  obtain ⟨t, hrest⟩ := ht.rest
  obtain ⟨hend, h7⟩ := ht.rest_length
  rw [ht.bytes, ← hrest, hend]
  simp only [List.length_append, f.bytes_length]
  omega

/-- The offsets around the last SOH of the window, compared narrowed: they
    differ by less than `2^32`, so nothing is lost. -/
theorem bodyEnd_of_narrowed {h : Head} (hw : h.WellFormed) {X n m : ℕ}
    (hX : h.bodyStart + h.f35.size ≤ X) (hend : X + n + 1 + m = h.bodyEnd + 7)
    (hstart : u32 X = u32 h.bodyEnd) (hstop : u32 (X + n) = u32 (h.bodyEnd + 6)) :
    X = h.bodyEnd ∧ n = 6 ∧ m = 0 := by
  have hmax : h.bodyLen ≤ maxNumber := hw.value9.2
  rw [maxNumber] at hmax
  rw [Head.bodyEnd] at *
  simp only [u32] at hstart hstop
  omega

theorem sohAt_joined {s t : List Byte} (hopen : ∀ s ∈ ps, SOH ∉ s) (hs : SOH ∉ s) (p : ℕ) :
    sohAt ((sohOffsets p (joined ps ++ (s ++ SOH :: t))).map u32) ps.length =
      .ok (u32 (p + (joined ps).length + s.length)) := by
  have hpieces : pieces SOH (joined ps) = ps :=
    pieces_eq.2 ⟨[], (List.append_nil _).symm, List.not_mem_nil, hopen⟩
  have hlen : ((sohOffsets p (joined ps)).map u32).length = ps.length := by
    rw [List.length_map, sohOffsets, length_positions, hpieces]
  rw [sohAt, sohOffsets_append, List.map_append,
    List.getElem?_append_right hlen.le, hlen, Nat.sub_self,
    sohOffsets, positions_of_cut (cut_append hs t)]
  rfl

/-- **The trailer test** passes, up to the room in the table, exactly on a
    checksum field of seven bytes that ends the window. -/
theorem closed_iff (hw : h.WellFormed) (hat : At b h.fields h.rest p out)
    (hlen : h.bodyEnd + 7 ≤ b.length) {s u : List Byte}
    (hu : window h = joined ps ++ (s ++ SOH :: u)) :
    Closed b h.bodyEnd (u32 (p + (joined ps).length)) (u32 (p + (joined ps).length + s.length)) 0 ↔
      ∃ f : Field, f.piece = s ∧ u = [] ∧ f.tag = ascii ['1', '0'] ∧ ChecksumField f := by
  have hrest : h.rest = joined ps ++ (s ++ SOH :: (u ++ h.rest.drop (h.bodyLen + 7 - h.f35.size))) := by
    conv_lhs => rw [← window_append_drop h, hu]
    simp
  have hdrop := hat.drop_add hrest
  have hoff : p = h.bodyStart + h.f35.size := hat.off.trans h.wire_fields_length
  have hp := hat.length
  have hwlen := congrArg List.length (window_eq hat)
  rw [hu, List.length_take, List.length_drop, List.length_append, List.length_append,
    List.length_cons] at hwlen
  constructor
  · rintro ⟨hstart, hstop, htag, hdig, -⟩
    obtain ⟨hX, h6, hm⟩ := bodyEnd_of_narrowed hw (X := p + (joined ps).length) (n := s.length)
      (m := u.length) (by omega) (by omega) hstart hstop
    rw [hX] at hdrop
    obtain ⟨f, rfl, hftag, hf⟩ := (exists_checksum hdrop h6).1 ⟨htag, hdig⟩
    exact ⟨f, rfl, List.length_eq_zero_iff.1 hm, hftag, hf⟩
  · rintro ⟨f, rfl, rfl, hftag, hf⟩
    have h6 : f.piece.length = 6 := by
      have hb := f.bytes_length
      rw [f.bytes_eq, List.length_append, List.length_singleton, hf.size_eq hftag] at hb
      omega
    have hend : p + (joined ps).length = h.bodyEnd := by
      rw [List.length_nil] at hwlen
      omega
    rw [hend] at hdrop ⊢
    obtain ⟨htag, hdig⟩ := (exists_checksum hdrop h6).2 ⟨f, rfl, hftag, hf⟩
    exact ⟨rfl, by rw [h6], htag, hdig, by decide⟩

/-- **A message is taken** iff pass 2 gets through its pieces and the trailer
    test passes. -/
theorem taken_iff (hw : h.WellFormed) (hat : At b h.fields h.rest p out)
    (hlen : h.bodyEnd + 7 ≤ b.length) {s u : List Byte}
    (hu : window h = joined ps ++ (s ++ SOH :: u)) (hopen : ∀ s ∈ ps, SOH ∉ s) :
    (∃ f, Taken b h ps f ∧ f.piece = s) ↔
      Passes b p ps out ∧ Closed b h.bodyEnd (u32 (p + (joined ps).length))
        (u32 (p + (joined ps).length + s.length)) (out.fieldCount + ps.length) := by
  have hcount : out.fieldCount = 3 := hat.count
  have hclosed := closed_iff hw hat hlen hu
  constructor
  · rintro ⟨f, ht, rfl⟩
    have hroom := ht.room
    have hnil : u = [] := by
      have hwin := hu
      rw [ht.window_eq, f.bytes_eq, List.append_cancel_left_eq, List.append_cancel_left_eq] at hwin
      exact (List.cons.inj hwin).2.symm
    have hc := hclosed.2 ⟨f, rfl, hnil, ht.tag, ht.checksum⟩
    exact ⟨⟨hat.off ▸ ht.narrowed, by omega⟩, { hc with room := by omega }⟩
  · rintro ⟨⟨hnarrowed, -⟩, hc⟩
    have hroom := hc.room
    obtain ⟨f, rfl, rfl, hftag, hf⟩ := hclosed.1 { hc with room := by decide }
    have hwin : window h = joined ps ++ f.bytes := by
      rw [hu, f.bytes_eq]
    refine ⟨f, ⟨hw, hat.bytes, ?_, hopen, hat.off ▸ hnarrowed, ?_, hftag, hf, by omega⟩, rfl⟩
    · rw [← hwin]
      exact List.take_prefix _ _
    · have hp := hat.length
      have hoff : p = h.bodyStart + h.f35.size := hat.off.trans h.wire_fields_length
      have hwlen := congrArg List.length (window_eq hat)
      rw [hwin, List.length_take, List.length_drop, List.length_append, f.bytes_length,
        hf.size_eq hftag] at hwlen
      rw [Head.bodyEnd] at hlen hwlen
      omega

/-- **Both passes** end on a window with too many delimiters or without one;
    otherwise pass 2 walks the pieces but the last, which the trailer test
    gets. -/
theorem scanPasses_cases (hat : At b h.fields h.rest p out) (hlen : h.bodyEnd + 7 ≤ b.length) :
    (kMaxFields < (pieces SOH (window h)).length ∧
        scanPasses b p h.bodyEnd out = .error (.ret .tableFull out)) ∨
      (pieces SOH (window h) = [] ∧
        scanPasses b p h.bodyEnd out = .error (.ret .badBodyLength out)) ∨
      ∃ ps s u, pieces SOH (window h) = ps ++ [s] ∧ ps.length < kMaxFields ∧
        window h = joined ps ++ (s ++ SOH :: u) ∧ (∀ s ∈ ps, SOH ∉ s) ∧ SOH ∉ u ∧
        scanPasses b p h.bodyEnd out =
          fieldLoop b ((sohOffsets p (joined ps ++ (s ++ SOH :: u))).map u32) ps.length 0 (u32 p)
            out >>= fun y =>
              checkTrailer b h.bodyEnd y.1 (u32 (p + (joined ps).length + s.length)) y.2 := by
  have hcount : (sohOffsets p (window h)).length = (pieces SOH (window h)).length :=
    length_positions SOH _ p
  rw [scanPasses, pass1_eq hlen, window_eq hat, store, List.length_nil, Nat.zero_add,
    List.nil_append, List.length_map, hcount]
  by_cases hmany : (pieces SOH (window h)).length ≤ kMaxFields
  swap
  · rw [if_neg hmany]
    exact Or.inl ⟨not_le.1 hmany, rfl⟩
  rw [if_pos hmany, ok_bind, List.length_map, hcount]
  rcases List.eq_nil_or_concat' (pieces SOH (window h)) with hnil | ⟨ps, s, hps⟩
  · rw [hnil, List.length_nil, if_pos rfl]
    exact Or.inr (Or.inl ⟨rfl, rfl⟩)
  obtain ⟨u, hu, hnone, hopen⟩ := pieces_eq.1 hps
  rw [List.forall_mem_append, List.forall_mem_singleton] at hopen
  replace hu : window h = joined ps ++ (s ++ SOH :: u) := by
    rw [hu, List.flatMap_append]
    simp
  rw [hps, List.length_append, List.length_singleton] at hmany ⊢
  refine Or.inr (Or.inr ⟨ps, s, u, rfl, hmany, hu, hopen.1, hnone, ?_⟩)
  rw [hu, if_neg (Nat.succ_ne_zero _), Nat.add_sub_cancel, sohAt_joined hopen.1 hopen.2]
  rfl

/-- The pieces before the last lie inside the buffer. -/
theorem joined_le (hat : At b h.fields h.rest p out) {x : List Byte}
    (hu : window h = joined ps ++ x) : p + (joined ps).length ≤ b.length := by
  have hlength := congrArg List.length (window_eq hat)
  rw [hu, List.length_take, List.length_drop, List.length_append] at hlength
  have hp := hat.length
  omega

/-- **Both passes** accept exactly the messages that are taken. -/
theorem scanPasses_run (hw : h.WellFormed) (hat : At b h.fields h.rest p out)
    (hlen : h.bodyEnd + 7 ≤ b.length) :
    Run (fun e => Rejects e ∧ ¬ ∃ ps f, Taken b h ps f)
      (fun o => ∃ ps f, Taken b h ps f ∧ o.fieldCount = ps.length + 4 ∧
        o.frameLength = u32 (h.bodyEnd + 7))
      (scanPasses b p h.bodyEnd out) := by
  have hcount : out.fieldCount = 3 := hat.count
  rcases scanPasses_cases hat hlen with
    ⟨hmany, heq⟩ | ⟨hnil, heq⟩ | ⟨ps, s, u, hps, -, hu, hopen, -, heq⟩
  · rw [heq]
    refine Run.exit ⟨rejects_ret, ?_⟩
    rintro ⟨ps, f, ht⟩
    have hroom := ht.room
    rw [ht.pieces_window, List.length_append, List.length_singleton] at hmany
    omega
  · rw [heq]
    refine Run.exit ⟨rejects_ret, ?_⟩
    rintro ⟨ps, f, ht⟩
    have hne := ht.pieces_window
    rw [hnil] at hne
    exact absurd hne.symm (List.append_ne_nil_of_right_ne_nil _ (List.cons_ne_nil _ _))
  -- the window has these pieces and no others
  have htaken : (∃ qs f, Taken b h qs f) ↔ ∃ f, Taken b h ps f ∧ f.piece = s := by
    constructor
    · rintro ⟨qs, f, ht⟩
      obtain ⟨rfl, hf⟩ := List.append_inj' (hps.symm.trans ht.pieces_window) rfl
      exact ⟨f, ht, (List.singleton_inj.1 hf).symm⟩
    · rintro ⟨f, ht, -⟩
      exact ⟨ps, f, ht⟩
  have hiff := taken_iff hw hat hlen hu hopen
  rw [heq, htaken, hiff]
  refine Run.bind ((fieldLoop_run ps hopen (by rw [hcount]; decide) (joined_le hat hu) rfl).mono
    ?_ fun y hy => hy) ?_
  · rintro e ⟨hrej, hnot, -⟩
    exact ⟨hrej, fun h => hnot h.1⟩
  rintro ⟨fs, o⟩ ⟨hpasses, -, hfs, hfields⟩
  simp only at hfs hfields ⊢
  rw [hfs, ← hfields]
  refine (checkTrailer_run hlen _ _).mono ?_ ?_
  · rintro e ⟨hrej, hnot, -⟩
    exact ⟨hrej, fun h => hnot h.2⟩
  · rintro o' ⟨hclosed, hfields', hframe⟩
    rw [hfields] at hclosed
    obtain ⟨f, ht, -⟩ := hiff.2 ⟨hpasses, hclosed⟩
    exact ⟨ps, f, ht, by omega, hframe⟩

theorem scanBody_run (b : Buffer) (out : FieldIndex) :
    Run (fun e => Rejects e ∧ ¬ ∃ h ps f, Taken b h ps f)
      (fun o => ∃ h ps f, Taken b h ps f ∧ o.fieldCount = ps.length + 4 ∧
        o.frameLength = u32 (h.bodyEnd + 7))
      (scanBody b out) := by
  have hheaders := Sim.remember (scanHeaders_reads b out)
  have hfails := readHead_fails b
  rw [scanBody]
  rcases hh : readHead b with r | h
  · rw [hh] at hheaders hfails
    rcases hheaders with h | ⟨e, he, o, rfl, -⟩
    · cases h
    rw [he]
    refine Run.exit ⟨rejects_ret hfails, ?_⟩
    rintro ⟨h, ps, f, ht⟩
    rw [ht.readHead_eq] at hh
    cases hh
  · rw [hh] at hheaders
    obtain ⟨⟨p, bodyEnd, o⟩, hscan, -, hat, hend, hlen⟩ := hheaders
    simp only at hat hend
    subst hend
    obtain ⟨hw, -, -⟩ := readHead_ok.1 hh
    rw [hscan, ok_bind]
    refine (scanPasses_run hw hat hlen).mono ?_ ?_
    · rintro e ⟨hrej, hnot⟩
      refine ⟨hrej, ?_⟩
      rintro ⟨h', ps, f, ht⟩
      obtain rfl := Except.ok.inj (hh.symm.trans ht.readHead_eq)
      exact hnot ⟨ps, f, ht⟩
    · rintro o' ⟨ps, f, ht, hcount, hframe⟩
      exact ⟨h, ps, f, ht, hcount, hframe⟩

/-- **The AVX2 scanner answers `Ok`** on exactly the messages it takes; the index
    then has an entry for each of the message's fields, and its narrowed length. -/
theorem scan_taken (b : Buffer) (out : FieldIndex) :
    ((∃ v, (scan b out).result = some (.ok, v)) ↔ ∃ h ps f, Taken b h ps f) ∧
      ∀ v, (scan b out).result = some (.ok, v) → ∃ h ps f, Taken b h ps f ∧
        v.fieldCount = ps.length + 4 ∧ v.entries.length = ps.length + 4 ∧
        v.frameLength = u32 (h.bodyEnd + 7) := by
  have hrun := scanBody_run b out
  rw [scan]
  rcases hbody : scanBody b out with e | o
  · rw [hbody] at hrun
    obtain ⟨hrej, hnot⟩ := hrun
    refine ⟨iff_of_false ?_ hnot, fun v hv => absurd hv (hrej v)⟩
    rintro ⟨v, hv⟩
    exact hrej v hv
  · rw [hbody] at hrun
    obtain ⟨h, ps, f, ht, hcount, hframe⟩ := hrun
    refine ⟨iff_of_true ⟨o.view, rfl⟩ ⟨h, ps, f, ht⟩, ?_⟩
    rintro v hv
    have hroom := ht.room
    cases hv
    refine ⟨h, ps, f, ht, hcount, ?_, hframe⟩
    show o.entries.length = _
    rw [FieldIndex.entries, List.length_take, Vector.length_toList, hcount]
    exact min_eq_left hroom

end

end Avx2Scanner
end SwiftFIX
