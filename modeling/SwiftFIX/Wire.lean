/-
  Fields on the wire, and the index that describes them.

  * `wire fs`: the bytes of the fields `fs`, one after the other;
  * `layout p fs`: their entries when the first starts at offset `p`;
  * `progress fs`: what the index shows once exactly the fields `fs` have been
    put into it, and `Reading.view` the same for a finished call.
-/
import SwiftFIX.Index
import SwiftFIX.Lib.Decimal
import SwiftFIX.Lib.Delimited

namespace SwiftFIX

open Decimal Delimited

/-! ## Fields -/

/-- One `tag=value<SOH>` field. -/
structure Field where
  tag : List Byte
  value : List Byte
  deriving DecidableEq, Repr

namespace Field

/-- The field on the wire. -/
def bytes (f : Field) : List Byte := f.tag ++ ch '=' :: (f.value ++ [SOH])

/-- Its length on the wire. -/
def size (f : Field) : ℕ := f.tag.length + f.value.length + 2

/-- The field without its SOH. -/
def piece (f : Field) : List Byte := f.tag ++ ch '=' :: f.value

/-- The number spelled by the tag bytes. -/
def number (f : Field) : ℕ := Decimal.value f.tag

/-- The entry of the field when it starts at offset `p`. -/
def entry (p : ℕ) (f : Field) : FieldEntry where
  tagStart := u32 p
  valueStart := u32 (p + f.tag.length + 1)
  valueEnd := u32 (p + f.tag.length + 1 + f.value.length)
  tagNumber := f.number

theorem bytes_length (f : Field) : f.bytes.length = f.size := by
  simp [bytes, size]; omega

theorem bytes_eq (f : Field) : f.bytes = f.piece ++ [SOH] := by simp [bytes, piece]

theorem size_pos (f : Field) : 0 < f.size := by simp [size]

end Field

/-- The bytes of a list of fields. -/
def wire (fs : List Field) : List Byte := fs.flatMap Field.bytes

theorem wire_nil : wire [] = [] := rfl

theorem wire_cons (f : Field) (fs : List Field) : wire (f :: fs) = f.bytes ++ wire fs := by
  simp [wire]

theorem wire_cons_length (f : Field) (fs : List Field) :
    (wire (f :: fs)).length = f.size + (wire fs).length := by
  rw [wire_cons, List.length_append, f.bytes_length]

theorem wire_append (fs gs : List Field) : wire (fs ++ gs) = wire fs ++ wire gs := by
  simp [wire]

theorem wire_singleton (f : Field) : wire [f] = f.bytes := by simp [wire]

theorem wire_eq (fs : List Field) : wire fs = (fs.map Field.piece).flatMap (· ++ [SOH]) := by
  rw [wire, List.flatMap_map]
  exact congrArg fs.flatMap (funext Field.bytes_eq)

theorem wire_snoc_length (fs : List Field) (f : Field) :
    (wire (fs ++ [f])).length = (wire fs).length + f.size := by
  simp [wire_append, wire_singleton, f.bytes_length]

/-- The entries of the fields `fs`, the first at offset `p`. -/
def layout : ℕ → List Field → List FieldEntry
  | _, [] => []
  | p, f :: fs => f.entry p :: layout (p + f.size) fs

theorem layout_append (fs gs : List Field) :
    ∀ p, layout p (fs ++ gs) = layout p fs ++ layout (p + (wire fs).length) gs := by
  induction fs with
  | nil => intro p; simp [layout, wire_nil]
  | cons f fs ih =>
    intro p
    simp only [List.cons_append, layout, ih, wire_cons_length, Nat.add_assoc]

/-! ## Numerals within the accumulators' range -/

/-- The largest number the 32-bit accumulators accept. -/
def maxNumber : ℕ := 4294967289

/-- The bytes are digits and spell a number in range. -/
def Numeral (ds : List Byte) : Prop := (∀ c ∈ ds, IsDigit c) ∧ Decimal.value ds ≤ maxNumber

instance : DecidablePred Numeral := fun _ => inferInstanceAs (Decidable (_ ∧ _))

/-- A tag a scanner accepts: digits spelling a number from 1 up to
    `maxNumber`. -/
def Tag (ds : List Byte) : Prop := Numeral ds ∧ Decimal.value ds ≠ 0

instance : DecidablePred Tag := fun _ => inferInstanceAs (Decidable (_ ∧ _))

theorem Tag.ne_nil {ds : List Byte} (h : Tag ds) : ds ≠ [] := by
  rintro rfl; exact h.2 rfl

theorem Tag.two_le_length {ds : List Byte} (h : Tag ds) (h10 : 10 ≤ Decimal.value ds) :
    2 ≤ ds.length := by
  rcases ds with _ | ⟨c, _ | ⟨c', s⟩⟩
  · exact absurd rfl h.ne_nil
  · have hlt := digit_lt (h.1.1 c List.mem_cons_self)
    have hv : Decimal.value [c] = 0 * 10 + digit c := rfl
    omega
  · simp only [List.length_cons]
    omega

theorem digit_ne_eq {c : Byte} (h : IsDigit c) : c ≠ ch '=' := by
  rintro rfl; revert h; decide

theorem digit_ne_soh {c : Byte} (h : IsDigit c) : c ≠ SOH := by
  rintro rfl; revert h; decide

theorem Numeral.eq_notMem {ds : List Byte} (h : Numeral ds) : ch '=' ∉ ds :=
  fun hm => digit_ne_eq (h.1 _ hm) rfl

theorem Numeral.soh_notMem {ds : List Byte} (h : Numeral ds) : SOH ∉ ds :=
  fun hm => digit_ne_soh (h.1 _ hm) rfl

theorem Tag.piece_open {f : Field} (h : Tag f.tag) (hv : SOH ∉ f.value) : SOH ∉ f.piece := by
  simp only [Field.piece, List.mem_append, List.mem_cons, not_or]
  exact ⟨h.1.soh_notMem, by decide, hv⟩

/-! ## The index that describes a list of fields -/

/-- The header slot `k` once `n` entries are populated. -/
def slotOf (k n : ℕ) : ℤ := if k < n then k else -1

/-- The declared body length: the number in the second field, 0 before it. -/
def declared (fs : List Field) : ℕ :=
  match fs[1]? with
  | some f => Decimal.value f.value
  | none => 0

/-- The index after exactly the fields `fs`, while the call runs. -/
def progress (fs : List Field) : IndexView where
  beginStringIdx := slotOf 0 fs.length
  bodyLengthIdx := slotOf 1 fs.length
  msgTypeIdx := slotOf 2 fs.length
  checksumIdx := -1
  declaredBodyLength := declared fs
  frameLength := 0
  fieldCount := fs.length
  entries := layout 0 fs

/-- What a scanner makes of a buffer: its verdict, and the fields it has put
    into the index by then. -/
structure Reading where
  status : ScanStatus
  fields : List Field
  deriving DecidableEq, Repr

/-- The index at the end of a call. -/
def Reading.view (r : Reading) : IndexView :=
  if r.status = .ok then
    { progress r.fields with
      checksumIdx := (r.fields.length - 1 : ℕ), frameLength := u32 (wire r.fields).length }
  else progress r.fields

theorem Reading.view_of_ne {s : ScanStatus} (h : s ≠ .ok) (fs : List Field) :
    (Reading.mk s fs).view = progress fs := if_neg h

theorem progress_reset (out : FieldIndex) : out.reset.view = progress [] := by
  simp [FieldIndex.reset, FieldIndex.view, FieldIndex.entries, progress, slotOf, declared, layout]

theorem declared_snoc {fs : List Field} (h : 2 ≤ fs.length) (f : Field) :
    declared (fs ++ [f]) = declared fs := by
  simp [declared, List.getElem?_append_left (show 1 < fs.length by omega)]

/-- Pushing the next field's entry, after the header slots are taken; `c` is
    the checksum slot. -/
theorem push_snoc (out : FieldIndex) {fs : List Field} {c : ℤ}
    (h : out.view = { progress fs with checksumIdx := c })
    (h3 : 3 ≤ fs.length) (hn : fs.length < kMaxFields) (f : Field) :
    ∃ out', out.push (f.entry (wire fs).length) = .ok out' ∧
      out'.view = { progress (fs ++ [f]) with checksumIdx := c } := by
  have hc : out.fieldCount = fs.length := congrArg IndexView.fieldCount h
  have he : out.entries = layout 0 fs := congrArg IndexView.entries h
  obtain ⟨out', h1, h2⟩ := FieldIndex.push_eq (f.entry (wire fs).length)
    (show out.fieldCount < kMaxFields by omega)
  refine ⟨out', h1, ?_⟩
  have hd : declared (fs ++ [f]) = declared fs := declared_snoc (by omega) f
  rw [h2, h, hc, he]
  simp only [progress, List.length_append, List.length_singleton, hd, layout_append, layout,
    Nat.zero_add, IndexView.mk.injEq, and_true, slotOf]
  refine ⟨?_, ?_, ?_⟩ <;> rw [if_pos (by omega), if_pos (by omega)]

theorem progress_push {out : FieldIndex} {fs : List Field} (h : out.view = progress fs)
    (h3 : 3 ≤ fs.length) (hn : fs.length < kMaxFields) (f : Field) :
    ∃ out', out.push (f.entry (wire fs).length) = .ok out' ∧
      out'.view = progress (fs ++ [f]) := push_snoc out (c := -1) h h3 hn f

/-- The last push of an accepted message: the checksum slot and the frame
    length complete the index. -/
theorem progress_finish {out : FieldIndex} {fs : List Field} (h : out.view = progress fs)
    (h3 : 3 ≤ fs.length) (hn : fs.length < kMaxFields) (f : Field) :
    ∃ out', FieldIndex.push { out with checksumIdx := out.slot } (f.entry (wire fs).length) =
        .ok out' ∧
      FieldIndex.view { out' with frameLength := u32 ((wire fs).length + f.size) } =
        Reading.view ⟨.ok, fs ++ [f]⟩ := by
  have hc : out.fieldCount = fs.length := congrArg IndexView.fieldCount h
  obtain ⟨out', h1, h2⟩ := push_snoc { out with checksumIdx := out.slot }
    (c := (fs.length : ℕ)) (by rw [← h, ← hc]; rfl) h3 hn f
  refine ⟨out', h1, ?_⟩
  have hv : FieldIndex.view { out' with frameLength := u32 ((wire fs).length + f.size) } =
      { out'.view with frameLength := u32 ((wire fs).length + f.size) } := rfl
  rw [hv, h2, Reading.view, if_pos rfl, wire_snoc_length]
  simp

end SwiftFIX
