/-
  Fields as spans of the buffer they were found in.

  A `Span` is where a field's tag starts, where its value starts and where its
  SOH stands.  `Tiles b p xs q`: the spans `xs` are the fields of `b` from
  offset `p` up to offset `q`, one after the other.  The entries of fields on
  the wire tile their bytes (`tiles_places`), and every tile ends at the next SOH
  (`Tiles.exists_pieces`).
-/
import SwiftFIX.Grammar

namespace SwiftFIX

open Decimal Delimited

/-! ## Spans -/

/-- The offsets of one field. -/
structure Span where
  tagStart : ℕ
  valueStart : ℕ
  valueEnd : ℕ
  deriving DecidableEq, Repr

/-- The offsets of an entry. -/
def FieldEntry.span (e : FieldEntry) : Span := ⟨e.tagStart, e.valueStart, e.valueEnd⟩

/-- The bytes `[i, j)`. -/
def slice (b : Buffer) (i j : ℕ) : List Byte := (b.drop i).take (j - i)

namespace Span

/-- The bytes before the `=`. -/
def tagBytes (b : Buffer) (x : Span) : List Byte := slice b x.tagStart (x.valueStart - 1)

/-- The bytes of the value. -/
def valueBytes (b : Buffer) (x : Span) : List Byte := slice b x.valueStart x.valueEnd

/-- **A field of the buffer**: the byte before the value is the field's first
    `=`, and the value ends at the field's first SOH. -/
structure Delimits (b : Buffer) (x : Span) : Prop where
  tag : x.tagStart < x.valueStart
  value : x.valueStart ≤ x.valueEnd
  equals : b[x.valueStart - 1]? = some (ch '=')
  first : ch '=' ∉ x.tagBytes b
  soh : b[x.valueEnd]? = some SOH
  unended : SOH ∉ slice b x.tagStart x.valueEnd

end Span

/-- The spans are the fields from `p` up to `q`, each beginning where the one
    before it ended. -/
def Tiles (b : Buffer) : ℕ → List Span → ℕ → Prop
  | p, [], q => p = q
  | p, x :: xs, q => x.tagStart = p ∧ x.Delimits b ∧ Tiles b (x.valueEnd + 1) xs q

theorem drop_eq_slice (b : Buffer) {i j : ℕ} (h : i ≤ j) : b.drop i = slice b i j ++ b.drop j := by
  conv_lhs => rw [← List.take_append_drop (j - i) (b.drop i), List.drop_drop,
    Nat.add_sub_cancel' h]
  rfl

theorem slice_length {b : Buffer} (i : ℕ) {j : ℕ} (h : j ≤ b.length) : (slice b i j).length = j - i := by
  rw [slice, List.length_take, List.length_drop]
  omega

/-- Pieces of a buffer, each with its SOH. -/
abbrev joined (ps : List (List Byte)) : List Byte := ps.flatMap (· ++ [SOH])

theorem joined_cons (s : List Byte) (ps : List (List Byte)) :
    joined (s :: ps) = s ++ SOH :: joined ps := by
  rw [joined, List.flatMap_cons, List.append_assoc, List.singleton_append]

theorem joined_append (ps qs : List (List Byte)) : joined (ps ++ qs) = joined ps ++ joined qs :=
  List.flatMap_append

theorem joined_length_cons (s : List Byte) (ps : List (List Byte)) :
    (joined (s :: ps)).length = s.length + 1 + (joined ps).length := by
  rw [joined_cons, List.length_append, List.length_cons]
  omega

/-- Every tile ends at the next SOH. -/
theorem Tiles.exists_pieces {b : Buffer} {xs : List Span} :
    ∀ {p q : ℕ}, Tiles b p xs q →
      ∃ ps, b.drop p = joined ps ++ b.drop q ∧ (∀ s ∈ ps, SOH ∉ s) ∧
        ps.length = xs.length ∧ q = p + (joined ps).length := by
  induction xs with
  | nil =>
    rintro p q rfl
    exact ⟨[], rfl, by simp, rfl, rfl⟩
  | cons x xs ih =>
    rintro p q ⟨rfl, hx, hrest⟩
    obtain ⟨ps, hps, hopen, hl, rfl⟩ := ih hrest
    have hle := hx.tag.le.trans hx.value
    have hlt : x.valueEnd < b.length := (List.getElem?_eq_some_iff.1 hx.soh).1
    have hsoh : b.drop x.valueEnd = SOH :: b.drop (x.valueEnd + 1) := by
      rw [List.drop_eq_getElem_cons hlt, (List.getElem?_eq_some_iff.1 hx.soh).2]
    have hlen := slice_length x.tagStart hlt.le
    refine ⟨slice b x.tagStart x.valueEnd :: ps, ?_, List.forall_mem_cons.2 ⟨hx.unended, hopen⟩,
      congrArg Nat.succ hl, ?_⟩
    · rw [drop_eq_slice b hle, hsoh, hps, joined_cons, List.append_assoc, List.cons_append]
    · rw [joined_length_cons, hlen]
      omega

/-! ## Fields on the wire -/

theorem slice_eq (pre x t : List Byte) :
    slice (pre ++ (x ++ t)) pre.length (pre.length + x.length) = x := by
  rw [slice, List.drop_left, Nat.add_sub_cancel_left, List.take_left]

/-- The span of a field that starts at offset `p`. -/
def Field.spanAt (p : ℕ) (f : Field) : Span :=
  ⟨p, p + f.tag.length + 1, p + f.tag.length + 1 + f.value.length⟩

section
variable (pre t : List Byte) (f : Field)

theorem tagBytes_spanAt : (f.spanAt pre.length).tagBytes (pre ++ (f.bytes ++ t)) = f.tag := by
  have h := slice_eq pre f.tag (ch '=' :: (f.value ++ [SOH]) ++ t)
  rw [← List.append_assoc f.tag] at h
  exact h

theorem valueBytes_spanAt :
    (f.spanAt pre.length).valueBytes (pre ++ (f.bytes ++ t)) = f.value := by
  have h := slice_eq (pre ++ (f.tag ++ [ch '='])) f.value (SOH :: t)
  simpa [Span.valueBytes, Field.spanAt, Field.bytes, Nat.add_assoc] using h

variable {f}

theorem delimits_spanAt (htag : Tag f.tag) (hval : SOH ∉ f.value) :
    (f.spanAt pre.length).Delimits (pre ++ (f.bytes ++ t)) where
  tag := by
    show pre.length < pre.length + f.tag.length + 1
    omega
  value := Nat.le_add_right _ _
  equals := by
    show (pre ++ (f.bytes ++ t))[pre.length + f.tag.length]? = _
    simp [Field.bytes]
  first := by
    rw [tagBytes_spanAt]
    exact htag.1.eq_notMem
  soh := by
    show (pre ++ (f.bytes ++ t))[pre.length + f.tag.length + 1 + f.value.length]? = _
    have hb : pre ++ (f.bytes ++ t) = (pre ++ f.piece) ++ SOH :: t := by
      rw [f.bytes_eq]
      simp
    have hl : pre.length + f.tag.length + 1 + f.value.length = (pre ++ f.piece).length := by
      rw [List.length_append, Field.piece, List.length_append, List.length_cons]
      omega
    rw [hb, hl, List.getElem?_append_right le_rfl, Nat.sub_self]
    rfl
  unended := by
    have h := slice_eq pre f.piece (SOH :: t)
    have hb : pre ++ (f.bytes ++ t) = pre ++ (f.piece ++ SOH :: t) := by
      rw [f.bytes_eq, List.append_assoc]
      rfl
    have hl : pre.length + f.tag.length + 1 + f.value.length = pre.length + f.piece.length := by
      rw [Field.piece, List.length_append, List.length_cons]
      omega
    show SOH ∉ slice (pre ++ (f.bytes ++ t)) pre.length
      (pre.length + f.tag.length + 1 + f.value.length)
    rw [hb, hl, h]
    exact htag.piece_open hval

end

/-- **The entries of fields on the wire** tile their bytes. -/
theorem tiles_places (fs : List Field) (t : List Byte) (hfs : ∀ f ∈ fs, Tag f.tag ∧ SOH ∉ f.value) :
    ∀ pre : List Byte, Tiles (pre ++ (wire fs ++ t)) pre.length
      ((places pre.length fs).map FieldEntry.span) (pre.length + (wire fs).length) := by
  induction fs with
  | nil => exact fun _ => rfl
  | cons f fs ih =>
    intro pre
    rw [List.forall_mem_cons] at hfs
    have hb : pre ++ (wire (f :: fs) ++ t) = pre ++ f.bytes ++ (wire fs ++ t) := by
      rw [wire_cons, List.append_assoc, List.append_assoc]
    have hl : pre.length + f.size = (pre ++ f.bytes).length := by
      rw [List.length_append, f.bytes_length]
    refine ⟨rfl, ?_, ?_⟩
    · rw [wire_cons, List.append_assoc]
      exact delimits_spanAt pre _ hfs.1.1 hfs.1.2
    · have hend : (f.place pre.length).span.valueEnd + 1 = (pre ++ f.bytes).length := by
        rw [← hl, Field.size]
        show pre.length + f.tag.length + 1 + f.value.length + 1 = _
        omega
      have hq : pre.length + (wire (f :: fs)).length = (pre ++ f.bytes).length + (wire fs).length := by
        rw [wire_cons, List.length_append, List.length_append, Nat.add_assoc]
      rw [hend, hq, hb, hl]
      exact ih hfs.2 (pre ++ f.bytes)

/-- The entries of the fields at the start of a buffer tile their bytes. -/
theorem tiles_of_prefix {b : Buffer} {fs : List Field} (hfs : ∀ f ∈ fs, Tag f.tag ∧ SOH ∉ f.value)
    (h : wire fs <+: b) : Tiles b 0 ((places 0 fs).map FieldEntry.span) (wire fs).length := by
  obtain ⟨t, rfl⟩ := h
  have ht := tiles_places fs t hfs []
  rwa [List.length_nil, Nat.zero_add] at ht

/-- An entry spells a field out of the buffer. -/
structure FieldEntry.Spells (b : Buffer) (e : FieldEntry) (f : Field) : Prop where
  tag : e.span.tagBytes b = f.tag
  value : e.span.valueBytes b = f.value
  number : e.tagNumber = f.number

theorem spells_of_prefix {b : Buffer} {fs : List Field} (h : wire fs <+: b) :
    List.Forall₂ (FieldEntry.Spells b) (places 0 fs) fs :=
  forall₂_places (fun pre t f => ⟨tagBytes_spanAt pre t f, valueBytes_spanAt pre t f, rfl⟩) h

theorem forall_of_forall₂ {α β : Type} {R : α → β → Prop} {P : α → Prop} {Q : β → Prop}
    {as : List α} {bs : List β} (h : List.Forall₂ R as bs) (hPQ : ∀ a b, R a b → Q b → P a) :
    (∀ b ∈ bs, Q b) → ∀ a ∈ as, P a := by
  induction h with
  | nil => simp
  | @cons a b as bs hab _ ih =>
    intro hQ
    rw [List.forall_mem_cons] at hQ
    exact List.forall_mem_cons.2 ⟨hPQ a b hab hQ.1, ih hQ.2⟩

end SwiftFIX
