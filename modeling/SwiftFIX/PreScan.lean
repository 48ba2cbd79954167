/-
  What `setFromPreScan` makes of an array of fields before it sorts
  (`FieldRules.preScanLoop_partitions`): each field goes to its part, in array
  order, and the first field out of order is noted.

  The loop remembers one part, the highest reached while the fields are in
  order; `Judged` is its invariant.
-/
import Mathlib.Data.List.Forall2
import Mathlib.Order.Nat
import SwiftFIX.QuickFix
import SwiftFIX.Spans
import SwiftFIX.Lib.Phases

namespace SwiftFIX
namespace FIX

open Decimal Delimited EarlyExit Phases

/-! ## The order of the parts -/

/-- Header, body, trailer. -/
def FieldType.rank : FieldType → ℕ
  | .header => 0
  | .body => 1
  | .trailer => 2

/-- The sequence is of the form header* body* trailer*. -/
def Structured (types : List FieldType) : Prop :=
  ∃ i j k, types = List.replicate i .header ++ (List.replicate j .body ++ List.replicate k .trailer)

theorem structured_iff (types : List FieldType) :
    Structured types ↔ InOrder FieldType.rank types := by
  constructor
  · rintro ⟨i, j, k, rfl⟩
    simp only [InOrder, List.pairwise_append, List.pairwise_replicate, List.mem_append,
      List.mem_replicate]
    refine ⟨Or.inr le_rfl, ⟨Or.inr le_rfl, Or.inr le_rfl, ?_⟩, ?_⟩
    · rintro x ⟨-, rfl⟩ y ⟨-, rfl⟩
      decide
    · rintro x ⟨-, rfl⟩ y _
      exact Nat.zero_le _
  · intro h
    induction types with
    | nil => exact ⟨0, 0, 0, rfl⟩
    | cons c types ih =>
      obtain ⟨hc, htypes⟩ := List.pairwise_cons.1 h
      obtain ⟨i, j, k, rfl⟩ := ih htypes
      -- a part in front leaves no room for the lower parts
      have hnone : ∀ {n : ℕ} {d : FieldType}, d.rank < c.rank → (n ≠ 0 → d ∈ List.replicate i .header ++
          (List.replicate j .body ++ List.replicate k .trailer)) → n = 0 := by
        intro n d hd hmem
        by_contra hn
        exact absurd (hc d (hmem hn)) (not_le.2 hd)
      cases c with
      | header => exact ⟨i + 1, j, k, rfl⟩
      | body =>
        obtain rfl : i = 0 := hnone (d := .header) (by decide) (by simp)
        exact ⟨0, j + 1, k, rfl⟩
      | trailer =>
        obtain rfl : i = 0 := hnone (d := .header) (by decide) (by simp)
        obtain rfl : j = 0 := hnone (d := .body) (by decide) (by simp)
        exact ⟨0, 0, k + 1, rfl⟩

/-! ## One field -/

namespace FieldRules
variable (E : FieldRules)

/-- The part a tag belongs to. -/
def partOf (tag : ℤ) : FieldType :=
  if E.isHeaderField tag then .header else if E.isTrailerField tag then .trailer else .body

variable {E} {m : Message} {type : FieldType} {field : FieldBase}

theorem setField_part (p : FieldType) :
    (E.setField m type field).1.part p =
      m.part p ++ if E.partOf field.tag = p then [field] else [] := by
  unfold setField partOf
  by_cases hh : E.isHeaderField field.tag
  · rw [if_pos hh, if_pos hh]
    cases type <;> cases p <;> simp [Message.part, Message.misplaced]
  by_cases ht : E.isTrailerField field.tag
  · rw [if_neg hh, if_neg hh, if_pos ht, if_pos ht]
    cases p <;> simp [Message.part]
  · rw [if_neg hh, if_neg hh, if_neg ht, if_neg ht]
    cases type <;> cases p <;> simp [Message.part, Message.misplaced]

/-- A field that does not rank below the part reached is in order, and the part
    reached is then the highest so far. -/
theorem setField_inOrder (h : type.rank ≤ (E.partOf field.tag).rank) :
    (E.setField m type field).1.validStructure = m.validStructure ∧
      (E.setField m type field).1.tag = m.tag ∧
      (E.setField m type field).2.rank = max type.rank (E.partOf field.tag).rank := by
  unfold setField
  unfold partOf at h ⊢
  by_cases hh : E.isHeaderField field.tag
  · rw [if_pos hh] at h ⊢
    rw [if_pos hh]
    cases type with
    | header => exact ⟨rfl, rfl, rfl⟩
    | body => exact absurd h (by decide)
    | trailer => exact absurd h (by decide)
  by_cases ht : E.isTrailerField field.tag
  · rw [if_neg hh, if_pos ht] at h ⊢
    rw [if_neg hh, if_pos ht]
    exact ⟨rfl, rfl, (max_eq_right h).symm⟩
  · rw [if_neg hh, if_neg ht] at h ⊢
    rw [if_neg hh, if_neg ht]
    cases type with
    | header => exact ⟨rfl, rfl, rfl⟩
    | body => exact ⟨rfl, rfl, rfl⟩
    | trailer => exact absurd h (by decide)

/-- A field that ranks below the part reached is noted, if it is the first. -/
theorem setField_misplaced (h : ¬ type.rank ≤ (E.partOf field.tag).rank) :
    (E.setField m type field).1.validStructure = false ∧
      (E.setField m type field).1.tag = if m.tag = 0 then field.tag else m.tag := by
  unfold setField
  unfold partOf at h
  by_cases hh : E.isHeaderField field.tag
  · rw [if_pos hh] at h ⊢
    cases type with
    | header => exact absurd (by decide) h
    | body => exact ⟨rfl, rfl⟩
    | trailer => exact ⟨rfl, rfl⟩
  by_cases ht : E.isTrailerField field.tag
  · rw [if_neg hh, if_pos ht] at h
    cases type <;> exact absurd (by decide) h
  · rw [if_neg hh, if_neg ht] at h ⊢
    cases type with
    | header => exact absurd (by decide) h
    | body => exact absurd (by decide) h
    | trailer => exact ⟨rfl, rfl⟩

theorem setField_noted (hv : m.validStructure = false) (ht : m.tag ≠ 0) :
    (E.setField m type field).1.validStructure = false ∧
      (E.setField m type field).1.tag = m.tag := by
  by_cases h : type.rank ≤ (E.partOf field.tag).rank
  · obtain ⟨hvalid, htag, -⟩ := setField_inOrder (m := m) h
    exact ⟨hvalid.trans hv, htag⟩
  · obtain ⟨hvalid, htag⟩ := setField_misplaced (m := m) h
    exact ⟨hvalid, by rw [htag, if_neg ht]⟩

/-! ## The loop -/

/-- The fields in the order of their parts. -/
abbrev rankOf (E : FieldRules) (field : FieldBase) : ℕ := (E.partOf field.tag).rank

/-- **The loop invariant** after the fields `fields`, from a cleared message:
    each part holds its fields; as long as they are in order the state is the
    highest part and nothing is noted, and from then on the first field out of
    order is. -/
structure Judged (E : FieldRules) (fields : List FieldBase) (s : Message × FieldType) : Prop where
  parts : ∀ p, s.1.part p = fields.filter fun field => E.partOf field.tag = p
  inOrder : InOrder E.rankOf fields →
    s.1.validStructure = true ∧ s.1.tag = 0 ∧ s.2.rank = highest E.rankOf fields
  broken : ¬ InOrder E.rankOf fields →
    s.1.validStructure = false ∧ ∃ field, Breaks E.rankOf fields field ∧ s.1.tag = field.tag

theorem Judged.concat {fields : List FieldBase} {s : Message × FieldType}
    (h : Judged E fields s) (htags : ∀ f ∈ fields, f.tag ≠ 0) (field : FieldBase) :
    Judged E (fields ++ [field]) (E.setField s.1 s.2 field) where
  parts p := by
    rw [setField_part, h.parts, List.filter_append, List.filter_singleton]
    simp
  inOrder hin := by
    obtain ⟨hfields, hle⟩ := inOrder_concat.1 hin
    obtain ⟨hvalid, htag, hrank⟩ := h.inOrder hfields
    rw [← hrank] at hle
    obtain ⟨hvalid', htag', hrank'⟩ := setField_inOrder (m := s.1) hle
    refine ⟨hvalid'.trans hvalid, htag'.trans htag, ?_⟩
    rw [hrank', hrank, highest_concat]
  broken hnot := by
    by_cases hfields : InOrder E.rankOf fields
    · -- this field is the first out of order
      obtain ⟨-, htag, hrank⟩ := h.inOrder hfields
      have hlt : ¬ highest E.rankOf fields ≤ E.rankOf field := fun hle =>
        hnot (inOrder_concat.2 ⟨hfields, hle⟩)
      obtain ⟨hvalid', htag'⟩ := setField_misplaced (m := s.1) (hrank ▸ hlt)
      exact ⟨hvalid', field, breaks_concat hfields hlt, by rw [htag', if_pos htag]⟩
    · obtain ⟨hvalid, first, hbreak, htag⟩ := h.broken hfields
      have hne : s.1.tag ≠ 0 := by
        obtain ⟨pre, post, rfl, -, -⟩ := hbreak
        rw [htag]
        exact htags first (by simp)
      obtain ⟨hvalid', htag'⟩ := setField_noted hvalid hne
      exact ⟨hvalid', first, hbreak.concat field, htag'.trans htag⟩

/-- **The loop** over fields with nonzero tags. -/
theorem judged_setFields {fields : List FieldBase} (htags : ∀ f ∈ fields, f.tag ≠ 0) :
    Judged E fields (E.setFields fields (.fresh, .header)) := by
  induction fields using List.reverseRecOn with
  | nil =>
    refine ⟨fun p => ?_, fun _ => ⟨rfl, rfl, rfl⟩, fun h => absurd InOrder.nil h⟩
    cases p <;> rfl
  | append_singleton fields field ih =>
    rw [List.forall_mem_append] at htags
    have hstep := (ih htags.1).concat htags.1 field
    rw [setFields, List.foldl_append]
    exact hstep

end FieldRules

/-! ## An array of fields -/

namespace PreScanField

/-- The pointers delimit a field of the buffer. -/
structure Valid (b : Buffer) (pf : PreScanField) : Prop where
  value : pf.valueStart ≤ pf.valueEnd
  bytes : pf.tagStart ≤ pf.valueEnd
  inside : pf.valueEnd < b.length

/-- The field of the bytes that the pointers delimit. -/
def base (b : Buffer) (pf : PreScanField) : FieldBase :=
  ⟨pf.tag, slice b pf.valueStart pf.valueEnd,
    calculateMetrics (slice b pf.tagStart (pf.valueEnd + 1))⟩

theorem Valid.field_eq {b : Buffer} {pf : PreScanField} (h : pf.Valid b) :
    pf.field b = .ok (pf.base b) := by
  have hvalue := h.value
  have hbytes := h.bytes
  have hinside := h.inside
  rw [field, charRange, if_pos ⟨hvalue, by omega⟩, ok_bind, charRange, if_pos ⟨by omega, hinside⟩]
  rfl

theorem field_bases {b : Buffer} {pfs : List PreScanField} (h : ∀ pf ∈ pfs, pf.Valid b) :
    List.Forall₂ (fun pf field => pf.field b = .ok field) pfs (pfs.map (base b)) := by
  rw [List.forall₂_map_right_iff, List.forall₂_same]
  exact fun pf hpf => (h pf hpf).field_eq

end PreScanField

namespace FieldRules
variable {E : FieldRules} {b : Buffer} {pfs : List PreScanField}

/-- The parts the fields of an array belong to. -/
def partsOf (E : FieldRules) (pfs : List PreScanField) : List FieldType :=
  pfs.map fun pf => E.partOf pf.tag

/-- The last field of the shortest prefix out of order. -/
def FirstMisplaced (E : FieldRules) (pfs : List PreScanField) (pf : PreScanField) : Prop :=
  ∃ pre post, pfs = pre ++ pf :: post ∧ ¬ Structured (E.partsOf (pre ++ [pf])) ∧
    ∀ l, l <+: pre → Structured (E.partsOf l)

/-- **The message of an array of fields**, before it is sorted. -/
structure Partitioned (E : FieldRules) (b : Buffer) (pfs : List PreScanField) (m : Message) :
    Prop where
  parts : ∀ p, m.part p = (pfs.filter fun pf => E.partOf pf.tag = p).map (PreScanField.base b)
  structured : m.validStructure = false ↔ ¬ Structured (E.partsOf pfs)
  inOrder : Structured (E.partsOf pfs) → m.tag = 0
  misplaced : ¬ Structured (E.partsOf pfs) → ∃ pf, E.FirstMisplaced pfs pf ∧ m.tag = pf.tag

theorem structured_partsOf (E : FieldRules) (b : Buffer) (pfs : List PreScanField) :
    Structured (E.partsOf pfs) ↔ InOrder E.rankOf (pfs.map (PreScanField.base b)) := by
  rw [structured_iff, partsOf, inOrder_map, inOrder_map]
  rfl

theorem firstMisplaced_of_breaks {field : FieldBase}
    (h : Breaks E.rankOf (pfs.map (PreScanField.base b)) field) :
    ∃ pf, E.FirstMisplaced pfs pf ∧ field = pf.base b := by
  obtain ⟨pre, rest, hpfs, hpre, hbreak⟩ := h
  obtain ⟨pre, rest, rfl, rfl, hrest⟩ := List.map_eq_append_iff.1 hpfs
  obtain ⟨pf, post, rfl, rfl, rfl⟩ := List.map_eq_cons_iff.1 hrest
  refine ⟨pf, ⟨pre, post, rfl, ?_, ?_⟩, rfl⟩
  · rw [structured_partsOf E b, List.map_append]
    exact hbreak
  · intro l hl
    rw [structured_partsOf E b]
    exact hpre.mono (hl.map _)

/-- What the loop has judged of the fields is what is true of the array. -/
theorem Judged.partitioned {s : Message × FieldType}
    (h : Judged E (pfs.map (PreScanField.base b)) s) : E.Partitioned b pfs s.1 where
  parts p := by
    rw [h.parts p, List.filter_map]
    rfl
  structured := by
    rw [structured_partsOf E b]
    constructor
    · intro hvalid hin
      rw [(h.inOrder hin).1] at hvalid
      cases hvalid
    · intro hnot
      exact (h.broken hnot).1
  inOrder hin := by
    rw [structured_partsOf E b] at hin
    exact (h.inOrder hin).2.1
  misplaced hnot := by
    rw [structured_partsOf E b] at hnot
    obtain ⟨-, field, hbreak, htag⟩ := h.broken hnot
    obtain ⟨pf, hfirst, rfl⟩ := firstMisplaced_of_breaks hbreak
    exact ⟨pf, hfirst, htag⟩

/-- **`setFromPreScan` partitions its fields without loss and judges their order
    exactly.** -/
theorem preScanLoop_partitions (E : FieldRules) (b : Buffer) (pfs : List PreScanField)
    (hvalid : ∀ pf ∈ pfs, pf.Valid b) (htags : ∀ pf ∈ pfs, pf.tag ≠ 0) (out : Message) :
    ∃ m, E.preScanLoop b pfs (E.clear out) .header = .ok m ∧ E.Partitioned b pfs m := by
  have htags' : ∀ f ∈ pfs.map (PreScanField.base b), f.tag ≠ 0 := by
    rw [List.forall_mem_map]
    exact htags
  rw [E.clear_eq]
  exact ⟨_, preScanLoop_eq (PreScanField.field_bases hvalid) _ _, (judged_setFields htags').partitioned⟩

/-- A body field, then the first field of a header. -/
def misplacedBytes : Buffer := ascii "58=a\x018=F\x01".toList

/-- The index of `misplacedBytes`. -/
def misplacedFields : List PreScanField := [⟨58, 0, 3, 4⟩, ⟨8, 5, 7, 8⟩]

theorem preScanLoop_partitions_misplaced :
    ∃ m, plainRules.preScanLoop misplacedBytes misplacedFields (plainRules.clear .fresh) .header =
      .ok m ∧ plainRules.Partitioned misplacedBytes misplacedFields m := by
  refine preScanLoop_partitions plainRules misplacedBytes misplacedFields ?_ ?_ .fresh
  · intro pf hpf
    have hends : pf.valueStart ≤ pf.valueEnd ∧ pf.tagStart ≤ pf.valueEnd ∧
        pf.valueEnd < misplacedBytes.length := by
      revert pf
      decide
    exact ⟨hends.1, hends.2.1, hends.2.2⟩
  · decide

end FieldRules
end FIX
end SwiftFIX
