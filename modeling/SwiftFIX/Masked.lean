/-
  What the scanners do not look at: the bytes of the values.

  `Masked`: two buffers with the same fields up to their values, except the
  declared length; a value keeps its length, and a checksum its digits.  A call
  on one gives the status and the index of a call on the other
  (`Scanner.scan_masked`).
-/
import SwiftFIX.Dispatch
import SwiftFIX.Acceptance

namespace SwiftFIX

open Decimal Delimited EarlyExit

/-! ## Buffers that differ in values -/

/-- Fields with the same tag and values of the same length; where the tag is
    digits that spell 10, digits stand where digits stand. -/
structure Field.Alike (f f' : Field) : Prop where
  tag : f.tag = f'.tag
  length : f.value.length = f'.value.length
  digits : (∀ c ∈ f.tag, IsDigit c) → f.number = 10 →
    List.Forall₂ (fun c c' => IsDigit c ↔ IsDigit c') f.value f'.value

/-- Pieces of a buffer that are the same up to the value behind the first `=`. -/
inductive PieceAlike : List Byte → List Byte → Prop
  | same (p : List Byte) : PieceAlike p p
  | values {f f' : Field} (tag : ch '=' ∉ f.tag) (alike : f.Alike f') : PieceAlike f.piece f'.piece

/-- **Buffers that differ in values only**, when `k` fields stand before them;
    the second field of the message, the declared length, is the same. -/
inductive Masked : ℕ → List Byte → List Byte → Prop
  | last {k : ℕ} {p p' : List Byte} (piece : SOH ∉ p) (piece' : SOH ∉ p') (alike : PieceAlike p p')
      (second : k = 1 → p = p') : Masked k p p'
  | more {k : ℕ} {p p' s s' : List Byte} (piece : SOH ∉ p) (piece' : SOH ∉ p')
      (alike : PieceAlike p p') (second : k = 1 → p = p') (rest : Masked (k + 1) s s') :
      Masked k (p ++ SOH :: s) (p' ++ SOH :: s')

theorem Field.Alike.refl (f : Field) : f.Alike f :=
  ⟨rfl, rfl, fun _ _ => List.forall₂_same.2 fun _ _ => Iff.rfl⟩

namespace Field.Alike
variable {f f' : Field}

theorem number (h : f.Alike f') : f.number = f'.number := by
  rw [Field.number, Field.number, h.tag]

theorem size (h : f.Alike f') : f.size = f'.size := by
  rw [Field.size, Field.size, h.tag, h.length]

theorem all_digits (h : f.Alike f') (htag : ∀ c ∈ f.tag, IsDigit c) (h10 : f.number = 10) :
    (∀ c ∈ f.value, IsDigit c) ↔ ∀ c ∈ f'.value, IsDigit c := by
  have hd := h.digits htag h10
  generalize f.value = v at hd
  generalize f'.value = v' at hd
  induction hd with
  | nil => simp
  | cons hc _ ih =>
    rw [List.forall_mem_cons, List.forall_mem_cons]
    exact and_congr hc ih

end Field.Alike

namespace PieceAlike
variable {p p' : List Byte}

theorem length (h : PieceAlike p p') : p.length = p'.length := by
  cases h with
  | same => rfl
  | values _ alike =>
    simp only [Field.piece, List.length_append, List.length_cons, alike.tag, alike.length]

theorem cut (h : PieceAlike p p') :
    (Delimited.cut (ch '=') p = none ∧ p = p') ∨
      ∃ f f' : Field, f.Alike f' ∧ p = f.piece ∧ p' = f'.piece ∧
        Delimited.cut (ch '=') p = some (f.tag, f.value) ∧
        Delimited.cut (ch '=') p' = some (f'.tag, f'.value) := by
  cases h with
  | same =>
    rcases hc : Delimited.cut (ch '=') p with _ | ⟨t, v⟩
    · exact Or.inl ⟨rfl, rfl⟩
    · exact Or.inr ⟨⟨t, v⟩, ⟨t, v⟩, .refl _, (cut_some.1 hc).1, (cut_some.1 hc).1, rfl, rfl⟩
  | @values f f' tag alike =>
    exact Or.inr ⟨f, f', alike, rfl, rfl, cut_append tag _, cut_append (alike.tag ▸ tag) _⟩

theorem readPiece (h : PieceAlike p p') :
    (SwiftFIX.readPiece p = none ∧ SwiftFIX.readPiece p' = none) ∨
      ∃ f f' : Field, f.Alike f' ∧ p = f.piece ∧ p' = f'.piece ∧
        SwiftFIX.readPiece p = some f ∧ SwiftFIX.readPiece p' = some f' := by
  unfold SwiftFIX.readPiece
  rcases h.cut with ⟨hc, rfl⟩ | ⟨f, f', ha, hp, hp', hc, hc'⟩
  · rw [hc]
    exact Or.inl ⟨rfl, rfl⟩
  · rw [hc, hc', ha.tag]
    simp only
    split
    · exact Or.inr ⟨f, f', ha, hp, hp', by rw [← ha.tag], rfl⟩
    · exact Or.inl ⟨rfl, rfl⟩

theorem openField (h : PieceAlike p p') : OpenField p ↔ OpenField p' := by
  unfold OpenField
  rcases h.cut with ⟨_, rfl⟩ | ⟨f, f', ha, -, -, hc, hc'⟩
  · rfl
  · rw [hc, hc', ha.tag]

theorem strip {tg : List Byte} (h : PieceAlike p p') (htg : ch '=' ∉ tg) :
    (SwiftFIX.strip (tg ++ [ch '=']) p = none ∧ SwiftFIX.strip (tg ++ [ch '=']) p' = none) ∨
      ∃ v v', (Field.mk tg v).Alike ⟨tg, v'⟩ ∧ p = tg ++ ch '=' :: v ∧ p' = tg ++ ch '=' :: v' ∧
        SwiftFIX.strip (tg ++ [ch '=']) p = some v ∧
        SwiftFIX.strip (tg ++ [ch '=']) p' = some v' := by
  have hstrip : ∀ {q v : List Byte}, SwiftFIX.strip (tg ++ [ch '=']) q = some v ↔
      q = tg ++ ch '=' :: v := fun {q v} => by
    rw [strip_some, List.append_assoc, List.singleton_append]
  have hnone : ∀ {q : List Byte}, (∀ v, q ≠ tg ++ ch '=' :: v) →
      SwiftFIX.strip (tg ++ [ch '=']) q = none := by
    intro q hq
    rcases hs : SwiftFIX.strip (tg ++ [ch '=']) q with _ | v
    · rfl
    · exact absurd (hstrip.1 hs) (hq v)
  cases h with
  | same =>
    rcases hs : SwiftFIX.strip (tg ++ [ch '=']) p with _ | v
    · exact Or.inl ⟨rfl, rfl⟩
    · exact Or.inr ⟨v, v, .refl _, hstrip.1 hs, hstrip.1 hs, rfl, rfl⟩
  | @values f f' tag alike =>
    by_cases hf : f.tag = tg
    · subst hf
      obtain ⟨t', v'⟩ := f'
      obtain rfl : f.tag = t' := alike.tag
      exact Or.inr ⟨f.value, v', alike, rfl, rfl, hstrip.2 rfl, hstrip.2 rfl⟩
    · refine Or.inl ⟨hnone fun v hv => hf (cut_unique tag htg hv).1, hnone fun v hv => hf ?_⟩
      rw [alike.tag]
      exact (cut_unique (alike.tag ▸ tag) htg hv).1

theorem take (h : PieceAlike p p') (n : ℕ) : PieceAlike (p.take n) (p'.take n) := by
  cases h with
  | same => exact .same _
  | @values f f' tag alike =>
    rw [Field.piece, Field.piece, ← alike.tag, List.take_append, List.take_append]
    rcases hm : n - f.tag.length with _ | m
    · exact .same _
    · rw [List.take_of_length_le (by omega), List.take_succ_cons, List.take_succ_cons]
      have halike : (Field.mk f.tag (f.value.take m)).Alike ⟨f.tag, f'.value.take m⟩ := by
        refine ⟨rfl, ?_, fun htag h10 => List.forall₂_take m (alike.digits htag h10)⟩
        simp only [List.length_take, alike.length]
      exact @PieceAlike.values ⟨f.tag, f.value.take m⟩ ⟨f.tag, f'.value.take m⟩ tag halike

end PieceAlike

namespace Masked
variable {k : ℕ} {s s' : List Byte}

theorem length (h : Masked k s s') : s.length = s'.length := by
  induction h with
  | last _ _ alike _ => exact alike.length
  | more _ _ alike _ _ ih =>
    rw [List.length_append, List.length_append, List.length_cons, List.length_cons, alike.length, ih]

theorem cut (h : Masked k s s') :
    (Delimited.cut SOH s = none ∧ Delimited.cut SOH s' = none ∧ PieceAlike s s' ∧
        (k = 1 → s = s')) ∨
      ∃ p p' t t', PieceAlike p p' ∧ (k = 1 → p = p') ∧ Masked (k + 1) t t' ∧
        s = p ++ SOH :: t ∧ s' = p' ++ SOH :: t' ∧
        Delimited.cut SOH s = some (p, t) ∧ Delimited.cut SOH s' = some (p', t') := by
  cases h with
  | last piece piece' alike second =>
    exact Or.inl ⟨cut_none.2 piece, cut_none.2 piece', alike, second⟩
  | more piece piece' alike second rest =>
    exact Or.inr ⟨_, _, _, _, alike, second, rest, rfl, rfl, cut_append piece _, cut_append piece' _⟩

theorem take (h : Masked k s s') (hk : 2 ≤ k) : ∀ n, Masked k (s.take n) (s'.take n) := by
  have hlast : ∀ {k : ℕ} {p p' : List Byte}, 2 ≤ k → SOH ∉ p → SOH ∉ p' → PieceAlike p p' →
      ∀ n, Masked k (p.take n) (p'.take n) := fun hk hp hp' alike n =>
    .last (fun hm => hp (List.mem_of_mem_take hm)) (fun hm => hp' (List.mem_of_mem_take hm))
      (alike.take n) fun h1 => by omega
  induction h with
  | last piece piece' alike _ => exact hlast hk piece piece' alike
  | @more k p p' s s' piece piece' alike _ rest ih =>
    intro n
    rw [List.take_append, List.take_append, ← alike.length]
    rcases hm : n - p.length with _ | m
    · rw [List.take_zero, List.take_zero, List.append_nil, List.append_nil]
      exact hlast hk piece piece' alike n
    · have hlen := alike.length
      rw [List.take_of_length_le (show p.length ≤ n by omega),
        List.take_of_length_le (show p'.length ≤ n by omega), List.take_succ_cons,
        List.take_succ_cons]
      exact .more piece piece' alike (fun h1 => by omega) (ih (by omega) m)

theorem pieces (h : Masked k s s') :
    List.Forall₂ PieceAlike (Delimited.pieces SOH s) (Delimited.pieces SOH s') := by
  induction h with
  | last piece piece' _ _ =>
    rw [pieces_open piece, pieces_open piece']
    exact .nil
  | more piece piece' alike _ _ ih =>
    rw [pieces_append piece, pieces_append piece']
    exact .cons alike ih

end Masked

/-! ## Readings that differ in values -/

/-- The same fields up to their values, the second the same. -/
structure FieldsAlike (fs fs' : List Field) : Prop where
  alike : List.Forall₂ Field.Alike fs fs'
  second : fs[1]? = fs'[1]?

namespace FieldsAlike
variable {fs fs' : List Field}

theorem length (h : FieldsAlike fs fs') : fs.length = fs'.length := h.alike.length_eq

theorem wire_length (h : FieldsAlike fs fs') : (wire fs).length = (wire fs').length := by
  have halike := h.alike
  clear h
  induction halike with
  | nil => rfl
  | cons hf _ ih => rw [wire_cons_length, wire_cons_length, hf.size, ih]

theorem layout (h : FieldsAlike fs fs') : ∀ p, SwiftFIX.layout p fs = SwiftFIX.layout p fs' := by
  have halike := h.alike
  clear h
  induction halike with
  | nil => exact fun _ => rfl
  | @cons f f' fs fs' hf _ ih =>
    intro p
    have hentry : f.entry p = f'.entry p := by
      simp only [Field.entry, hf.tag, hf.length, hf.number]
    rw [SwiftFIX.layout, SwiftFIX.layout, hentry, hf.size, ih]

theorem snoc (h : FieldsAlike fs fs') (h2 : 2 ≤ fs.length) {f f' : Field} (hf : f.Alike f') :
    FieldsAlike (fs ++ [f]) (fs' ++ [f']) := by
  have hlen := h.length
  refine ⟨List.rel_append h.alike (.cons hf .nil), ?_⟩
  rw [List.getElem?_append_left (by omega), List.getElem?_append_left (by omega)]
  exact h.second

end FieldsAlike

/-- Readings with the same verdict and alike fields. -/
structure Reading.Alike (r r' : Reading) : Prop where
  status : r.status = r'.status
  fields : FieldsAlike r.fields r'.fields

theorem Reading.Alike.view {r r' : Reading} (h : r.Alike r') : r.view = r'.view := by
  have hp : progress r.fields = progress r'.fields := by
    simp only [progress, h.fields.length, h.fields.layout, declared, h.fields.second]
  rw [Reading.view, Reading.view, h.status, hp, h.fields.length, h.fields.wire_length]

/-- The second computation does what the first does, up to values. -/
abbrev Imitates {α : Type} (R : α → α → Prop) : Read α → Read α → Prop :=
  Sim (fun _ => False) Reading.Alike R

theorem FieldsAlike.exit {α : Type} {R : α → α → Prop} {st : ScanStatus} {fs fs' : List Field}
    (h : FieldsAlike fs fs') :
    Imitates R (.error ⟨st, fs⟩ : Read α) (.error ⟨st, fs'⟩) := Sim.exit ⟨rfl, h⟩

/-! ## The headers -/

/-- A pattern without an SOH is looked for in the first piece. -/
theorem strip_piece {pat : List Byte} (hpat : SOH ∉ pat) (p t : List Byte) :
    strip pat (p ++ SOH :: t) = (strip pat p).map (· ++ SOH :: t) := by
  rcases hs : strip pat p with _ | v
  · rcases hs' : strip pat (p ++ SOH :: t) with _ | u
    · rfl
    · rcases List.append_eq_append_iff.1 (strip_some.1 hs') with ⟨a, ha, hu⟩ | ⟨c, hc, -⟩
      · rcases a with _ | ⟨c, a⟩
        · rw [List.append_nil] at ha
          have hself : strip pat pat = some [] := strip_some.2 (List.append_nil pat).symm
          rw [ha, ← ha, hself] at hs
          cases hs
        · rw [List.cons_append, List.cons.injEq] at hu
          rw [ha, ← hu.1] at hpat
          exact absurd (by simp) hpat
      · rw [strip_some.2 hc] at hs
        cases hs
  · obtain rfl := strip_some.1 hs
    rw [List.append_assoc]
    exact strip_some.2 rfl

/-- A tag literal and a value up to its SOH. -/
theorem literal_imitates {α : Type} {R : α → α → Prop} {k : ℕ} {s s' : List Byte} (tg : List Byte)
    (htg : ch '=' ∉ tg) (hsoh : SOH ∉ tg ++ [ch '=']) (h : Masked k s s') {fs fs' : List Field}
    (hfs : FieldsAlike fs fs') {g g' : List Byte → List Byte → α}
    (hg : ∀ v v' t t', (Field.mk tg v).Alike ⟨tg, v'⟩ → Masked (k + 1) t t' →
      R (g v t) (g' v' t')) :
    Imitates R
      (match strip (tg ++ [ch '=']) s with
        | none => .error ⟨.badHeader, fs⟩
        | some s =>
          match cut SOH s with
          | none => .error ⟨.truncated, fs⟩
          | some (v, t) => .ok (g v t))
      (match strip (tg ++ [ch '=']) s' with
        | none => .error ⟨.badHeader, fs'⟩
        | some s =>
          match cut SOH s with
          | none => .error ⟨.truncated, fs'⟩
          | some (v, t) => .ok (g' v t)) := by
  cases h with
  | last piece piece' alike _ =>
    rcases alike.strip htg with ⟨hs, hs'⟩ | ⟨v, v', -, hv, hv', hs, hs'⟩
    · rw [hs, hs']
      exact hfs.exit
    · have hopen : SOH ∉ v := fun hm => piece (by rw [hv]; simp [hm])
      have hopen' : SOH ∉ v' := fun hm => piece' (by rw [hv']; simp [hm])
      rw [hs, hs']
      simp only [cut_none.2 hopen, cut_none.2 hopen']
      exact hfs.exit
  | more piece piece' alike _ rest =>
    rw [strip_piece hsoh, strip_piece hsoh]
    rcases alike.strip htg with ⟨hs, hs'⟩ | ⟨v, v', hf, hv, hv', hs, hs'⟩
    · rw [hs, hs']
      exact hfs.exit
    · have hopen : SOH ∉ v := fun hm => piece (by rw [hv]; simp [hm])
      have hopen' : SOH ∉ v' := fun hm => piece' (by rw [hv']; simp [hm])
      rw [hs, hs']
      simp only [Option.map_some, cut_append hopen, cut_append hopen']
      exact Sim.ok (hg _ _ _ _ hf rest)

theorem FieldsAlike.nil : FieldsAlike [] [] := ⟨.nil, rfl⟩

theorem FieldsAlike.one {f f' : Field} (h : f.Alike f') : FieldsAlike [f] [f'] :=
  ⟨.cons h .nil, rfl⟩

theorem FieldsAlike.two {f f' g : Field} (h : f.Alike f') : FieldsAlike [f, g] [f', g] :=
  ⟨.cons h (.cons (.refl g) .nil), rfl⟩

theorem readTag8_imitates {b b' : Buffer} (h : Masked 0 b b') :
    Imitates (fun x x' => x.1.Alike x'.1 ∧ Masked 1 x.2 x'.2) (readTag8 b) (readTag8 b') :=
  literal_imitates [ch '8'] (by decide) (by decide) h .nil fun _ _ _ _ hf ht => ⟨hf, ht⟩

/-- Field 9 is the same in both buffers. -/
theorem readTag9_imitates {f8 f8' : Field} (h8 : f8.Alike f8') {s s' : List Byte}
    (h : Masked 1 s s') :
    Imitates (fun x x' => x.1 = x'.1 ∧ Masked 2 x.2 x'.2) (readTag9 f8 s) (readTag9 f8' s') := by
  have hlen := h.length
  have hsoh : SOH ∉ [ch '9', ch '='] := by decide
  unfold readTag9
  refine Sim.ite_iff (by rw [hlen]) (fun _ => (FieldsAlike.one h8).exit) fun _ => ?_
  cases h with
  | last piece piece' alike second =>
    obtain rfl := second rfl
    rcases hs : strip [ch '9', ch '='] s with _ | d
    · exact (FieldsAlike.one h8).exit
    · have hopen : SOH ∉ d := fun hm => piece (by rw [strip_some.1 hs]; simp [hm])
      simp only [cut_none.2 hopen]
      exact Sim.ite (fun _ => (FieldsAlike.one h8).exit) fun _ => (FieldsAlike.one h8).exit
  | @more _ p p' t t' piece piece' alike second rest =>
    obtain rfl := second rfl
    rw [strip_piece hsoh, strip_piece hsoh]
    rcases hs : strip [ch '9', ch '='] p with _ | d
    · exact (FieldsAlike.one h8).exit
    · have hopen : SOH ∉ d := fun hm => piece (by rw [strip_some.1 hs]; simp [hm])
      simp only [Option.map_some, upTo_append hopen, cut_append hopen]
      refine Sim.ite (fun _ => (FieldsAlike.one h8).exit) fun _ => ?_
      exact Sim.ite (fun _ => (FieldsAlike.one h8).exit) fun _ => Sim.ok ⟨rfl, rest⟩

/-- Headers that differ in values. -/
structure Head.Alike (h h' : Head) : Prop where
  f8 : h.f8.Alike h'.f8
  f9 : h.f9 = h'.f9
  f35 : h.f35.Alike h'.f35
  rest : Masked 3 h.rest h'.rest

/-- **The headers imitate.** -/
theorem readHead_imitates {b b' : Buffer} (h : Masked 0 b b') :
    Imitates Head.Alike (readHead b) (readHead b') := by
  unfold readHead
  refine Sim.ite_iff (by rw [h.length]) (fun _ => FieldsAlike.nil.exit) fun _ => ?_
  refine Sim.bind (readTag8_imitates h) ?_
  rintro ⟨f8, s⟩ ⟨f8', s'⟩ ⟨h8, hs⟩
  refine Sim.bind (readTag9_imitates h8 hs) ?_
  rintro ⟨f9, t⟩ ⟨_, t'⟩ ⟨rfl, ht⟩
  refine Sim.bind (R := fun _ _ => True) ?_ fun _ _ _ => ?_
  · unfold readBounds
    exact Sim.ite_iff (by rw [ht.length]) (fun _ => (FieldsAlike.two h8).exit) fun _ => Sim.ok trivial
  refine Sim.bind (R := fun x x' => x.1.Alike x'.1 ∧ Masked 3 x.2 x'.2) ?_ ?_
  · exact literal_imitates [ch '3', ch '5'] (by decide) (by decide) ht (.two h8)
      fun _ _ _ _ hf hu => ⟨hf, hu⟩
  · rintro ⟨f35, u⟩ ⟨f35', u'⟩ ⟨h35, hu⟩
    exact Sim.ok ⟨h8, rfl, h35, hu⟩

theorem Head.Alike.fields {h h' : Head} (ha : h.Alike h') : FieldsAlike h.fields h'.fields := by
  refine ⟨.cons ha.f8 (.cons ?_ (.cons ha.f35 .nil)), ?_⟩
  · rw [ha.f9]
    exact .refl _
  · simp [Head.fields, ha.f9]

theorem Head.Alike.bodyLen {h h' : Head} (ha : h.Alike h') : h.bodyLen = h'.bodyLen := by
  rw [Head.bodyLen, Head.bodyLen, ha.f9]

theorem Head.Alike.bodyEnd {h h' : Head} (ha : h.Alike h') : h.bodyEnd = h'.bodyEnd := by
  simp only [Head.bodyEnd, Head.bodyStart, wire_cons_length, ha.f8.size, ha.f9, ha.bodyLen]

/-! ## The scalar scanner -/

theorem readField_imitates {k : ℕ} {s s' : List Byte} (h : Masked k s s') :
    (readField s = .truncated ∧ readField s' = .truncated) ∨
      (readField s = .malformed ∧ readField s' = .malformed) ∨
      ∃ f f' t t', f.Alike f' ∧ Masked (k + 1) t t' ∧ s = f.bytes ++ t ∧ s' = f'.bytes ++ t' ∧
        readField s = .field f t ∧ readField s' = .field f' t' := by
  unfold readField
  rcases h.cut with ⟨hc, hc', alike, -⟩ | ⟨p, p', t, t', alike, -, ht, hs, hs', hc, hc'⟩
  · rw [hc, hc']
    simp only [alike.openField]
    split
    · exact Or.inl ⟨rfl, rfl⟩
    · exact Or.inr (Or.inl ⟨rfl, rfl⟩)
  · rw [hc, hc']
    simp only
    rcases alike.readPiece with ⟨hp, hp'⟩ | ⟨f, f', hf, rfl, rfl, hp, hp'⟩
    · rw [hp, hp']
      exact Or.inr (Or.inl ⟨rfl, rfl⟩)
    · rw [hp, hp']
      refine Or.inr (Or.inr ⟨f, f', t, t', hf, ht, ?_, ?_, rfl, rfl⟩)
      · rw [hs, f.bytes_eq, List.append_assoc, List.singleton_append]
      · rw [hs', f'.bytes_eq, List.append_assoc, List.singleton_append]

namespace ScalarScanner

/-- What the body loops on two buffers `b` and `b'` give: alike fields, and the
    bytes behind them. -/
structure BodyAlike (b b' : Buffer) (x x' : List Field × Option (List Byte)) : Prop where
  fields : FieldsAlike x.1 x'.1
  two : 2 ≤ x.1.length
  rest : (x.2 = none ∧ x'.2 = none) ∨
    ∃ k t t', Masked k t t' ∧ x.2 = some t ∧ x'.2 = some t' ∧ b = wire x.1 ++ t ∧
      b' = wire x'.1 ++ t'

theorem readBody_imitates {b b' : Buffer} (left : ℕ) :
    ∀ {k : ℕ} {fs fs' : List Field} {s s' : List Byte}, FieldsAlike fs fs' → 2 ≤ fs.length →
      Masked k s s' → b = wire fs ++ s → b' = wire fs' ++ s' →
        Imitates (BodyAlike b b') (readBody fs left s) (readBody fs' left s') := by
  induction left using Nat.strongRecOn with
  | _ left ih =>
    intro k fs fs' s s' hfs h2 h hb hb'
    rw [readBody, readBody, ← hfs.length]
    refine Sim.ite (fun _ => Sim.ok ⟨hfs, h2, Or.inr ⟨k, s, s', h, rfl, rfl, hb, hb'⟩⟩) fun h0 => ?_
    refine Sim.ite (fun _ => hfs.exit) fun _ => ?_
    rcases readField_imitates h with ⟨hr, hr'⟩ | ⟨hr, hr'⟩ | ⟨f, f', t, t', hf, ht, rfl, rfl, hr, hr'⟩
    · rw [hr, hr']
      exact hfs.exit
    · rw [hr, hr']
      exact hfs.exit
    · rw [hr, hr']
      have hsnoc := hfs.snoc h2 hf
      have h2' : 2 ≤ (fs ++ [f]).length := by
        rw [List.length_append]
        omega
      have hpos := f.size_pos
      simp only [← hf.number, ← hf.size]
      refine Sim.ite (fun _ => hfs.exit) fun _ => ?_
      refine Sim.ite (fun _ => Sim.ok ⟨hsnoc, h2', Or.inl ⟨rfl, rfl⟩⟩) fun _ => ?_
      refine ih (left - f.size) (by omega) hsnoc h2' ht ?_ ?_
      · rw [hb, wire_append, wire_singleton, List.append_assoc]
      · rw [hb', wire_append, wire_singleton, List.append_assoc]

theorem readEnding_imitates {b b' : Buffer} (hb : b.length < 2 ^ 32) (hb' : b'.length < 2 ^ 32)
    {x x' : List Field × Option (List Byte)} (h : BodyAlike b b' x x') :
    Imitates (fun fs fs' => FieldsAlike fs fs') (readEnding b x.1 x.2) (readEnding b' x'.1 x'.2) := by
  obtain ⟨fs, x⟩ := x
  obtain ⟨fs', x'⟩ := x'
  obtain ⟨hfs, h2, hrest⟩ := h
  simp only at hfs h2 hrest ⊢
  rcases hrest with ⟨rfl, rfl⟩ | ⟨k, s, s', h, rfl, rfl, hbytes, hbytes'⟩
  · exact hfs.exit
  unfold readEnding
  simp only
  rcases readField_imitates h with ⟨hr, hr'⟩ | ⟨hr, hr'⟩ | ⟨f, f', t, t', hf, -, rfl, rfl, hr, hr'⟩
  · rw [hr, hr']
    exact hfs.exit
  · rw [hr, hr']
    exact hfs.exit
  · rw [hr, hr']
    simp only [← hf.number, ← hf.length, ← hf.tag, ← hfs.length, ← hfs.wire_length]
    refine Sim.ite (fun _ => hfs.exit) fun h10 => ?_
    refine Sim.ite (fun _ => hfs.exit) fun h3 => ?_
    -- three digits in one buffer are three digits in the other
    have hlt := congrArg List.length hbytes
    rw [List.length_append, List.length_append, f.bytes_length] at hlt
    have hlt' := congrArg List.length hbytes'
    rw [List.length_append, List.length_append, f'.bytes_length] at hlt'
    have hsize : f.size = f.tag.length + f.value.length + 2 := rfl
    have hv : f.value.length = 3 := by
      rw [u32_of_lt (by omega)] at h3
      exact not_not.1 h3
    have hd := digitsAt_value hbytes (by omega) hv
    have hd' := digitsAt_value hbytes' (by omega) (hf.length ▸ hv)
    rw [← hf.tag, ← hfs.wire_length] at hd'
    refine Sim.ite_iff ?_ (fun _ => hfs.exit) fun _ => ?_
    · rw [hd, hd', hf.all_digits (readField_field.1 hr).2.1.1.1 (not_not.1 h10)]
    · exact Sim.ite (fun _ => hfs.exit) fun _ => Sim.ok (hfs.snoc h2 hf)

theorem readMessage_imitates {b b' : Buffer} (hb : b.length < 2 ^ 32) (hb' : b'.length < 2 ^ 32)
    {h h' : Head} (hh : readHead b = .ok h) (hh' : readHead b' = .ok h') (ha : h.Alike h') :
    Imitates (fun fs fs' => FieldsAlike fs fs') (readRest h >>= fun x => readEnding b x.1 x.2)
      (readRest h' >>= fun x => readEnding b' x.1 x.2) := by
  have h2 : 2 ≤ h.fields.length := (by decide : 2 ≤ 3)
  refine Sim.bind (R := BodyAlike b b') ?_ fun x x' hx => readEnding_imitates hb hb' hx
  rw [readRest, readRest, ← ha.bodyLen, ← ha.f35.size]
  refine Sim.ite (fun _ => Sim.ok ⟨ha.fields, h2, Or.inl ⟨rfl, rfl⟩⟩) fun _ => ?_
  exact readBody_imitates _ ha.fields h2 ha.rest (readHead_ok.1 hh).2.1 (readHead_ok.1 hh').2.1

end ScalarScanner

/-! ## The AVX2 scanner -/

namespace Avx2Scanner

theorem readPieces_imitates {ps ps' : List (List Byte)} (h : List.Forall₂ PieceAlike ps ps') :
    ∀ {fs fs' : List Field}, FieldsAlike fs fs' → 2 ≤ fs.length →
      Imitates (fun x x' => FieldsAlike x x' ∧ 2 ≤ x.length) (readPieces fs ps)
        (readPieces fs' ps') := by
  induction h with
  | nil => exact fun hfs h2 => Sim.ok ⟨hfs, h2⟩
  | @cons p p' ps ps' alike _ ih =>
    intro fs fs' hfs h2
    rw [readPieces, readPieces, ← hfs.length]
    refine Sim.ite (fun _ => hfs.exit) fun _ => ?_
    rcases alike.readPiece with ⟨hp, hp'⟩ | ⟨f, f', hf, -, -, hp, hp'⟩
    · rw [hp, hp']
      exact hfs.exit
    · rw [hp, hp']
      simp only [← hf.number]
      refine Sim.ite (fun _ => hfs.exit) fun _ => ih (hfs.snoc h2 hf) ?_
      rw [List.length_append]
      omega

theorem readTrailer_imitates {bodyEnd : ℕ} {fs fs' : List Field} (hfs : FieldsAlike fs fs')
    (h2 : 2 ≤ fs.length) {p p' : List Byte} (alike : PieceAlike p p') :
    Imitates (fun fs fs' => FieldsAlike fs fs') (readTrailer bodyEnd fs p)
      (readTrailer bodyEnd fs' p') := by
  unfold readTrailer
  rw [← hfs.wire_length, ← alike.length, ← hfs.length]
  refine Sim.ite (fun _ => hfs.exit) fun _ => ?_
  refine Sim.ite (fun _ => hfs.exit) fun _ => ?_
  have hs : [ch '1', ch '0', ch '='] = [ch '1', ch '0'] ++ [ch '='] := rfl
  rw [hs]
  have htg : ch '=' ∉ [ch '1', ch '0'] := by decide
  have hnum : ∀ c ∈ [ch '1', ch '0'], IsDigit c := by decide
  have h10 : Decimal.value [ch '1', ch '0'] = 10 := by decide
  rcases alike.strip htg with ⟨hd, hd'⟩ | ⟨d, d', hf, -, -, hd, hd'⟩
  · rw [hd, hd']
    exact hfs.exit
  · rw [hd, hd']
    refine Sim.ite_iff (not_congr (hf.all_digits hnum h10)) (fun _ => hfs.exit) fun _ => ?_
    exact Sim.ite (fun _ => hfs.exit) fun _ => Sim.ok (hfs.snoc h2 hf)

theorem forall₂_concat {α : Type} {R : α → α → Prop} {init : List α} {last : α} {l : List α}
    (h : List.Forall₂ R (init ++ [last]) l) :
    ∃ init' last', l = init' ++ [last'] ∧ List.Forall₂ R init init' ∧ R last last' := by
  induction init generalizing l with
  | nil =>
    obtain ⟨last', l', hlast, hnil, rfl⟩ := List.forall₂_cons_left_iff.1 h
    obtain rfl := List.forall₂_nil_left_iff.1 hnil
    exact ⟨[], last', rfl, .nil, hlast⟩
  | cons x init ih =>
    obtain ⟨y, l', hxy, htail, rfl⟩ := List.forall₂_cons_left_iff.1 h
    obtain ⟨init', last', rfl, hinit, hlast⟩ := ih htail
    exact ⟨y :: init', last', rfl, .cons hxy hinit, hlast⟩

theorem readRest_imitates {h h' : Head} (ha : h.Alike h') :
    Imitates (fun fs fs' => FieldsAlike fs fs') (readRest h) (readRest h') := by
  have h2 : 2 ≤ h.fields.length := (by decide : 2 ≤ 3)
  have hps := (ha.rest.take (by decide) (h.bodyLen + 7 - h.f35.size)).pieces
  unfold readRest
  simp only [window, ← ha.bodyLen, ← ha.f35.size, ← ha.bodyEnd, ← hps.length_eq]
  refine Sim.ite (fun _ => ha.fields.exit) fun _ => ?_
  generalize pieces SOH (h.rest.take (h.bodyLen + 7 - h.f35.size)) = ps at hps
  generalize pieces SOH (h'.rest.take (h.bodyLen + 7 - h.f35.size)) = ps' at hps
  rcases List.eq_nil_or_concat ps with rfl | ⟨init, last, rfl⟩
  · obtain rfl := List.forall₂_nil_left_iff.1 hps
    exact ha.fields.exit
  · rw [List.concat_eq_append] at hps ⊢
    obtain ⟨init', last', rfl, hinit, hlast⟩ := forall₂_concat hps
    simp only [List.getLast?_concat, List.dropLast_concat]
    refine Sim.bind (readPieces_imitates hinit ha.fields h2) fun fs fs' hfs => ?_
    exact readTrailer_imitates hfs.1 hfs.2 hlast

end Avx2Scanner

/-! ## Both scanners -/

/-- Computations that imitate each other end in alike readings. -/
theorem Imitates.ofRead {c c' : Read (List Field)}
    (h : Imitates (fun fs fs' => FieldsAlike fs fs') c c') :
    (Reading.ofRead c).Alike (Reading.ofRead c') := by
  rcases c with r | fs
  · obtain ⟨r', rfl, hr⟩ := h.resolve_left id
    exact hr
  · obtain ⟨fs', rfl, hfs⟩ := h
    exact ⟨rfl, hfs⟩

namespace Scanner

theorem read_imitates (s : Scanner) {b b' : Buffer} (hb : b.length < 2 ^ 32) (h : Masked 0 b b') :
    (s.read b).Alike (s.read b') := by
  have hb' : b'.length < 2 ^ 32 := h.length ▸ hb
  have hhead := readHead_imitates h
  cases s with
  | scalar =>
    refine Imitates.ofRead ?_
    rcases hr : readHead b with r | hd
    · rw [hr] at hhead
      obtain ⟨r', hr', ha⟩ := hhead.resolve_left id
      rw [hr']
      exact Sim.exit ha
    · rw [hr] at hhead
      obtain ⟨hd', hr', ha⟩ := hhead
      rw [hr']
      exact ScalarScanner.readMessage_imitates hb hb' hr hr' ha
  | avx2 =>
    exact Imitates.ofRead (Sim.bind hhead fun _ _ ha => Avx2Scanner.readRest_imitates ha)

/-- **The scanners do not look at values.**  On two buffers that differ in the
    bytes of values only, but for the declared length and for what is a digit
    of a checksum, a scanner gives the same status and the same index. -/
theorem scan_masked (s : Scanner) (b b' : Buffer) (hb : b.length < 2 ^ 32) (h : Masked 0 b b')
    (out out' : FieldIndex) : (s.scan b out).result = (s.scan b' out').result := by
  have ha := s.read_imitates hb h
  rw [s.scan_result hb, s.scan_result (h.length ▸ hb), ha.status, ha.view]

/-- The message `plainChecksum` with another version and another checksum. -/
def otherChecksum : Buffer := ascii "8=X\x019=4\x0135=\x0110=987\x01".toList

theorem masked_plain : Masked 0 plainChecksum otherChecksum := by
  have h8 : PieceAlike (ascii ['8', '=', 'F']) (ascii ['8', '=', 'X']) :=
    @PieceAlike.values ⟨[ch '8'], [ch 'F']⟩ ⟨[ch '8'], [ch 'X']⟩ (by decide)
      ⟨rfl, rfl, fun _ h => absurd h (by decide)⟩
  have h10 : PieceAlike (ascii ['1', '0', '=', '1', '2', '3']) (ascii ['1', '0', '=', '9', '8', '7']) :=
    @PieceAlike.values ⟨ascii ['1', '0'], ascii ['1', '2', '3']⟩
      ⟨ascii ['1', '0'], ascii ['9', '8', '7']⟩ (by decide)
      ⟨rfl, rfl, fun _ _ => .cons (by decide) (.cons (by decide) (.cons (by decide) .nil))⟩
  have hlast : Masked 4 [] [] := .last (by decide) (by decide) (.same _) (by decide)
  have hcks := Masked.more (by decide) (by decide) h10 (by decide) hlast
  have htype := Masked.more (p := ascii ['3', '5', '=']) (by decide) (by decide) (.same _)
    (by decide) hcks
  have hlength := Masked.more (p := ascii ['9', '=', '4']) (by decide) (by decide) (.same _)
    (by decide) htype
  exact Masked.more (by decide) (by decide) h8 (by decide) hlength

theorem scan_masked_plain :
    (avx2.scan plainChecksum .fresh).result = (avx2.scan otherChecksum .fresh).result :=
  avx2.scan_masked plainChecksum otherChecksum (by decide) masked_plain .fresh .fresh

end Scanner
end SwiftFIX
