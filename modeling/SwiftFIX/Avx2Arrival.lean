/-
  When the AVX2 scanner takes a buffer, for messages of any length
  (`Avx2Scanner.scan_arrived`), and which beginnings of a message that ends
  beyond the 32-bit offsets can still become one it takes (`Avx2Scanner.Beyond`).
-/
import SwiftFIX.Avx2Narrowing
import SwiftFIX.Viability

namespace SwiftFIX
namespace Avx2Scanner

open Decimal Delimited EarlyExit

variable {b : Buffer} {out : FieldIndex}

/-! ## The wait is over -/

section
variable {h : Head} {ps : List (List Byte)} {f : Field} {p : ℕ}

/-- What ends the AVX2 scanner's wait once its window `w`, which starts at offset
    `p`, is there, for messages of any length: more delimiters than the SOH array
    takes; after pieces that read as body fields at their narrowed offsets, a full
    table with two delimiters to come, a piece that reads as a field of embedded
    data there with a delimiter after it, or the seven-byte trailer at the end. -/
inductive ArrivesAt (b : Buffer) (p : ℕ) (w : List Byte) : Prop
  | crowded (many : kMaxFields < (pieces SOH w).length)
  | full {ps : List (List Byte)} {x : List Byte} (bytes : w = joined ps ++ x)
      (unended : ∀ s ∈ ps, SOH ∉ s) (narrowed : Narrowed b p ps) (many : kMaxFields ≤ ps.length + 3)
      (more : 2 ≤ (pieces SOH x).length)
  | embedded {ps : List (List Byte)} {q x : List Byte} (bytes : w = joined ps ++ (q ++ SOH :: x))
      (unended : ∀ s ∈ ps, SOH ∉ s) (piece : SOH ∉ q) (narrowed : Narrowed b p ps)
      (field : EmbeddedAt b (p + (joined ps).length) q) (more : SOH ∈ x)
  | closed {ps : List (List Byte)} {f : Field} (bytes : w = joined ps ++ f.bytes)
      (unended : ∀ s ∈ ps, SOH ∉ s) (narrowed : Narrowed b p ps) (field : ChecksumField f)
      (tag : f.tag = ascii ['1', '0'])

theorem pieces_joined {qs : List (List Byte)} (hopen : ∀ s ∈ qs, SOH ∉ s) (x : List Byte) :
    pieces SOH (joined qs ++ x) = qs ++ pieces SOH x := by
  induction qs with
  | nil => rfl
  | cons s qs ih =>
    rw [List.forall_mem_cons] at hopen
    rw [joined_cons, List.append_assoc, List.cons_append, pieces_append hopen.1, ih hopen.2]
    rfl

theorem ArrivesAt.pieces_ne_nil {w : List Byte} (h : ArrivesAt b p w) : pieces SOH w ≠ [] := by
  cases h with
  | crowded many => exact List.length_pos_iff.1 (Nat.zero_lt_of_lt many)
  | @full ps x bytes unended _ _ more =>
    rw [bytes, pieces_joined unended]
    exact List.append_ne_nil_of_right_ne_nil _ (List.length_pos_iff.1 (by omega))
  | @embedded ps q x bytes unended piece _ _ _ =>
    rw [bytes, pieces_joined unended, pieces_append piece]
    exact List.append_ne_nil_of_right_ne_nil _ (List.cons_ne_nil _ _)
  | @closed ps f bytes unended _ field _ =>
    rw [bytes, pieces_joined unended, f.bytes_eq,
      pieces_append (field.tag.piece_open field.value)]
    exact List.append_ne_nil_of_right_ne_nil _ (List.cons_ne_nil _ _)

/-- A piece with others after it is not the last. -/
theorem inner_piece {α : Type} {qs xs ps : List α} {q s : α} (h : qs ++ q :: xs = ps ++ [s])
    (hx : xs ≠ []) : ∃ rs, ps = qs ++ q :: rs := by
  obtain ⟨init, l, rfl⟩ := xs.eq_nil_or_concat'.resolve_left hx
  rw [← List.cons_append, ← List.append_assoc] at h
  exact ⟨init, (List.append_inj' h rfl).1.symm⟩

/-- **The wait is over** on a window of few pieces iff pass 2 leaves on one of
    them but the last, or gets through them to a checksum field at the end. -/
theorem arrivesAt_iff {s u : List Byte} (hps : pieces SOH (joined ps ++ (s ++ SOH :: u)) = ps ++ [s])
    (hfew : ps.length < kMaxFields) (hopen : ∀ s ∈ ps, SOH ∉ s) :
    ArrivesAt b p (joined ps ++ (s ++ SOH :: u)) ↔
      LeavesAt b 3 p ps ∨ Narrowed b p ps ∧
        ∃ f : Field, f.piece = s ∧ u = [] ∧ f.tag = ascii ['1', '0'] ∧ ChecksumField f := by
  constructor
  · intro h
    cases h with
    | crowded many =>
      rw [hps, List.length_append, List.length_singleton] at many
      omega
    | @full qs x bytes unended narrowed many more =>
      rw [bytes, pieces_joined unended] at hps
      obtain ⟨q, xs, hx⟩ : ∃ q xs, pieces SOH x = q :: xs :=
        List.exists_cons_of_length_pos (by omega)
      rw [hx, List.length_cons] at more
      rw [hx] at hps
      obtain ⟨rs, rfl⟩ := inner_piece hps (List.length_pos_iff.1 (by omega))
      exact Or.inl ⟨qs, q, rs, rfl, narrowed, Or.inl (by omega)⟩
    | @embedded qs q x bytes unended piece narrowed field more =>
      rw [bytes, pieces_joined unended, pieces_append piece] at hps
      have hx : pieces SOH x ≠ [] := by
        rw [← List.length_pos_iff, length_pieces]
        exact List.count_pos_iff.2 more
      obtain ⟨rs, rfl⟩ := inner_piece hps hx
      exact Or.inl ⟨qs, q, rs, rfl, narrowed, Or.inr field⟩
    | @closed qs f bytes unended narrowed field tag =>
      right
      have hf := field.tag.piece_open field.value
      rw [bytes, pieces_joined unended, f.bytes_eq, pieces_append hf] at hps
      obtain ⟨rfl, hlast⟩ := List.append_inj' hps rfl
      obtain rfl := (List.cons.inj hlast).1
      rw [f.bytes_eq, List.append_cancel_left_eq, List.append_cancel_left_eq] at bytes
      exact ⟨narrowed, f, rfl, (List.cons.inj bytes).2, tag, field⟩
  · rintro (⟨qs, q, rs, rfl, narrowed, hstop⟩ | ⟨narrowed, f, rfl, rfl, tag, field⟩)
    · rw [List.forall_mem_append, List.forall_mem_cons] at hopen
      have hbytes : joined (qs ++ q :: rs) ++ (s ++ SOH :: u) =
          joined qs ++ (q ++ SOH :: (joined rs ++ (s ++ SOH :: u))) := by
        rw [joined_append, joined_cons]
        simp
      have hmem : SOH ∈ joined rs ++ (s ++ SOH :: u) := by simp
      rcases hstop with hfull | hdata
      · refine .full hbytes hopen.1 narrowed (by omega) ?_
        rw [pieces_append hopen.2.1, List.length_cons, length_pieces]
        have := List.count_pos_iff.2 hmem
        omega
      · exact .embedded hbytes hopen.1 hopen.2.1 narrowed hdata hmem
    · exact .closed (by rw [f.bytes_eq]) hopen narrowed field tag

/-- **Both passes** end the wait exactly on the windows that do. -/
theorem scanPasses_arrived (hw : h.WellFormed) (hat : At b h.fields h.rest p out)
    (hlen : h.bodyEnd + 7 ≤ b.length) :
    Run (fun e => Arrived e ↔ ArrivesAt b p (window h)) (fun _ => ArrivesAt b p (window h))
      (scanPasses b p h.bodyEnd out) := by
  have hcount : out.fieldCount = 3 := hat.count
  rcases scanPasses_cases hat hlen with
    ⟨hmany, heq⟩ | ⟨hnil, heq⟩ | ⟨ps, s, u, hps, hfew, hu, hopen, -, heq⟩
  · rw [heq]
    exact Run.exit (iff_of_true (arrived_ret.2 (Or.inr (Or.inr rfl))) (.crowded hmany))
  · rw [heq]
    exact Run.exit (iff_of_false not_arrived_ret fun h => h.pieces_ne_nil hnil)
  have hiff := arrivesAt_iff (b := b) (p := p) (hu ▸ hps) hfew hopen
  rw [heq, hu, hiff]
  refine Run.bind ((fieldLoop_run ps hopen (by rw [hcount]; decide) (joined_le hat hu) rfl).mono
    ?_ fun y hy => hy) ?_
  · rintro e ⟨-, hnot, harr⟩
    rw [hcount] at harr
    rw [harr]
    refine ⟨Or.inl, ?_⟩
    rintro (hleaves | ⟨hall, -⟩)
    · exact hleaves
    · -- pieces that are all fields do not fit the table
      by_contra hleaves
      exact hnot ⟨hall, by rw [hcount]; exact hall.length_le (by decide) hleaves⟩
  rintro ⟨fs, o⟩ ⟨hpasses, hstay, hfs, -⟩
  rw [hcount] at hstay
  simp only at hfs ⊢
  rw [hfs, or_iff_right hstay, and_iff_right hpasses.1, ← closed_iff hw hat hlen hu]
  exact (checkTrailer_run hlen _ _).mono (fun e he => he.2.2) fun o' ho' =>
    { ho'.1 with room := by decide }

/-- **The AVX2 scanner's wait is over** exactly on the buffers with complete
    headers and a window that ends it. -/
theorem scan_arrived (b : Buffer) (out : FieldIndex) :
    Arrived (scan b out) ↔
      ∃ h, readHead b = .ok h ∧ ArrivesAt b (wire h.fields).length (window h) := by
  rcases scan_cases b out with ⟨r, hr, hres⟩ | ⟨h, o, hr, hat, hlen, hres⟩
  · have hexit := readHead_exits b
    rw [hr] at hexit
    refine iff_of_false ?_ ?_
    · rintro ⟨st, v, h, harr⟩
      rw [hres, Option.some.injEq, Prod.mk.injEq] at h
      exact hexit (h.1 ▸ harr)
    · rintro ⟨h, hh, -⟩
      rw [hr] at hh
      cases hh
  · have hrun := scanPasses_arrived (readHead_ok.1 hr).1 hat hlen
    have hex : (∃ h', readHead b = .ok h' ∧ ArrivesAt b (wire h'.fields).length (window h')) ↔
        ArrivesAt b (wire h.fields).length (window h) := by
      constructor
      · rintro ⟨h', hh', ha⟩
        obtain rfl := Except.ok.inj (hr.symm.trans hh')
        exact ha
      · exact fun ha => ⟨h, hr, ha⟩
    rw [hex, hres]
    rcases hp : scanPasses b (wire h.fields).length h.bodyEnd o with e | o'
    · rw [hp] at hrun
      exact hrun
    · rw [hp] at hrun
      exact iff_of_true ⟨.ok, o'.view, rfl, Or.inl rfl⟩ hrun

end

/-! ## Longer buffers -/

section
variable {ps : List (List Byte)} {f8 f9 f35 : Field} {w : List Byte}

theorem slice_append {i j : ℕ} (h : j ≤ b.length) (x : List Byte) :
    slice (b ++ x) i j = slice b i j := by
  rcases le_or_gt i j with hle | hgt
  · rw [slice, slice, List.drop_append_of_le_length (hle.trans h), List.take_append_of_le_length]
    rw [List.length_drop]
    omega
  · rw [slice, slice, Nat.sub_eq_zero_of_le hgt.le, List.take_zero, List.take_zero]

theorem embeddedAt_append {p : ℕ} {s : List Byte} (h : p + s.length ≤ b.length) (x : List Byte) :
    EmbeddedAt (b ++ x) p s ↔ EmbeddedAt b p s := by
  rw [EmbeddedAt, EmbeddedAt, slice_append ((u32_le _).trans h)]

/-- What stands at narrowed offsets stands no later than the pieces. -/
theorem narrowed_append {p : ℕ} (h : p + (joined ps).length ≤ b.length) (x : List Byte) :
    Narrowed (b ++ x) p ps ↔ Narrowed b p ps := by
  induction ps generalizing p with
  | nil => exact Iff.rfl
  | cons s ps ih =>
    rw [joined_length_cons] at h
    rw [Narrowed, Narrowed, slice_append ((u32_le _).trans (by omega)), ih (by omega)]

theorem verdict_arrived (b : Buffer) :
    (Scanner.avx2.verdict b).1.Arrived ↔ Arrived (scan b .fresh) := by
  have hr : (scan b .fresh).result = some (Scanner.avx2.verdict b) :=
    Scanner.avx2.result_eq b .fresh
  constructor
  · exact fun h => ⟨_, _, hr, h⟩
  · rintro ⟨st, v, h, harr⟩
    rw [hr, Option.some.injEq] at h
    rw [h]
    exact harr

/-- **The AVX2 scanner takes a buffer** iff the declared body with its trailer is
    there, after the type field as the window `w`, and the window ends the
    wait. -/
theorem exists_window (b : Buffer) :
    (Scanner.avx2.verdict b).1.Arrived ↔
      ∃ f8 f9 f35 w t, Declared b f8 f9 (f35.bytes ++ (w ++ t)) ∧ TypeField f35 ∧
        f35.size + w.length = f9.declares + 7 ∧ ArrivesAt b (wire [f8, f9, f35]).length w := by
  rw [verdict_arrived, scan_arrived]
  constructor
  · rintro ⟨h, hh, ha⟩
    obtain ⟨hd, h35, hlen⟩ := declared_of_readHead hh
    rw [List.length_append, h.f35.bytes_length] at hlen
    have hL : h.bodyLen = h.f9.declares := rfl
    rw [← window_append_drop h] at hd
    refine ⟨h.f8, h.f9, h.f35, window h, _, hd, h35, ?_, ha⟩
    have hle : h.f35.size ≤ h.f9.declares + 7 := by
      by_contra hlt
      have hnil : window h = [] := by
        rw [window, hL, Nat.sub_eq_zero_of_le (not_le.1 hlt).le, List.take_zero]
      rw [hnil] at ha
      exact ha.pieces_ne_nil rfl
    rw [window_length hlen, hL]
    omega
  · rintro ⟨f8, f9, f35, w, t, hd, h35, hlen, ha⟩
    have hwin : window ⟨f8, f9, f35, w ++ t⟩ = w := by
      rw [window]
      refine List.take_left' ?_
      show w.length = f9.declares + 7 - f35.size
      omega
    refine ⟨_, hd.readHead_eq h35 ?_, hwin.symm ▸ ha⟩
    rw [List.length_append, List.length_append, f35.bytes_length]
    omega

theorem verdict_of_window (hd : Declared b f8 f9 (f35.bytes ++ w)) (h35 : TypeField f35)
    (hw : f35.size + w.length = f9.declares + 7)
    (ha : ArrivesAt b (wire [f8, f9, f35]).length w) : (Scanner.avx2.verdict b).1.Arrived :=
  (exists_window b).2 ⟨f8, f9, f35, w, [], by rwa [List.append_nil], h35, hw, ha⟩

end

/-! ## Beginnings of a message -/

/-- The fields 8, 9 and 35, and pieces after them. -/
def front (f8 f9 f35 : Field) (ps : List (List Byte)) : Buffer := wire [f8, f9, f35] ++ joined ps

/-- Where a message with these fields ends. -/
def declaredEnd (f8 f9 : Field) : ℕ := (wire [f8, f9]).length + f9.declares + 7

theorem fits_of_declared {f8 f9 : Field} {y : List Byte} (hd : Declared b f8 f9 y)
    (hfit : declaredEnd f8 f9 ≤ 2 ^ 32) {h : Head} (hh : readHead b = .ok h) :
    h.bodyEnd + 7 ≤ 2 ^ 32 := by
  obtain ⟨hd', -, -⟩ := declared_of_readHead hh
  obtain ⟨h8, h9, -⟩ := hd.unique (e := []) (by rwa [List.append_nil])
  rw [Head.bodyEnd, Head.bodyStart, Head.bodyLen, h8, h9]
  exact hfit

/-- Pass 2 gets through the pieces `ps` after a type field: each of them reads as
    a body field at its narrowed offsets. -/
structure Through (f8 f9 f35 : Field) (ps : List (List Byte)) : Prop where
  type : TypeField f35
  unended : ∀ s ∈ ps, SOH ∉ s
  narrowed : Narrowed (front f8 f9 f35 ps) (wire [f8, f9, f35]).length ps

/-- **A beginning of a message** of any length that the AVX2 scanner can still
    take, before its window is complete.  Pass 2 gets through pieces, there or
    to come, and then it finds
    * a piece that reads as a field of embedded data at its narrowed offsets, as
      far as the buffer goes, that leaves one byte;
    * the table full, with two delimiters there or to come;
    * the table full, with the pieces still incomplete, that leave two bytes;
    * the checksum field at the declared end, as far as the buffer goes. -/
inductive Beyond (b : Buffer) (f8 f9 : Field) : Prop
  | embedded {f35 : Field} {ps : List (List Byte)} {q : List Byte} (through : Through f8 f9 f35 ps)
      (piece : SOH ∉ q)
      (field : EmbeddedAt (front f8 f9 f35 ps ++ q) (front f8 f9 f35 ps).length q)
      (agrees : Compatible b (front f8 f9 f35 ps ++ (q ++ [SOH])))
      (room : (front f8 f9 f35 ps).length + q.length + 2 ≤ declaredEnd f8 f9)
  | full {f35 : Field} {ps : List (List Byte)} {u : List Byte} (through : Through f8 f9 f35 ps)
      (bytes : b = front f8 f9 f35 ps ++ u) (many : kMaxFields ≤ ps.length + 3)
      (more : b.length + 2 ≤ u.count SOH + declaredEnd f8 f9)
  | last {f35 : Field} {ps : List (List Byte)} (through : Through f8 f9 f35 ps)
      (inside : b <+: front f8 f9 f35 ps) (many : kMaxFields ≤ ps.length + 3)
      (room : (front f8 f9 f35 ps).length + 2 ≤ declaredEnd f8 f9)
  | closed {f35 : Field} {ps : List (List Byte)} {f : Field} (through : Through f8 f9 f35 ps)
      (inside : b <+: front f8 f9 f35 ps ++ f.bytes)
      (ends : (front f8 f9 f35 ps).length + 7 = declaredEnd f8 f9)
      (field : ChecksumField f) (tag : f.tag = ascii ['1', '0'])

section
variable {f8 f9 f35 : Field} {ps : List (List Byte)}

theorem wire_three : wire [f8, f9, f35] = wire [f8, f9] ++ f35.bytes := by
  rw [← wire_singleton f35, ← wire_append]
  rfl

theorem front_length :
    (front f8 f9 f35 ps).length = (wire [f8, f9, f35]).length + (joined ps).length := by
  rw [front, List.length_append]

theorem Through.narrowed_append (h : Through f8 f9 f35 ps) (x : List Byte) :
    Narrowed (wire [f8, f9, f35] ++ (joined ps ++ x)) (wire [f8, f9, f35]).length ps := by
  rw [← List.append_assoc]
  exact (Avx2Scanner.narrowed_append front_length.ge x).2 h.narrowed

theorem through_of_narrowed {x : List Byte} (h35 : TypeField f35) (hopen : ∀ s ∈ ps, SOH ∉ s)
    (h : Narrowed (wire [f8, f9, f35] ++ (joined ps ++ x)) (wire [f8, f9, f35]).length ps) :
    Through f8 f9 f35 ps := by
  rw [← List.append_assoc] at h
  exact ⟨h35, hopen, (Avx2Scanner.narrowed_append front_length.ge x).1 h⟩

/-- A message that goes on with `x` after the pieces, up to the declared end. -/
theorem Through.completes {e x : List Byte} (h : Through f8 f9 f35 ps)
    (hb : b ++ e = front f8 f9 f35 ps ++ x) (hlen : (b ++ e).length = declaredEnd f8 f9)
    (ha : Narrowed (b ++ e) (wire [f8, f9, f35]).length ps →
      ArrivesAt (b ++ e) (wire [f8, f9, f35]).length (joined ps ++ x)) :
    ∃ e f35 w, b ++ e = wire [f8, f9, f35] ++ w ∧ TypeField f35 ∧
      (b ++ e).length = declaredEnd f8 f9 ∧
      ArrivesAt (b ++ e) (wire [f8, f9, f35]).length w := by
  have hbytes : b ++ e = wire [f8, f9, f35] ++ (joined ps ++ x) := by
    rw [hb, front, List.append_assoc]
  exact ⟨e, f35, joined ps ++ x, hbytes, h.type, hlen, ha (hbytes ▸ h.narrowed_append x)⟩

/-- The beginning of a message can be completed to one whose window, of the
    declared length, ends the wait. -/
theorem Beyond.completes (h : Beyond b f8 f9) (hlen : b.length < declaredEnd f8 f9) :
    ∃ e f35 w, b ++ e = wire [f8, f9, f35] ++ w ∧ TypeField f35 ∧
      (b ++ e).length = declaredEnd f8 f9 ∧
      ArrivesAt (b ++ e) (wire [f8, f9, f35]).length w := by
  cases h with
  | @embedded f35 ps q through piece field agrees room =>
    obtain ⟨r, t, hr, hnil⟩ := agrees.exists_append
    have hl := congrArg List.length hr
    simp only [List.length_append, List.length_singleton] at hl
    -- a byte is left for the delimiter after the embedded field
    have hspare : b.length + r.length + 1 ≤ declaredEnd f8 f9 := by
      rcases hnil with rfl | rfl
      · exact hlen
      · rw [List.length_nil] at hl
        omega
    obtain ⟨k, hk⟩ := Nat.exists_eq_add_of_le hspare
    have hbytes : b ++ (r ++ List.replicate (k + 1) SOH) =
        front f8 f9 f35 ps ++ (q ++ SOH :: (t ++ List.replicate (k + 1) SOH)) := by
      rw [← List.append_assoc, hr]
      simp
    refine through.completes hbytes ?_ fun hps => .embedded rfl through.unended piece hps ?_ ?_
    · rw [List.length_append, List.length_append, List.length_replicate]
      omega
    · have hfield := (embeddedAt_append (by rw [List.length_append])
        (SOH :: (t ++ List.replicate (k + 1) SOH))).2 field
      rwa [List.append_assoc, ← hbytes, front_length] at hfield
    · exact List.mem_append_right _ (List.mem_replicate.2 ⟨by omega, rfl⟩)
  | @full f35 ps u through bytes many more =>
    obtain ⟨k, hk⟩ := Nat.exists_eq_add_of_le hlen.le
    have hbytes : b ++ List.replicate k SOH = front f8 f9 f35 ps ++ (u ++ List.replicate k SOH) := by
      rw [bytes, List.append_assoc]
    refine through.completes hbytes ?_ fun hps => .full rfl through.unended hps many ?_
    · rw [List.length_append, List.length_replicate, hk]
    · rw [length_pieces, List.count_append, List.count_replicate_self]
      omega
  | @last f35 ps through inside many room =>
    obtain ⟨r, hr⟩ := inside
    have hl := congrArg List.length hr
    rw [List.length_append] at hl
    obtain ⟨k, hk⟩ := Nat.exists_eq_add_of_le room
    have hbytes : b ++ (r ++ List.replicate (k + 2) SOH) =
        front f8 f9 f35 ps ++ List.replicate (k + 2) SOH := by
      rw [← List.append_assoc, hr]
    refine through.completes hbytes ?_ fun hps => .full rfl through.unended hps many ?_
    · rw [List.length_append, List.length_append, List.length_replicate]
      omega
    · rw [length_pieces, List.count_replicate_self]
      omega
  | @closed f35 ps f through inside ends field tag =>
    obtain ⟨r, hr⟩ := inside
    refine through.completes hr ?_ fun hps => .closed rfl through.unended hps field tag
    rw [hr, List.length_append, f.bytes_length, field.size_eq tag]
    exact ends

/-- A buffer with a window that ends the wait completes a beginning, or its
    window is crowded. -/
theorem beyond_of_arrivesAt {e w t : List Byte} (hlen : b.length < declaredEnd f8 f9)
    (hb : b ++ e = wire [f8, f9, f35] ++ (w ++ t)) (h35 : TypeField f35)
    (hw : f35.size + w.length = f9.declares + 7)
    (h : ArrivesAt (b ++ e) (wire [f8, f9, f35]).length w) :
    kMaxFields < (pieces SOH w).length ∨ Beyond b f8 f9 := by
  have hend : (wire [f8, f9, f35]).length + w.length = declaredEnd f8 f9 := by
    rw [wire_three, List.length_append, f35.bytes_length, declaredEnd]
    omega
  -- the pieces the window begins with, in the buffer
  have hfront : ∀ {ps : List (List Byte)} {x : List Byte}, w = joined ps ++ x →
      b <+: front f8 f9 f35 ps ++ (x ++ t) ∧
        (front f8 f9 f35 ps).length + x.length = declaredEnd f8 f9 := by
    rintro ps x rfl
    refine ⟨⟨e, ?_⟩, ?_⟩
    · rw [hb, front]
      simp
    · rw [front_length]
      rw [List.length_append] at hend
      omega
  rw [hb] at h
  cases h with
  | crowded many => exact Or.inl many
  | @full ps x bytes unended narrowed many more =>
    right
    obtain ⟨hpre, hx⟩ := hfront bytes
    rw [bytes, List.append_assoc] at narrowed
    have hthrough := through_of_narrowed h35 unended narrowed
    rw [length_pieces] at more
    have hcount := List.count_le_length (a := SOH) (l := x)
    rcases List.prefix_or_prefix_of_prefix hpre (List.prefix_append _ _) with hle | ⟨u, rfl⟩
    · exact .last hthrough hle many (by omega)
    · have hu := (List.prefix_append_right_inj _).1 hpre
      rw [List.length_append] at hlen
      have := (prefix_of_length_le hu (by omega)).2
      refine .full hthrough rfl many ?_
      rw [List.length_append]
      omega
  | @embedded ps q x bytes unended piece narrowed field more =>
    right
    obtain ⟨hpre, hx⟩ := hfront bytes
    have hpos := List.length_pos_iff.2 (List.ne_nil_of_mem more)
    rw [List.length_append, List.length_cons] at hx
    rw [bytes, List.append_assoc] at narrowed
    refine .embedded (through_of_narrowed h35 unended narrowed) piece ?_
      (Compatible.of_append (t := x ++ t) ?_) (by omega)
    · have hbytes : wire [f8, f9, f35] ++ (w ++ t) =
          front f8 f9 f35 ps ++ q ++ (SOH :: x ++ t) := by
        rw [bytes, front]
        simp
      rw [hbytes, ← front_length] at field
      exact (embeddedAt_append (by rw [List.length_append]) _).1 field
    · simpa using hpre
  | @closed ps f bytes unended narrowed field tag =>
    right
    obtain ⟨hpre, hx⟩ := hfront bytes
    rw [bytes, List.append_assoc] at narrowed
    rw [f.bytes_length, field.size_eq tag] at hx
    refine .closed (through_of_narrowed h35 unended narrowed) ?_ hx field tag
    rw [← List.append_assoc] at hpre
    refine List.prefix_of_prefix_length_le hpre (List.prefix_append _ _) ?_
    rw [List.length_append, f.bytes_length, field.size_eq tag]
    omega

end

end Avx2Scanner
end SwiftFIX
