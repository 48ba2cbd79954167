/-
  When a scanner takes a buffer: the verdicts `Ok`, `FallbackRequested` and
  `TableFull`, with which the wait for a message is over and the message is
  accepted or left to QuickFIX.

  `ScalarScanner.read_arrived` and `Avx2Scanner.read_arrived` say on the bytes
  alone which buffers get one of them.
-/
import SwiftFIX.Capacity

namespace SwiftFIX

open Decimal Delimited EarlyExit

/-! ## Complete headers -/

/-- The fields 8 and 9 are complete, and `y` follows them. -/
structure Declared (b : Buffer) (f8 f9 : Field) (y : List Byte) : Prop where
  bytes : b = wire [f8, f9] ++ y
  tag8 : f8.tag = [ch '8']
  value8 : SOH ∉ f8.value
  tag9 : f9.tag = [ch '9']
  value9 : Numeral f9.value
  value9_ne : f9.value ≠ []

/-- The declared body length. -/
def Field.declares (f9 : Field) : ℕ := Decimal.value f9.value

/-- A message type field. -/
structure TypeField (f : Field) : Prop where
  tag : f.tag = [ch '3', ch '5']
  value : SOH ∉ f.value

/-- A length or data field of embedded data. -/
structure EmbeddedField (f : Field) : Prop where
  tag : Tag f.tag
  number : f.number = 95 ∨ f.number = 96
  value : SOH ∉ f.value

/-- The fields from the message type on that a body may begin with. -/
def Begun : List Field → Prop
  | [] => True
  | f :: gs => TypeField f ∧ ∀ g ∈ gs, BodyField g

theorem Declared.append {b : Buffer} {f8 f9 : Field} {y : List Byte} (h : Declared b f8 f9 y)
    (e : Buffer) : Declared (b ++ e) f8 f9 (y ++ e) :=
  { h with bytes := by rw [h.bytes, List.append_assoc] }

section
variable {b : Buffer} {f8 f9 f35 : Field} {t : List Byte}

/-- The headers pass once the declared body and seven more bytes are there. -/
theorem Declared.readHead_eq (h : Declared b f8 f9 (f35.bytes ++ t)) (h35 : TypeField f35)
    (hlen : f9.declares + 7 ≤ (f35.bytes ++ t).length) : readHead b = .ok ⟨f8, f9, f35, t⟩ := by
  refine readHead_ok.2 ⟨⟨h.tag8, h.value8, h.tag9, h.value9, h.value9_ne, h35.tag, h35.value⟩,
    ?_, ?_⟩
  · rw [h.bytes]
    simp [Head.fields, wire_cons, wire_nil]
  · show (wire [f8, f9]).length + f9.declares + 7 ≤ b.length
    rw [h.bytes, List.length_append]
    omega

theorem declared_of_readHead {h : Head} (hh : readHead b = .ok h) :
    Declared b h.f8 h.f9 (h.f35.bytes ++ h.rest) ∧ TypeField h.f35 ∧
      h.f9.declares + 7 ≤ (h.f35.bytes ++ h.rest).length := by
  obtain ⟨hw, hb, hlen⟩ := readHead_ok.1 hh
  have hbytes : b = wire [h.f8, h.f9] ++ (h.f35.bytes ++ h.rest) := by
    rw [hb]
    simp [Head.fields, wire_cons, wire_nil]
  refine ⟨⟨hbytes, hw.tag8, hw.value8, hw.tag9, hw.value9, hw.value9_ne⟩, ⟨hw.tag35, hw.value35⟩, ?_⟩
  have hlen : (wire [h.f8, h.f9]).length + h.f9.declares + 7 ≤ b.length := hlen
  rw [hbytes, List.length_append] at hlen
  omega

end

theorem Full.arrived {α : Type} {c : Read α} (h : Full c) (f : α → Read (List Field)) :
    (Reading.ofRead (c >>= f)).status.Arrived := by
  obtain ⟨fs, rfl⟩ := h
  exact Or.inr (Or.inr rfl)

/-! ## The scalar scanner -/

namespace ScalarScanner

/-- A checksum field after the bytes `x`, as the scalar scanner compares it:
    with the length of its value in 32 bits, and with three digits at the
    narrowed offset of the value. -/
structure Closes (x : List Byte) (f : Field) : Prop where
  tag : Tag f.tag
  number : f.number = 10
  value : SOH ∉ f.value
  length : u32 f.value.length = 3
  digits : DigitsAt (x ++ f.bytes) (u32 (x.length + f.tag.length + 1))

/-- What ends the scalar scanner's wait after the complete fields `fs` of a
    body: the table is full, or a field of embedded data or the checksum field
    follows. -/
inductive Arrives (f8 f9 : Field) (fs : List Field) (t : List Byte) : Prop
  | full (inside : (wire fs).length < f9.declares) (many : kMaxFields ≤ fs.length + 2)
  | embedded {f : Field} {t' : List Byte} (inside : (wire fs).length < f9.declares)
      (next : t = f.bytes ++ t') (field : EmbeddedField f)
  | closed {f : Field} {t' : List Byte} (inside : (wire fs).length = f9.declares)
      (next : t = f.bytes ++ t') (field : Closes (wire (f8 :: f9 :: fs)) f)

/-- A body loop that arrives has the table full, or stands before a field of
    embedded data. -/
theorem readBody_arrives {left : ℕ} {fs : List Field} {s : List Byte} {r : Reading}
    (h : readBody fs left s = .error r) (harr : r.status.Arrived) :
    ∃ gs t, s = wire gs ++ t ∧ (∀ g ∈ gs, BodyField g) ∧ (wire gs).length < left ∧
      (kMaxFields ≤ fs.length + gs.length ∨ ∃ f t', t = f.bytes ++ t' ∧ EmbeddedField f) := by
  obtain ⟨gs, t, rfl, hgs, hle, -, hstop⟩ := readBody_stops left fs s
  rw [h] at hstop
  cases hstop with
  | full inside many =>
    rw [List.length_append] at many
    exact ⟨gs, t, rfl, hgs, by omega, Or.inl many⟩
  | truncated => simp [ScanStatus.Arrived] at harr
  | malformed => simp [ScanStatus.Arrived] at harr
  | @embedded f t' inside room next number =>
    obtain ⟨rfl, htag, hval⟩ := readField_field.1 next
    exact ⟨gs, _, rfl, hgs, by omega, Or.inr ⟨f, t', rfl, htag, number, hval⟩⟩

/-- The digit test looks no further than the checksum field. -/
theorem Closes.digitsAt {x : List Byte} {f : Field} {t : List Byte}
    (h3 : u32 f.value.length = 3) :
    DigitsAt (x ++ (f.bytes ++ t)) (u32 (x.length + f.tag.length + 1)) ↔
      DigitsAt (x ++ f.bytes) (u32 (x.length + f.tag.length + 1)) := by
  rw [← List.append_assoc]
  refine digitsAt_append t ?_
  have hv := u32_le (x.length + f.tag.length + 1)
  have hl := u32_le f.value.length
  rw [List.length_append, f.bytes_length, Field.size]
  omega

theorem readEnding_arrived {b : Buffer} {fs : List Field} {x : Option (List Byte)}
    (hb : ∀ s, x = some s → b = wire fs ++ s) :
    (Reading.ofRead (readEnding b fs x)).status.Arrived ↔
      ∃ f t, x = some (f.bytes ++ t) ∧ Closes (wire fs) f := by
  constructor
  · intro h
    unfold readEnding at h
    split at h
    · simp [Reading.ofRead, ScanStatus.Arrived] at h
    rename_i s
    split at h
    · simp [Reading.ofRead, ScanStatus.Arrived] at h
    · simp [Reading.ofRead, ScanStatus.Arrived] at h
    rename_i f t hr
    obtain ⟨rfl, htag, hval⟩ := readField_field.1 hr
    split at h
    · simp [Reading.ofRead, ScanStatus.Arrived] at h
    rename_i h10
    split at h
    · simp [Reading.ofRead, ScanStatus.Arrived] at h
    rename_i h3
    split at h
    · simp [Reading.ofRead, ScanStatus.Arrived] at h
    rename_i hd
    rw [not_not] at h10 h3 hd
    rw [hb _ rfl, Closes.digitsAt h3] at hd
    exact ⟨f, t, rfl, htag, h10, hval, h3, hd⟩
  · rintro ⟨f, t, rfl, htag, h10, hval, h3, hd⟩
    have hr : readField (f.bytes ++ t) = .field f t := readField_field.2 ⟨rfl, htag, hval⟩
    have hd' : DigitsAt b (u32 ((wire fs).length + f.tag.length + 1)) := by
      rw [hb _ rfl, Closes.digitsAt h3]
      exact hd
    rw [readEnding, hr]
    simp only [h10, h3, hd', ne_eq, not_true, if_false]
    split
    · exact Or.inr (Or.inr rfl)
    · exact Or.inl rfl

theorem readMessage_arrived {b : Buffer} {h : Head} (hh : readHead b = .ok h) :
    (Reading.ofRead (do let x ← readRest h; readEnding b x.1 x.2)).status.Arrived ↔
      ∃ gs t, h.rest = wire gs ++ t ∧ (∀ g ∈ gs, BodyField g) ∧
        Arrives h.f8 h.f9 (h.f35 :: gs) t := by
  have hb := (readHead_ok.1 hh).2.1
  have hL : h.bodyLen = h.f9.declares := rfl
  have hsize := wire_cons_length h.f35
  have hall : ∀ gs, wire (h.f8 :: h.f9 :: h.f35 :: gs) = wire (h.fields ++ gs) := fun _ => rfl
  have hending : ∀ gs s, h.rest = wire gs ++ s → ∀ s', some s = some s' →
      b = wire (h.fields ++ gs) ++ s' := by
    rintro gs s hs s' ⟨⟩
    rw [wire_append, List.append_assoc, ← hs]
    exact hb
  constructor
  · intro harr
    unfold readRest at harr
    split at harr
    · simp [readEnding, Reading.ofRead, ScanStatus.Arrived] at harr
    rename_i hlt
    rcases hbody : readBody h.fields (h.bodyLen - h.f35.size) h.rest with r | ⟨fs, x⟩
    · rw [hbody] at harr
      obtain ⟨gs, t, hrest, hgs, hleft, hstop⟩ := readBody_arrives hbody harr
      have hin : (wire (h.f35 :: gs)).length < h.f9.declares := by
        rw [hsize]
        omega
      refine ⟨gs, t, hrest, hgs, ?_⟩
      rcases hstop with hmany | ⟨f, t', rfl, hf⟩
      · refine .full hin ?_
        have h3 : h.fields.length = 3 := rfl
        rw [List.length_cons]
        omega
      · exact .embedded hin rfl hf
    · rw [hbody] at harr
      rcases x with _ | s
      · simp [readEnding, Reading.ofRead, ScanStatus.Arrived] at harr
      obtain ⟨gs, rfl, hrest, hleft, hgs, -⟩ := (readBody_ok h.fields_length_le).1 hbody
      obtain ⟨f, t, hs, hf⟩ := (readEnding_arrived (hending gs s hrest)).1 harr
      cases hs
      refine ⟨gs, f.bytes ++ t, hrest, hgs, .closed ?_ rfl hf⟩
      rw [hsize]
      omega
  · rintro ⟨gs, t, hrest, hgs, harr⟩
    have hle : (wire (h.f35 :: gs)).length ≤ h.f9.declares := by
      cases harr with
      | full hin _ => exact hin.le
      | embedded hin _ _ => exact hin.le
      | closed hin _ _ => exact hin.le
    have hlen := hsize gs
    unfold readRest
    rw [if_neg (by omega), hrest]
    rcases readBody_append hgs t h.fields_length_le
      (show (wire gs).length ≤ h.bodyLen - h.f35.size by omega) with hfull | heq
    · exact Full.arrived hfull _
    have hleft : h.bodyLen - h.f35.size - (wire gs).length =
        h.f9.declares - (wire (h.f35 :: gs)).length := by omega
    have h3 : (h.fields ++ gs).length = (h.f35 :: gs).length + 2 := h.fields_append_length gs
    rw [heq, hleft, readBody]
    cases harr with
    | full hin hmany =>
      rw [if_neg (by omega), if_pos (by rw [h3]; exact hmany)]
      exact Or.inr (Or.inr rfl)
    | @embedded f t' hin ht hf =>
      rw [if_neg (by omega)]
      split
      · exact Or.inr (Or.inr rfl)
      · rw [ht, readField_field.2 ⟨rfl, hf.tag, hf.value⟩]
        simp only [hf.number, if_true]
        exact Or.inr (Or.inl rfl)
    | @closed f t' hin ht hf =>
      rw [if_pos (by omega)]
      exact (readEnding_arrived (hending gs t hrest)).2 ⟨f, t', by rw [ht], hf⟩

/-- **The scalar scanner takes a buffer** iff the declared body with its trailer
    is there and the body's complete fields lead to a full table, to embedded
    data, or to a checksum field at the declared end. -/
theorem read_arrived (b : Buffer) :
    (read b).status.Arrived ↔
      ∃ f8 f9 fs t, Declared b f8 f9 (wire fs ++ t) ∧ Begun fs ∧ fs ≠ [] ∧
        f9.declares + 7 ≤ (wire fs ++ t).length ∧ Arrives f8 f9 fs t := by
  have hread : read b = .ofRead (do let h ← readHead b; let x ← readRest h; readEnding b x.1 x.2) :=
    rfl
  rw [hread]
  constructor
  · intro harr
    rcases hh : readHead b with r | h
    · have hr := readHead_exits b
      rw [hh] at hr harr
      exact absurd harr hr
    · rw [hh] at harr
      obtain ⟨gs, t, hrest, hgs, ha⟩ := (readMessage_arrived hh).1 harr
      obtain ⟨hd, h35, hlen⟩ := declared_of_readHead hh
      have hwire : wire (h.f35 :: gs) ++ t = h.f35.bytes ++ h.rest := by
        rw [wire_cons, List.append_assoc, hrest]
      exact ⟨h.f8, h.f9, h.f35 :: gs, t, by rw [hwire]; exact hd, ⟨h35, hgs⟩, by simp,
        by rw [hwire]; exact hlen, ha⟩
  · rintro ⟨f8, f9, fs, t, hd, hbegun, hne, hlen, ha⟩
    rcases fs with _ | ⟨f35, gs⟩
    · exact absurd rfl hne
    rw [wire_cons, List.append_assoc] at hd hlen
    have hh := hd.readHead_eq hbegun.1 hlen
    rw [hh]
    exact (readMessage_arrived hh).2 ⟨gs, t, rfl, hbegun.2, ha⟩

end ScalarScanner

/-! ## The AVX2 scanner -/

theorem pieces_bytes {f : Field} (ht : Tag f.tag) (hv : SOH ∉ f.value) (x : List Byte) :
    pieces SOH (f.bytes ++ x) = f.piece :: pieces SOH x := by
  rw [f.bytes_eq, List.append_assoc]
  exact pieces_append (ht.piece_open hv) x

theorem pieces_wire {gs : List Field} (hgs : ∀ g ∈ gs, BodyField g) (x : List Byte) :
    pieces SOH (wire gs ++ x) = gs.map Field.piece ++ pieces SOH x := by
  induction gs with
  | nil => rfl
  | cons f gs ih =>
    rw [List.forall_mem_cons] at hgs
    rw [wire_cons, List.append_assoc, pieces_bytes hgs.1.tag hgs.1.value, ih hgs.2]
    rfl

theorem pieces_ne_nil {x : List Byte} (h : SOH ∈ x) : pieces SOH x ≠ [] := by
  rcases hc : cut SOH x with _ | ⟨s, t⟩
  · exact absurd h (cut_none.1 hc)
  · rw [pieces_of_cut hc]
    exact List.cons_ne_nil _ _

namespace Avx2Scanner

/-- What ends the AVX2 scanner's wait once its window `w` is there: more
    delimiters than the SOH array takes, a full table, a field of embedded data
    with a delimiter after it, or the seven-byte trailer at the end. -/
inductive Arrives (w : List Byte) : Prop
  | crowded (many : kMaxFields < (pieces SOH w).length)
  | full {gs : List Field} {x : List Byte} (bytes : w = wire gs ++ x)
      (fields : ∀ g ∈ gs, BodyField g) (many : kMaxFields ≤ gs.length + 3)
      (more : 2 ≤ (pieces SOH x).length)
  | embedded {gs : List Field} {f : Field} {x : List Byte} (bytes : w = wire gs ++ (f.bytes ++ x))
      (fields : ∀ g ∈ gs, BodyField g) (field : EmbeddedField f) (more : SOH ∈ x)
  | closed {gs : List Field} {f : Field} (bytes : w = wire gs ++ f.bytes)
      (fields : ∀ g ∈ gs, BodyField g) (field : ChecksumField f) (tag : f.tag = ascii ['1', '0'])

theorem not_arrives_nil : ¬ Arrives [] := by
  intro h
  cases h with
  | crowded many => exact absurd many (by decide)
  | @full gs x bytes _ _ more =>
    rw [(List.append_eq_nil_iff.1 bytes.symm).2] at more
    exact absurd more (by decide)
  | @embedded gs f x bytes _ _ more =>
    rw [(List.append_eq_nil_iff.1 (List.append_eq_nil_iff.1 bytes.symm).2).2] at more
    exact absurd more List.not_mem_nil
  | @closed gs f bytes _ _ _ =>
    have hl := congrArg List.length bytes
    have := f.size_pos
    rw [List.length_append, f.bytes_length, List.length_nil] at hl
    omega

/-- Pass 2 arrives with the table full, or on a field of embedded data. -/
theorem readPieces_arrives {ps : List (List Byte)} (hps : ∀ s ∈ ps, SOH ∉ s) {fs : List Field}
    {r : Reading} (h : readPieces fs ps = .error r) (harr : r.status.Arrived) :
    ∃ (gs : List Field) (q : List Byte) (qs : List (List Byte)),
      ps = gs.map Field.piece ++ q :: qs ∧ (∀ g ∈ gs, BodyField g) ∧
      (kMaxFields ≤ fs.length + gs.length ∨ ∃ f, q = f.piece ∧ EmbeddedField f) := by
  obtain ⟨gs, qs, rfl, hgs, -, hstop⟩ := readPieces_stops ps fs
  have hbody : ∀ g ∈ gs, BodyField g := fun g hg =>
    (hgs g hg).body (hps g.piece (List.mem_append_left _ (List.mem_map_of_mem hg)))
  rw [h] at hstop
  cases hstop with
  | full many =>
    rw [List.length_append] at many
    exact ⟨gs, _, _, rfl, hbody, Or.inl many⟩
  | malformed => simp [ScanStatus.Arrived] at harr
  | @embedded q qs f room next number =>
    obtain ⟨rfl, htag⟩ := readPiece_some.1 next
    have hopen := hps f.piece (List.mem_append_right _ List.mem_cons_self)
    exact ⟨gs, _, qs, rfl, hbody, Or.inr ⟨f, rfl, htag, number, fun hm =>
      hopen (by simp [Field.piece, hm])⟩⟩

theorem readTrailer_arrived {bodyEnd : ℕ} {fs : List Field} {s : List Byte} :
    (Reading.ofRead (readTrailer bodyEnd fs s)).status.Arrived ↔
      (wire fs).length = bodyEnd ∧
        ∃ f, s = f.piece ∧ ChecksumField f ∧ f.tag = ascii ['1', '0'] := by
  constructor
  · intro h
    rcases hr : readTrailer bodyEnd fs s with r | fs'
    · rw [hr] at h
      unfold readTrailer at hr
      split at hr
      · cases hr
        simp [Reading.ofRead, ScanStatus.Arrived] at h
      rename_i hend
      split at hr
      · cases hr
        simp [Reading.ofRead, ScanStatus.Arrived] at h
      rename_i h6
      split at hr
      · cases hr
        simp [Reading.ofRead, ScanStatus.Arrived] at h
      rename_i d hs
      rw [strip_some] at hs
      split at hr
      · cases hr
        simp [Reading.ofRead, ScanStatus.Arrived] at h
      rename_i hd
      have h3 : d.length = 3 := by
        rw [not_not, hs, List.length_append] at h6
        simp at h6
        omega
      exact ⟨not_not.1 hend, ⟨[ch '1', ch '0'], d⟩, hs, .of_digits h3 (not_not.1 hd), rfl⟩
    · obtain ⟨f, -, hs, htag, hf, hend, -⟩ := readTrailer_ok.1 hr
      exact ⟨hend, f, hs, hf, htag⟩
  · rintro ⟨hend, f, rfl, hf, htag⟩
    by_cases hroom : fs.length < kMaxFields
    · rw [readTrailer_ok.2 ⟨f, rfl, rfl, htag, hf, hend, hroom⟩]
      exact Or.inl rfl
    · obtain ⟨fs', hfs'⟩ := readTrailer_full htag hf hend (not_lt.1 hroom)
      rw [hfs']
      exact Or.inr (Or.inr rfl)

theorem readRest_eq {h : Head} {init : List (List Byte)} {last : List Byte}
    (hps : pieces SOH (window h) = init ++ [last]) (hlen : (init ++ [last]).length ≤ kMaxFields) :
    readRest h = readPieces h.fields init >>= fun fs => readTrailer h.bodyEnd fs last := by
  unfold readRest
  simp only
  rw [hps, if_neg (by omega), List.getLast?_concat, List.dropLast_concat]

/-- A window whose pieces are complete fields, then others, the last of which is
    left to the trailer. -/
theorem readRest_append {h : Head} {gs : List Field} {ps : List (List Byte)}
    (hps : pieces SOH (window h) = gs.map Field.piece ++ ps) (hne : ps ≠ [])
    (hgs : ∀ g ∈ gs, BodyField g) :
    (Reading.ofRead (readRest h)).status.Arrived ∨
      readRest h = readPieces (h.fields ++ gs) ps.dropLast >>= fun fs =>
        readTrailer h.bodyEnd fs (ps.getLast hne) := by
  by_cases hlen : (pieces SOH (window h)).length > kMaxFields
  · left
    unfold readRest
    simp only
    rw [if_pos hlen]
    exact Or.inr (Or.inr rfl)
  · have hps' : pieces SOH (window h) = (gs.map Field.piece ++ ps.dropLast) ++ [ps.getLast hne] := by
      rw [hps, List.append_assoc, List.dropLast_append_getLast hne]
    rw [readRest_eq hps' (by rw [← hps']; omega)]
    rcases readPieces_append (fun g hg => (hgs g hg).taken) ps.dropLast h.fields_length_le with
      hfull | heq
    · exact Or.inl (Full.arrived hfull _)
    · rw [heq]
      exact Or.inr rfl

theorem window_length {h : Head} (hlen : h.bodyLen + 7 ≤ h.f35.size + h.rest.length) :
    (window h).length = h.bodyLen + 7 - h.f35.size := by
  rw [window, List.length_take]
  omega

theorem arrives_of_readRest {h : Head} (hlen : h.bodyLen + 7 ≤ h.f35.size + h.rest.length)
    (harr : (Reading.ofRead (readRest h)).status.Arrived) : Arrives (window h) := by
  have hwin := window_length hlen
  by_cases hmany : kMaxFields < (pieces SOH (window h)).length
  · exact .crowded hmany
  rcases List.eq_nil_or_concat (pieces SOH (window h)) with hnil | ⟨init, last, hps⟩
  · unfold readRest at harr
    simp only [hnil, List.getLast?_nil] at harr
    simp [Reading.ofRead, ScanStatus.Arrived] at harr
  rw [List.concat_eq_append] at hps
  rw [readRest_eq hps (by rw [← hps]; omega)] at harr
  obtain ⟨t, hw, -, hopen⟩ := pieces_eq.1 hps
  have hinit : ∀ s ∈ init, SOH ∉ s := fun s hs => hopen s (List.mem_append_left _ hs)
  rcases hr : readPieces h.fields init with r | fs
  · rw [hr] at harr
    obtain ⟨gs, q, qs, rfl, hgs, hstop⟩ := readPieces_arrives hinit hr harr
    have hx : window h = wire gs ++ ((q :: (qs ++ [last])).flatMap (· ++ [SOH]) ++ t) := by
      rw [hw, wire_eq]
      simp
    rcases hstop with hfull | ⟨f, rfl, hf⟩
    · refine .full hx hgs ?_ ?_
      · rw [Head.fields, List.length_cons, List.length_cons, List.length_singleton] at hfull
        omega
      · rw [hx, pieces_wire hgs, List.append_assoc] at hps
        rw [List.append_cancel_left hps]
        simp
    · refine .embedded (x := (qs ++ [last]).flatMap (· ++ [SOH]) ++ t) ?_ hgs hf (by simp)
      rw [hx, f.bytes_eq]
      simp
  · rw [hr] at harr
    obtain ⟨gs, rfl, rfl, hgs, -⟩ := (readPieces_ok h.fields_length_le).1 hr
    obtain ⟨hend, f, rfl, hf, htag⟩ := readTrailer_arrived.1 harr
    have hbody : ∀ g ∈ gs, BodyField g := fun g hg =>
      (hgs g hg).body (hinit _ (List.mem_map_of_mem hg))
    have hwt : window h = wire gs ++ f.bytes ++ t := by
      rw [hw, wire_eq, f.bytes_eq]
      simp
    have ht : t = [] := by
      have hl := congrArg List.length hwt
      rw [h.wire_fields_append_length, Head.bodyEnd] at hend
      rw [hwin, List.length_append, List.length_append, f.bytes_length,
        ChecksumField.size_eq hf htag] at hl
      exact List.length_eq_zero_iff.1 (by omega)
    exact .closed (by rw [hwt, ht, List.append_nil]) hbody hf htag

theorem readRest_of_arrives {h : Head} (hlen : h.bodyLen + 7 ≤ h.f35.size + h.rest.length)
    (harr : Arrives (window h)) : (Reading.ofRead (readRest h)).status.Arrived := by
  have hwin := window_length hlen
  cases harr with
  | crowded many =>
    unfold readRest
    simp only
    rw [if_pos many]
    exact Or.inr (Or.inr rfl)
  | @full gs x bytes fields many more =>
    have hne : pieces SOH x ≠ [] := List.length_pos_iff.1 (by omega)
    rcases readRest_append (by rw [bytes, pieces_wire fields]) hne fields with harr | heq
    · exact harr
    rw [heq]
    have hdrop : 1 ≤ (pieces SOH x).dropLast.length := by
      rw [List.length_dropLast]
      omega
    obtain ⟨q, qs, hqs⟩ := List.exists_cons_of_ne_nil (List.length_pos_iff.1 hdrop)
    have h3 := h.fields_append_length gs
    rw [hqs, readPieces, if_pos (by omega)]
    exact Or.inr (Or.inr rfl)
  | @embedded gs f x bytes fields field more =>
    have hne := pieces_ne_nil more
    have hps : pieces SOH (window h) = gs.map Field.piece ++ f.piece :: pieces SOH x := by
      rw [bytes, pieces_wire fields, pieces_bytes field.tag field.value]
    rcases readRest_append hps (List.cons_ne_nil _ _) fields with harr | heq
    · exact harr
    rw [heq, List.dropLast_cons_of_ne_nil hne, readPieces]
    split
    · exact Or.inr (Or.inr rfl)
    · have hp : readPiece f.piece = some f := readPiece_some.2 ⟨rfl, field.tag⟩
      rw [hp]
      simp only [field.number, if_true]
      exact Or.inr (Or.inl rfl)
  | @closed gs f bytes fields field tag =>
    have hps : pieces SOH (window h) = gs.map Field.piece ++ [f.piece] := by
      have hf := pieces_bytes field.tag field.value []
      rw [List.append_nil] at hf
      rw [bytes, pieces_wire fields, hf]
      rfl
    rcases readRest_append hps (List.cons_ne_nil _ _) fields with harr | heq
    · exact harr
    rw [heq]
    refine readTrailer_arrived.2 ⟨?_, f, rfl, field, tag⟩
    have hl := congrArg List.length bytes
    rw [hwin, List.length_append, f.bytes_length, field.size_eq tag] at hl
    rw [h.wire_fields_append_length, Head.bodyEnd]
    omega

/-- The message after accepted headers, once its window is there. -/
theorem readRest_arrived {h : Head} (hlen : h.bodyLen + 7 ≤ h.f35.size + h.rest.length) :
    (Reading.ofRead (readRest h)).status.Arrived ↔ Arrives (window h) :=
  ⟨arrives_of_readRest hlen, readRest_of_arrives hlen⟩

/-- **The AVX2 scanner takes a buffer** iff the declared body with its trailer is
    there, after the type field as the window `w`, and the window arrives. -/
theorem read_arrived (b : Buffer) :
    (read b).status.Arrived ↔
      ∃ f8 f9 f35 w t, Declared b f8 f9 (f35.bytes ++ (w ++ t)) ∧ TypeField f35 ∧
        f35.size + w.length = f9.declares + 7 ∧ Arrives w := by
  have hread : read b = .ofRead (do let h ← readHead b; readRest h) := rfl
  rw [hread]
  constructor
  · intro harr
    rcases hh : readHead b with r | h
    · have hr := readHead_exits b
      rw [hh] at hr harr
      exact absurd harr hr
    · rw [hh] at harr
      obtain ⟨hd, h35, hlen⟩ := declared_of_readHead hh
      rw [List.length_append, h.f35.bytes_length] at hlen
      have ha := (readRest_arrived hlen).1 harr
      rw [← window_append_drop h] at hd
      refine ⟨h.f8, h.f9, h.f35, window h, _, hd, h35, ?_, ha⟩
      have hL : h.bodyLen = h.f9.declares := rfl
      have hle : h.f35.size ≤ h.f9.declares + 7 := by
        by_contra hlt
        have hw : window h = [] := by
          rw [window, show h.bodyLen + 7 - h.f35.size = 0 by omega, List.take_zero]
        rw [hw] at ha
        exact not_arrives_nil ha
      rw [window_length hlen]
      omega
  · rintro ⟨f8, f9, f35, w, t, hd, h35, hlen, ha⟩
    have hbytes : (f35.bytes ++ (w ++ t)).length = f35.size + w.length + t.length := by
      rw [List.length_append, List.length_append, f35.bytes_length, Nat.add_assoc]
    have hh := hd.readHead_eq h35 (by omega)
    rw [hh]
    have hL : (Head.mk f8 f9 f35 (w ++ t)).bodyLen = f9.declares := rfl
    have hwin : window ⟨f8, f9, f35, w ++ t⟩ = w := by
      rw [window, hL]
      exact List.take_left' (by simp only; omega)
    refine (readRest_arrived ?_).2 (hwin.symm ▸ ha)
    rw [hL, List.length_append]
    simp only
    omega

end Avx2Scanner
end SwiftFIX
