/-
  The capacity of the field table: a message is accepted as long as its fields
  fit, and answered with `TableFull` when they do not (`Scanner.scan_message`).

  The two scanners count differently, the scalar one only fields, the AVX2 one
  also delimiters in its SOH array; the bound is the same.
-/
import SwiftFIX.Finality

namespace SwiftFIX

open Decimal Delimited EarlyExit

/-- The call leaves with `TableFull`. -/
abbrev Full {α : Type} (c : Read α) : Prop := ∃ fs, c = .error ⟨.tableFull, fs⟩

theorem Full.bind {α β : Type} {c : Read α} (h : Full c) (f : α → Read β) : Full (c >>= f) := by
  obtain ⟨fs, rfl⟩ := h
  exact ⟨fs, rfl⟩

theorem exists_overflow {gs : List Field} {n : ℕ} (hmax : n ≤ kMaxFields)
    (hfull : kMaxFields < n + gs.length) :
    ∃ gs₁ g gs₂, gs = gs₁ ++ g :: gs₂ ∧ n + gs₁.length = kMaxFields := by
  refine ⟨gs.take (kMaxFields - n), gs[kMaxFields - n], gs.drop (kMaxFields - n + 1), ?_, ?_⟩
  · rw [← List.drop_eq_getElem_cons, List.take_append_drop]
  · rw [List.length_take]
    omega

/-! ## The scalar scanner -/

namespace ScalarScanner

theorem readBody_full {gs : List Field} (hgs : ∀ g ∈ gs, BodyField g) (t : List Byte)
    {fs : List Field} {left : ℕ} (hmax : fs.length ≤ kMaxFields)
    (hfull : kMaxFields < fs.length + gs.length) (hle : (wire gs).length ≤ left) :
    Full (readBody fs left (wire gs ++ t)) := by
  obtain ⟨gs₁, g, gs₂, rfl, hlen⟩ := exists_overflow hmax hfull
  have hpos := g.size_pos
  rw [wire_append, List.length_append, wire_cons_length] at hle
  rw [wire_append, List.append_assoc,
    readBody_skip (fun f hf => hgs f (List.mem_append_left _ hf)) _ hlen.le (by omega)]
  refine ⟨_, (BodyStop.full (by omega) ?_).readBody_eq⟩
  rw [List.length_append]
  exact hlen.ge

/-- Complete fields of the body are taken one after the other, as far as the
    table goes. -/
theorem readBody_append {gs : List Field} (hgs : ∀ g ∈ gs, BodyField g) (t : List Byte)
    {fs : List Field} {left : ℕ} (hmax : fs.length ≤ kMaxFields) (hle : (wire gs).length ≤ left) :
    Full (readBody fs left (wire gs ++ t)) ∨
      readBody fs left (wire gs ++ t) = readBody (fs ++ gs) (left - (wire gs).length) t := by
  by_cases hroom : fs.length + gs.length ≤ kMaxFields
  · exact Or.inr (readBody_skip hgs t hroom hle)
  · exact Or.inl (readBody_full hgs t hmax (not_le.1 hroom) hle)

theorem readEnding_full {b : Buffer} {fs : List Field} {f : Field} {t : List Byte}
    (hb : b = wire fs ++ (f.bytes ++ t)) (hlt : b.length < 2 ^ 32) (hf : ChecksumField f)
    (hfull : kMaxFields ≤ fs.length) : Full (readEnding b fs (some (f.bytes ++ t))) := by
  have hr : readField (f.bytes ++ t) = .field f t := readField_field.2 ⟨rfl, hf.tag, hf.value⟩
  have hfit : (wire fs).length + f.size ≤ 2 ^ 32 := by
    rw [hb, List.length_append, List.length_append, f.bytes_length] at hlt
    omega
  have hd := (digitsAt_value hb hfit hf.length).2 hf.digits
  rw [readEnding, hr]
  simp only [hf.number, hf.length]
  rw [if_neg (by simp), if_neg (by decide), if_neg (not_not_intro hd), if_pos hfull]
  exact ⟨fs, rfl⟩

theorem read_full {M : Message} (hlt : M.bytes.length < 2 ^ 32)
    (hfull : kMaxFields < M.body.length + 4) : (read M.bytes).status = .tableFull := by
  have hhead := M.readHead_eq []
  rw [List.append_nil] at hhead
  have hL := M.head_bodyLen []
  have hrest : readRest (M.head []) =
      readBody (M.head []).fields (wire M.body).length (wire M.body ++ (M.checksum.bytes ++ [])) := by
    unfold readRest
    rw [hL, if_neg (by simp [Message.head]), Message.head, Nat.add_sub_cancel_left]
  have hfull : Full (do let h ← readHead M.bytes; let x ← readRest h; readEnding M.bytes x.1 x.2) := by
    rw [hhead, ok_bind, hrest]
    have h3 : (M.head []).fields.length = 3 := rfl
    by_cases hbody : kMaxFields < (M.head []).fields.length + M.body.length
    · exact (readBody_full M.body_fields _ (Head.fields_length_le _) hbody le_rfl).bind _
    · -- the body just fits, and leaves no room for the checksum field
      have hok : readBody (M.head []).fields (wire M.body).length
          (wire M.body ++ (M.checksum.bytes ++ [])) =
          .ok ((M.head []).fields ++ M.body, some (M.checksum.bytes ++ [])) :=
        (readBody_ok (Head.fields_length_le _)).2
          ⟨M.body, rfl, rfl, rfl, M.body_fields, by rw [List.length_append]; omega⟩
      rw [hok, ok_bind]
      refine readEnding_full ?_ hlt M.checksum_field ?_
      · simp [M.bytes_eq, Message.head, Head.fields, wire_cons, wire_nil]
      · rw [List.length_append]; omega
  obtain ⟨fs, hfs⟩ := hfull
  have hread : read M.bytes =
      .ofRead (do let h ← readHead M.bytes; let x ← readRest h; readEnding M.bytes x.1 x.2) := rfl
  rw [hread, hfs]
  rfl

end ScalarScanner

/-! ## The AVX2 scanner -/

namespace Avx2Scanner

theorem readPieces_full {gs : List Field} (hgs : ∀ g ∈ gs, TakenField g) (ps : List (List Byte))
    {fs : List Field} (hmax : fs.length ≤ kMaxFields) (hfull : kMaxFields < fs.length + gs.length) :
    Full (readPieces fs (gs.map Field.piece ++ ps)) := by
  obtain ⟨gs₁, g, gs₂, rfl, hlen⟩ := exists_overflow hmax hfull
  rw [List.map_append, List.append_assoc,
    readPieces_skip (fun f hf => hgs f (List.mem_append_left _ hf)) _ hlen.le]
  refine ⟨_, (PiecesStop.full ?_).readPieces_eq⟩
  rw [List.length_append]
  exact hlen.ge

theorem readPieces_append {gs : List Field} (hgs : ∀ g ∈ gs, TakenField g) (ps : List (List Byte))
    {fs : List Field} (hmax : fs.length ≤ kMaxFields) :
    Full (readPieces fs (gs.map Field.piece ++ ps)) ∨
      readPieces fs (gs.map Field.piece ++ ps) = readPieces (fs ++ gs) ps := by
  by_cases hroom : fs.length + gs.length ≤ kMaxFields
  · exact Or.inr (readPieces_skip hgs ps hroom)
  · exact Or.inl (readPieces_full hgs ps hmax (not_le.1 hroom))

theorem readTrailer_full {bodyEnd : ℕ} {fs : List Field} {f : Field}
    (htag : f.tag = ascii ['1', '0']) (hf : ChecksumField f) (hend : (wire fs).length = bodyEnd)
    (hfull : kMaxFields ≤ fs.length) : Full (readTrailer bodyEnd fs f.piece) := by
  obtain ⟨tag, d⟩ := f
  simp only at htag
  subst htag
  have h3 : d.length = 3 := hf.length
  have hs : strip [ch '1', ch '0', ch '='] (Field.piece ⟨ascii ['1', '0'], d⟩) = some d :=
    strip_some.2 rfl
  have h6 : (Field.piece ⟨ascii ['1', '0'], d⟩).length = 6 := by
    simp [Field.piece, ascii, h3]
  unfold readTrailer
  rw [if_neg (not_not_intro hend), if_neg (not_not_intro h6), hs]
  simp only
  rw [if_neg (not_not_intro hf.digits), if_pos hfull]
  exact ⟨fs, rfl⟩

theorem read_full {M : Message} (hc : M.Canonical) (hfull : kMaxFields < M.body.length + 4) :
    (read M.bytes).status = .tableFull := by
  have hhead := M.readHead_eq []
  rw [List.append_nil] at hhead
  have h3 : (M.head []).fields.length = 3 := rfl
  have hps := hc.pieces_window []
  have hlen : (pieces SOH (window (M.head []))).length = M.body.length + 1 := by
    rw [hps, List.length_append, List.length_map, List.length_singleton]
  have hfull : Full (do let h ← readHead M.bytes; readRest h) := by
    rw [hhead, ok_bind]
    unfold readRest
    by_cases hmany : (pieces SOH (window (M.head []))).length > kMaxFields
    · rw [if_pos hmany]
      exact ⟨_, rfl⟩
    · rw [if_neg hmany, hps, List.getLast?_concat, List.dropLast_concat]
      simp only
      by_cases hbody : kMaxFields < (M.head []).fields.length + M.body.length
      · have hf := readPieces_full (fun g hg => (M.body_fields g hg).taken) []
          (Head.fields_length_le _) hbody
        rw [List.append_nil] at hf
        exact hf.bind _
      · -- the body just fits, and leaves no room for the checksum field
        have hok : readPieces (M.head []).fields (M.body.map Field.piece) =
            .ok ((M.head []).fields ++ M.body) :=
          (readPieces_ok (Head.fields_length_le _)).2 ⟨M.body, rfl, rfl,
            fun g hg => (M.body_fields g hg).taken, by rw [List.length_append]; omega⟩
        rw [hok, ok_bind]
        refine readTrailer_full hc M.checksum_field (M.wire_head_body []) ?_
        rw [List.length_append]; omega
  obtain ⟨fs, hfs⟩ := hfull
  unfold read
  rw [hfs]
  rfl

end Avx2Scanner

/-! ## Both scanners -/

namespace Scanner

/-- **A message is accepted exactly when its fields fit the table**, whatever
    follows it; else the answer is `TableFull`. -/
theorem scan_message (s : Scanner) {M : Message} (hc : M.Canonical) (hlt : M.bytes.length < 2 ^ 32)
    (rest : Buffer) (out : FieldIndex) :
    (M.body.length + 4 ≤ kMaxFields →
      (s.scan (M.bytes ++ rest) out).result = some (.ok, M.index)) ∧
    (kMaxFields < M.body.length + 4 →
      ∃ v, (s.scan (M.bytes ++ rest) out).result = some (.tableFull, v)) := by
  constructor
  · intro hroom
    have hacc : s.Accepts ⟨M, hroom⟩ := by
      cases s with
      | scalar => trivial
      | avx2 => exact hc
    have hr := (s.result_ok hlt .fresh (v := M.index)).2 ⟨⟨M, hroom⟩, hacc, List.prefix_rfl, rfl⟩
    exact s.scan_extend M.bytes rest .fresh out hr (by decide)
  · intro hfull
    have hst : (s.read M.bytes).status = .tableFull := by
      cases s with
      | scalar => exact ScalarScanner.read_full hlt hfull
      | avx2 => exact Avx2Scanner.read_full hc hfull
    have hr := s.scan_result hlt .fresh
    rw [hst] at hr
    exact ⟨_, s.scan_extend M.bytes rest .fresh out hr (by decide)⟩

end Scanner
end SwiftFIX
