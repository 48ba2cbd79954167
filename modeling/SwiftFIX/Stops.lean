/-
  How the field loops of the readings stop.

  Both loops take complete body fields one after the other (`readBody_skip`,
  `readPieces_skip`) and then stop in one of few ways, which `BodyStop` and
  `PiecesStop` list with the result of each (`readBody_stops`,
  `readPieces_stops`).  What the loops accept, where they wait and when they
  give up are cases of these.
-/
import SwiftFIX.Grammar

namespace SwiftFIX

open Decimal Delimited

/-- What the loops ask of a field of the body they take: a tag other than 95
    and 96. -/
structure TakenField (f : Field) : Prop where
  tag : Tag f.tag
  notLength : f.number ≠ 95
  notData : f.number ≠ 96

theorem BodyField.taken {f : Field} (h : BodyField f) : TakenField f :=
  ⟨h.tag, h.notLength, h.notData⟩

theorem TakenField.body {f : Field} (h : TakenField f) (hp : SOH ∉ f.piece) : BodyField f :=
  ⟨h.tag, h.notLength, h.notData, fun hm => hp (by simp [Field.piece, hm])⟩

/-! ## The scalar scanner -/

namespace ScalarScanner

/-- How the body loop stops at the fields `fs`, with `left` bytes up to the
    body's end and the bytes `s`, and what it gives then. -/
inductive BodyStop (fs : List Field) (left : ℕ) (s : List Byte) :
    Read (List Field × Option (List Byte)) → Prop
  | done (ends : left = 0) : BodyStop fs left s (.ok (fs, some s))
  | full (inside : left ≠ 0) (many : kMaxFields ≤ fs.length) :
      BodyStop fs left s (.error ⟨.tableFull, fs⟩)
  | truncated (inside : left ≠ 0) (room : fs.length < kMaxFields)
      (next : readField s = .truncated) : BodyStop fs left s (.error ⟨.truncated, fs⟩)
  | malformed (inside : left ≠ 0) (room : fs.length < kMaxFields)
      (next : readField s = .malformed) : BodyStop fs left s (.error ⟨.malformed, fs⟩)
  | embedded {f : Field} {t : List Byte} (inside : left ≠ 0) (room : fs.length < kMaxFields)
      (next : readField s = .field f t) (number : f.number = 95 ∨ f.number = 96) :
      BodyStop fs left s (.error ⟨.fallbackRequested, fs⟩)
  | overrun {f : Field} {t : List Byte} (inside : left ≠ 0) (room : fs.length < kMaxFields)
      (next : readField s = .field f t) (number : ¬ (f.number = 95 ∨ f.number = 96))
      (long : left < f.size) : BodyStop fs left s (.ok (fs ++ [f], none))

theorem BodyStop.readBody_eq {fs : List Field} {left : ℕ} {s : List Byte}
    {c : Read (List Field × Option (List Byte))} (h : BodyStop fs left s c) :
    readBody fs left s = c := by
  rw [readBody]
  cases h with
  | done ends => rw [if_pos ends]
  | full inside many => rw [if_neg inside, if_pos many]
  | truncated inside room next => rw [if_neg inside, if_neg (by omega), next]
  | malformed inside room next => rw [if_neg inside, if_neg (by omega), next]
  | embedded inside room next number =>
    rw [if_neg inside, if_neg (by omega), next]
    exact if_pos number
  | overrun inside room next number long =>
    rw [if_neg inside, if_neg (by omega), next]
    simp only
    rw [if_neg number, if_pos long]

theorem readBody_field {fs : List Field} {left : ℕ} {f : Field} (hf : BodyField f) (s : List Byte)
    (hroom : fs.length < kMaxFields) (hle : f.size ≤ left) :
    readBody fs left (f.bytes ++ s) = readBody (fs ++ [f]) (left - f.size) s := by
  have hpos := f.size_pos
  have hr : readField (f.bytes ++ s) = .field f s := readField_field.2 ⟨rfl, hf.tag, hf.value⟩
  rw [readBody, if_neg (by omega), if_neg (by omega), hr]
  simp only [hf.notLength, hf.notData, or_self, if_false]
  rw [if_neg (by omega)]

/-- **Complete fields are taken** one after the other, while the table has room. -/
theorem readBody_skip {gs : List Field} (hgs : ∀ g ∈ gs, BodyField g) (s : List Byte) :
    ∀ {fs : List Field} {left : ℕ}, fs.length + gs.length ≤ kMaxFields → (wire gs).length ≤ left →
      readBody fs left (wire gs ++ s) = readBody (fs ++ gs) (left - (wire gs).length) s := by
  induction gs with
  | nil =>
    intro fs left _ _
    rw [List.append_nil]
    rfl
  | cons f gs ih =>
    intro fs left hroom hle
    rw [List.forall_mem_cons] at hgs
    rw [List.length_cons] at hroom
    have hlen := wire_cons_length f gs
    have hsnoc : (fs ++ [f]).length = fs.length + 1 := List.length_append
    rw [wire_cons, List.append_assoc, readBody_field hgs.1 _ (by omega) (by omega),
      ih hgs.2 (by omega) (by omega), ← wire_cons, hlen, Nat.sub_sub, List.append_assoc]
    rfl

/-- **How the body loop stops**: after some complete fields, in one of the ways
    listed. -/
theorem readBody_stops (left : ℕ) : ∀ (fs : List Field) (s : List Byte),
    ∃ gs t, s = wire gs ++ t ∧ (∀ g ∈ gs, BodyField g) ∧ (wire gs).length ≤ left ∧
      (fs.length ≤ kMaxFields → fs.length + gs.length ≤ kMaxFields) ∧
      BodyStop (fs ++ gs) (left - (wire gs).length) t (readBody fs left s) := by
  induction left using Nat.strongRecOn with
  | _ left ih =>
    intro fs s
    have hstop : ∀ {c}, BodyStop fs left s c → ∃ gs t, s = wire gs ++ t ∧ (∀ g ∈ gs, BodyField g) ∧
        (wire gs).length ≤ left ∧ (fs.length ≤ kMaxFields → fs.length + gs.length ≤ kMaxFields) ∧
        BodyStop (fs ++ gs) (left - (wire gs).length) t (readBody fs left s) := by
      intro c hc
      refine ⟨[], s, rfl, by simp, Nat.zero_le _, id, ?_⟩
      rw [List.append_nil, hc.readBody_eq]
      exact hc
    by_cases h0 : left = 0
    · exact hstop (.done h0)
    by_cases hfull : kMaxFields ≤ fs.length
    · exact hstop (.full h0 hfull)
    rw [not_le] at hfull
    rcases hr : readField s with ⟨f, t⟩ | _ | _
    · by_cases hn : f.number = 95 ∨ f.number = 96
      · exact hstop (.embedded h0 hfull hr hn)
      by_cases hlong : left < f.size
      · exact hstop (.overrun h0 hfull hr hn hlong)
      -- the field is taken, and the loop goes on with a shorter body
      rw [not_lt] at hlong
      obtain ⟨rfl, htag, hval⟩ := readField_field.1 hr
      have hf : BodyField f := ⟨htag, fun h => hn (Or.inl h), fun h => hn (Or.inr h), hval⟩
      have hpos := f.size_pos
      obtain ⟨gs, u, rfl, hgs, hle, hroom, hend⟩ := ih (left - f.size) (by omega) (fs ++ [f]) t
      have hlen := wire_cons_length f gs
      refine ⟨f :: gs, u, by rw [wire_cons, List.append_assoc], List.forall_mem_cons.2 ⟨hf, hgs⟩,
        by omega, fun _ => ?_, ?_⟩
      · rw [List.length_append, List.length_singleton] at hroom
        rw [List.length_cons]
        omega
      · rw [readBody_field hf _ hfull hlong, hlen, ← Nat.sub_sub]
        rw [List.append_assoc] at hend
        exact hend
    · exact hstop (.truncated h0 hfull hr)
    · exact hstop (.malformed h0 hfull hr)

end ScalarScanner

/-! ## The AVX2 scanner -/

namespace Avx2Scanner

/-- How pass 2 stops at the fields `fs` with the pieces `ps` left, and what it
    gives then. -/
inductive PiecesStop (fs : List Field) : List (List Byte) → Read (List Field) → Prop
  | done : PiecesStop fs [] (.ok fs)
  | full {p : List Byte} {ps : List (List Byte)} (many : kMaxFields ≤ fs.length) :
      PiecesStop fs (p :: ps) (.error ⟨.tableFull, fs⟩)
  | malformed {p : List Byte} {ps : List (List Byte)} (room : fs.length < kMaxFields)
      (next : readPiece p = none) : PiecesStop fs (p :: ps) (.error ⟨.malformed, fs⟩)
  | embedded {p : List Byte} {ps : List (List Byte)} {f : Field} (room : fs.length < kMaxFields)
      (next : readPiece p = some f) (number : f.number = 95 ∨ f.number = 96) :
      PiecesStop fs (p :: ps) (.error ⟨.fallbackRequested, fs⟩)

theorem PiecesStop.readPieces_eq {fs : List Field} {ps : List (List Byte)} {c : Read (List Field)}
    (h : PiecesStop fs ps c) : readPieces fs ps = c := by
  cases h with
  | done => rfl
  | full many => rw [readPieces, if_pos many]
  | malformed room next => rw [readPieces, if_neg (by omega), next]
  | embedded room next number =>
    rw [readPieces, if_neg (by omega), next]
    exact if_pos number

theorem readPieces_field {fs : List Field} {f : Field} (hf : TakenField f) (ps : List (List Byte))
    (hroom : fs.length < kMaxFields) :
    readPieces fs (f.piece :: ps) = readPieces (fs ++ [f]) ps := by
  have hp : readPiece f.piece = some f := readPiece_some.2 ⟨rfl, hf.tag⟩
  rw [readPieces, if_neg (by omega), hp]
  simp only [hf.notLength, hf.notData, or_self, if_false]

/-- **Fields are taken** one after the other, while the table has room. -/
theorem readPieces_skip {gs : List Field} (hgs : ∀ g ∈ gs, TakenField g) (ps : List (List Byte)) :
    ∀ {fs : List Field}, fs.length + gs.length ≤ kMaxFields →
      readPieces fs (gs.map Field.piece ++ ps) = readPieces (fs ++ gs) ps := by
  induction gs with
  | nil =>
    intro fs _
    rw [List.append_nil]
    rfl
  | cons f gs ih =>
    intro fs hroom
    rw [List.forall_mem_cons] at hgs
    rw [List.length_cons] at hroom
    have hsnoc : (fs ++ [f]).length = fs.length + 1 := List.length_append
    rw [List.map_cons, List.cons_append, readPieces_field hgs.1 _ (by omega),
      ih hgs.2 (by omega), List.append_assoc]
    rfl

/-- **How pass 2 stops**: after some fields, in one of the ways listed. -/
theorem readPieces_stops (ps : List (List Byte)) : ∀ fs : List Field,
    ∃ gs qs, ps = gs.map Field.piece ++ qs ∧ (∀ g ∈ gs, TakenField g) ∧
      (fs.length ≤ kMaxFields → fs.length + gs.length ≤ kMaxFields) ∧
      PiecesStop (fs ++ gs) qs (readPieces fs ps) := by
  induction ps with
  | nil => exact fun fs => ⟨[], [], rfl, by simp, id, by
      rw [List.append_nil]
      exact .done⟩
  | cons p ps ih =>
    intro fs
    have hstop : ∀ {c}, PiecesStop fs (p :: ps) c → ∃ gs qs, p :: ps = gs.map Field.piece ++ qs ∧
        (∀ g ∈ gs, TakenField g) ∧ (fs.length ≤ kMaxFields → fs.length + gs.length ≤ kMaxFields) ∧
        PiecesStop (fs ++ gs) qs (readPieces fs (p :: ps)) := by
      intro c hc
      refine ⟨[], p :: ps, rfl, by simp, id, ?_⟩
      rw [List.append_nil, hc.readPieces_eq]
      exact hc
    by_cases hfull : kMaxFields ≤ fs.length
    · exact hstop (.full hfull)
    rw [not_le] at hfull
    rcases hp : readPiece p with _ | f
    · exact hstop (.malformed hfull hp)
    by_cases hn : f.number = 95 ∨ f.number = 96
    · exact hstop (.embedded hfull hp hn)
    obtain ⟨rfl, htag⟩ := readPiece_some.1 hp
    have hf : TakenField f := ⟨htag, fun h => hn (Or.inl h), fun h => hn (Or.inr h)⟩
    obtain ⟨gs, qs, rfl, hgs, hroom, hend⟩ := ih (fs ++ [f])
    refine ⟨f :: gs, qs, rfl, List.forall_mem_cons.2 ⟨hf, hgs⟩, fun _ => ?_, ?_⟩
    · rw [List.length_append, List.length_singleton] at hroom
      rw [List.length_cons]
      omega
    · have hpiece : readPieces fs (f.piece :: (gs.map Field.piece ++ qs)) = _ :=
        readPieces_field hf _ hfull
      rw [List.append_assoc, ← hpiece] at hend
      exact hend

end Avx2Scanner
end SwiftFIX
