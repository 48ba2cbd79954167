/-
  Every verdict of the scanners, as a judgment on the bytes.

  * `HeadJudged`: the ways in which the common headers end a call;
  * `ScalarScanner.BodyJudged`, `Avx2Scanner.BodyJudged`: the ways in which a
    call ends after them;
  * `Scanner.scan_judged`: below 4 GiB a call ends with exactly the status and
    the fields that are judged.
-/
import SwiftFIX.Viability
import SwiftFIX.Safety
import SwiftFIX.Acceptance

namespace SwiftFIX

open Decimal Delimited EarlyExit

/-! ## The headers -/

/-- Field 8 is complete, and `s` follows it. -/
structure Begins (b : Buffer) (f8 : Field) (s : List Byte) : Prop where
  bytes : b = f8.bytes ++ s
  tag8 : f8.tag = [ch '8']
  value8 : SOH ∉ f8.value

/-- **How the headers end a call**, with the fields in the index by then.  The
    headers are looked at one after the other; the constructors follow them. -/
inductive HeadJudged (b : Buffer) : ScanStatus → List Field → Prop
  | short (few : b.length < 12) : HeadJudged b .truncated []
  | tag8 (long : 12 ≤ b.length) (tag : ¬ [ch '8', ch '='] <+: b) : HeadJudged b .badHeader []
  | open8 {v : List Byte} (long : 12 ≤ b.length) (bytes : b = [ch '8', ch '='] ++ v)
      (value : SOH ∉ v) : HeadJudged b .truncated []
  | short9 {f8 : Field} {s : List Byte} (long : 12 ≤ b.length) (begins : Begins b f8 s)
      (few : s.length < 2) : HeadJudged b .truncated [f8]
  | tag9 {f8 : Field} {s : List Byte} (long : 12 ≤ b.length) (begins : Begins b f8 s)
      (two : 2 ≤ s.length) (tag : ¬ [ch '9', ch '='] <+: s) : HeadJudged b .badHeader [f8]
  | digits9 {f8 : Field} {u : List Byte} (long : 12 ≤ b.length)
      (begins : Begins b f8 ([ch '9', ch '='] ++ u)) (value : ¬ Numeral (upTo SOH u)) :
      HeadJudged b .malformed [f8]
  | open9 {f8 : Field} {ds : List Byte} (long : 12 ≤ b.length)
      (begins : Begins b f8 ([ch '9', ch '='] ++ ds)) (value : Numeral ds) :
      HeadJudged b .truncated [f8]
  | empty9 {f8 : Field} {u : List Byte} (long : 12 ≤ b.length)
      (begins : Begins b f8 ([ch '9', ch '='] ++ SOH :: u)) : HeadJudged b .malformed [f8]
  | bounds {f8 f9 : Field} {y : List Byte} (long : 12 ≤ b.length) (declared : Declared b f8 f9 y)
      (few : y.length < f9.declares + 7) : HeadJudged b .truncated [f8, f9]
  | tag35 {f8 f9 : Field} {y : List Byte} (long : 12 ≤ b.length) (declared : Declared b f8 f9 y)
      (body : f9.declares + 7 ≤ y.length) (tag : ¬ [ch '3', ch '5', ch '='] <+: y) :
      HeadJudged b .badHeader [f8, f9]
  | open35 {f8 f9 : Field} {v : List Byte} (long : 12 ≤ b.length)
      (declared : Declared b f8 f9 ([ch '3', ch '5', ch '='] ++ v))
      (body : f9.declares + 7 ≤ ([ch '3', ch '5', ch '='] ++ v).length) (value : SOH ∉ v) :
      HeadJudged b .truncated [f8, f9]

theorem strip_none {pat s : List Byte} : strip pat s = none ↔ ¬ pat <+: s := by
  rw [List.prefix_iff_eq_take, strip]
  constructor
  · intro h heq
    rw [if_pos heq.symm] at h
    cases h
  · intro h
    exact if_neg fun heq => h heq.symm

/-- A literal and a value up to its SOH: the literal is missing, or the value is
    open. -/
theorem literal_error {α : Type} {pat s : List Byte} {A B r : Reading}
    {g : List Byte → List Byte → α} :
    (match strip pat s with
      | none => (.error A : Read α)
      | some s =>
        match cut SOH s with
        | none => .error B
        | some (v, t) => .ok (g v t)) = .error r ↔
      ¬ pat <+: s ∧ r = A ∨ ∃ v, s = pat ++ v ∧ SOH ∉ v ∧ r = B := by
  rcases hs : strip pat s with _ | u
  · have hno := strip_none.1 hs
    simp only [Except.error.injEq]
    constructor
    · exact fun h => Or.inl ⟨hno, h.symm⟩
    · rintro (⟨-, rfl⟩ | ⟨v, rfl, -⟩)
      · rfl
      · exact absurd (List.prefix_append pat v) hno
  · obtain rfl := strip_some.1 hs
    simp only [List.prefix_append, not_true, false_and, false_or, List.append_cancel_left_eq]
    rcases hc : cut SOH u with _ | ⟨v, t⟩
    · have hopen := cut_none.1 hc
      simp only [Except.error.injEq]
      constructor
      · exact fun h => ⟨u, rfl, hopen, h.symm⟩
      · rintro ⟨v, rfl, -, rfl⟩
        rfl
    · simp only [reduceCtorEq, false_iff]
      rintro ⟨v, rfl, hv, -⟩
      rw [cut_none.2 hv] at hc
      cases hc

theorem readTag8_error {b : List Byte} {r : Reading} :
    readTag8 b = .error r ↔
      ¬ [ch '8', ch '='] <+: b ∧ r = ⟨.badHeader, []⟩ ∨
        ∃ v, b = [ch '8', ch '='] ++ v ∧ SOH ∉ v ∧ r = ⟨.truncated, []⟩ := literal_error

theorem tag9_length (u : List Byte) : ¬ ([ch '9', ch '='] ++ u).length < 2 := by
  have hpat : [ch '9', ch '='].length = 2 := rfl
  rw [List.length_append]
  omega

/-- Field 9 behind its tag: the value is no numeral, is open, or is empty. -/
theorem readTag9_value_error {f8 : Field} {u : List Byte} {r : Reading} :
    readTag9 f8 ([ch '9', ch '='] ++ u) = .error r ↔
      ¬ Numeral (upTo SOH u) ∧ r = ⟨.malformed, [f8]⟩ ∨
        Numeral u ∧ r = ⟨.truncated, [f8]⟩ ∨ (∃ t, u = SOH :: t) ∧ r = ⟨.malformed, [f8]⟩ := by
  have hs : strip [ch '9', ch '='] ([ch '9', ch '='] ++ u) = some u := strip_some.2 rfl
  rw [readTag9, if_neg (tag9_length u), hs]
  simp only
  by_cases hn : Numeral (upTo SOH u)
  · rcases hc : cut SOH u with _ | ⟨v, t⟩
    · have hopen := cut_none.1 hc
      rw [upTo_open hopen] at hn
      have hno : ¬ ∃ t, u = SOH :: t := by
        rintro ⟨t, rfl⟩
        exact hopen List.mem_cons_self
      simp only [upTo_open hopen, hn, hno, not_true, if_false, true_and, false_and, false_or,
        or_false, Except.error.injEq]
      exact eq_comm
    · obtain ⟨rfl, hv⟩ := cut_some.1 hc
      have hnot : ¬ Numeral (v ++ SOH :: t) := fun h => h.soh_notMem (by simp)
      have hempty : (∃ t', v ++ SOH :: t = SOH :: t') ↔ v = [] := by
        constructor
        · rintro ⟨t', h⟩
          exact (cut_unique hv List.not_mem_nil h).1
        · rintro rfl
          exact ⟨t, rfl⟩
      simp only [hn, hnot, hempty, not_true, if_false, false_and, false_or]
      by_cases hvn : v = []
      · rw [if_pos hvn, Except.error.injEq]
        exact ⟨fun h => ⟨hvn, h.symm⟩, fun h => h.2.symm⟩
      · rw [if_neg hvn]
        exact ⟨fun h => (by cases h), fun h => absurd h.1 hvn⟩
  · have hnu : ¬ Numeral u := fun h => hn (by rwa [upTo_open h.soh_notMem])
    have hempty : ¬ ∃ t, u = SOH :: t := by
      rintro ⟨t, rfl⟩
      rw [upTo_cons_self] at hn
      exact hn (by decide)
    simp only [hn, hnu, hempty, not_false_eq_true, if_true, true_and, false_and, or_false,
      Except.error.injEq]
    exact eq_comm

theorem readTag9_error {f8 : Field} {s : List Byte} {r : Reading} :
    readTag9 f8 s = .error r ↔
      s.length < 2 ∧ r = ⟨.truncated, [f8]⟩ ∨
      2 ≤ s.length ∧ ¬ [ch '9', ch '='] <+: s ∧ r = ⟨.badHeader, [f8]⟩ ∨
      ∃ u, s = [ch '9', ch '='] ++ u ∧
        (¬ Numeral (upTo SOH u) ∧ r = ⟨.malformed, [f8]⟩ ∨
          Numeral u ∧ r = ⟨.truncated, [f8]⟩ ∨ (∃ t, u = SOH :: t) ∧ r = ⟨.malformed, [f8]⟩) := by
  by_cases hpre : [ch '9', ch '='] <+: s
  · obtain ⟨u, rfl⟩ := hpre
    simp only [readTag9_value_error, tag9_length, List.prefix_append, not_true, false_and, and_false,
      false_or, List.append_cancel_left_eq, exists_eq_left']
  · have hno : ∀ u, s ≠ [ch '9', ch '='] ++ u := fun u hu => hpre ⟨u, hu.symm⟩
    simp only [readTag9, strip_none.2 hpre, hpre, hno, not_false_eq_true, true_and, false_and,
      exists_false, or_false]
    split
    · rename_i h2
      simp only [h2, not_le.2 h2, true_and, false_and, or_false, Except.error.injEq]
      exact eq_comm
    · rename_i h2
      simp only [h2, not_lt.1 h2, true_and, false_and, false_or, Except.error.injEq]
      exact eq_comm

theorem readTag35_error {f8 f9 : Field} {s : List Byte} {r : Reading} :
    readTag35 f8 f9 s = .error r ↔
      ¬ [ch '3', ch '5', ch '='] <+: s ∧ r = ⟨.badHeader, [f8, f9]⟩ ∨
        ∃ v, s = [ch '3', ch '5', ch '='] ++ v ∧ SOH ∉ v ∧ r = ⟨.truncated, [f8, f9]⟩ :=
  literal_error

theorem readBounds_error {f8 f9 : Field} {s : List Byte} {r : Reading} :
    readBounds f8 f9 s = .error r ↔
      s.length < f9.declares + 7 ∧ r = ⟨.truncated, [f8, f9]⟩ := by
  unfold readBounds
  split
  · rename_i h
    rw [Except.error.injEq]
    exact ⟨fun hr => ⟨h, hr.symm⟩, fun hr => hr.2.symm⟩
  · rename_i h
    exact ⟨fun hr => (by cases hr), fun hr => absurd hr.1 h⟩

theorem Begins.readTag8_eq {b : Buffer} {f8 : Field} {s : List Byte} (h : Begins b f8 s) :
    readTag8 b = .ok (f8, s) := readTag8_ok.2 ⟨h.bytes, h.tag8, h.value8⟩

/-- Complete fields 8 and 9 in a row. -/
theorem Begins.declared {b : Buffer} {f8 f9 : Field} {s y : List Byte} (h : Begins b f8 s)
    (h9 : readTag9 f8 s = .ok (f9, y)) : Declared b f8 f9 y := by
  obtain ⟨rfl, htag, hnum, hne⟩ := readTag9_ok.1 h9
  refine ⟨?_, h.tag8, h.value8, htag, hnum, hne⟩
  rw [h.bytes]
  simp [wire_cons, wire_nil]

/-! ### The headers before the one that ends a call pass -/

theorem Begins.readHead_eq {b : Buffer} {f8 : Field} {s : List Byte} (h : Begins b f8 s)
    (long : 12 ≤ b.length) : readHead b =
      readTag9 f8 s >>= fun x => readBounds f8 x.1 x.2 >>= fun _ =>
        readTag35 f8 x.1 x.2 >>= fun y => .ok ⟨f8, x.1, y.1, y.2⟩ := by
  rw [readHead, if_neg (not_lt.2 long), h.readTag8_eq]
  rfl

theorem Declared.readHead_bounds {b : Buffer} {f8 f9 : Field} {y : List Byte} (h : Declared b f8 f9 y)
    (long : 12 ≤ b.length) : readHead b =
      readBounds f8 f9 y >>= fun _ => readTag35 f8 f9 y >>= fun z => .ok ⟨f8, f9, z.1, z.2⟩ := by
  have hbegins : Begins b f8 (f9.bytes ++ y) := by
    obtain ⟨hb, htag, hv⟩ := readTag8_ok.1 h.readTag8_eq
    exact ⟨hb, htag, hv⟩
  rw [hbegins.readHead_eq long, h.readTag9_eq]
  rfl

theorem Begins.ends {b : Buffer} {f8 : Field} {s : List Byte} {r : Reading} (h : Begins b f8 s)
    (long : 12 ≤ b.length) (h9 : readTag9 f8 s = .error r) : readHead b = .error r := by
  rw [h.readHead_eq long]
  exact bind_eq_error.2 (Or.inl h9)

theorem Declared.ends {b : Buffer} {f8 f9 : Field} {y : List Byte} {r : Reading}
    (h : Declared b f8 f9 y) (long : 12 ≤ b.length) (body : f9.declares + 7 ≤ y.length)
    (h35 : readTag35 f8 f9 y = .error r) : readHead b = .error r := by
  rw [h.readHead_bounds long, readBounds_ok.2 body, ok_bind]
  exact bind_eq_error.2 (Or.inl h35)

theorem HeadJudged.readHead_eq {b : Buffer} {st : ScanStatus} {fs : List Field}
    (h : HeadJudged b st fs) : readHead b = .error ⟨st, fs⟩ := by
  cases h with
  | short few => exact if_pos few
  | tag8 long tag =>
    rw [readHead, if_neg (not_lt.2 long)]
    exact bind_eq_error.2 (Or.inl (readTag8_error.2 (Or.inl ⟨tag, rfl⟩)))
  | open8 long bytes value =>
    rw [readHead, if_neg (not_lt.2 long)]
    exact bind_eq_error.2 (Or.inl (readTag8_error.2 (Or.inr ⟨_, bytes, value, rfl⟩)))
  | short9 long begins few => exact begins.ends long (readTag9_error.2 (Or.inl ⟨few, rfl⟩))
  | tag9 long begins two tag =>
    exact begins.ends long (readTag9_error.2 (Or.inr (Or.inl ⟨two, tag, rfl⟩)))
  | digits9 long begins value =>
    exact begins.ends long (readTag9_error.2 (Or.inr (Or.inr ⟨_, rfl, Or.inl ⟨value, rfl⟩⟩)))
  | open9 long begins value =>
    exact begins.ends long (readTag9_error.2
      (Or.inr (Or.inr ⟨_, rfl, Or.inr (Or.inl ⟨value, rfl⟩)⟩)))
  | empty9 long begins =>
    exact begins.ends long (readTag9_error.2
      (Or.inr (Or.inr ⟨_, rfl, Or.inr (Or.inr ⟨⟨_, rfl⟩, rfl⟩)⟩)))
  | bounds long declared few =>
    rw [declared.readHead_bounds long]
    exact bind_eq_error.2 (Or.inl (readBounds_error.2 ⟨few, rfl⟩))
  | tag35 long declared body tag =>
    exact declared.ends long body (readTag35_error.2 (Or.inl ⟨tag, rfl⟩))
  | open35 long declared body value =>
    exact declared.ends long body (readTag35_error.2 (Or.inr ⟨_, rfl, value, rfl⟩))

theorem judged_readHead {b : Buffer} {r : Reading} (h : readHead b = .error r) :
    HeadJudged b r.status r.fields := by
  unfold readHead at h
  split at h
  · rename_i h12
    cases h
    exact .short h12
  rename_i h12
  have hlong : 12 ≤ b.length := not_lt.1 h12
  rcases bind_eq_error.1 h with h8 | ⟨⟨f8, s⟩, h8, h⟩
  · rcases readTag8_error.1 h8 with ⟨htag, rfl⟩ | ⟨v, hb, hv, rfl⟩
    · exact .tag8 hlong htag
    · exact .open8 hlong hb hv
  have hbegins : Begins b f8 s := by
    obtain ⟨hb, htag, hv⟩ := readTag8_ok.1 h8
    exact ⟨hb, htag, hv⟩
  rcases bind_eq_error.1 h with h9 | ⟨⟨f9, y⟩, h9, h⟩
  · rcases readTag9_error.1 h9 with ⟨h2, rfl⟩ | ⟨h2, htag, rfl⟩ | ⟨u, rfl, hu⟩
    · exact .short9 hlong hbegins h2
    · exact .tag9 hlong hbegins h2 htag
    rcases hu with ⟨hn, rfl⟩ | ⟨hn, rfl⟩ | ⟨⟨t, rfl⟩, rfl⟩
    · exact .digits9 hlong hbegins hn
    · exact .open9 hlong hbegins hn
    · exact .empty9 hlong hbegins
  have hdeclared := hbegins.declared h9
  rcases bind_eq_error.1 h with hbnd | ⟨⟨⟩, hbnd, h⟩
  · obtain ⟨hlt, rfl⟩ := readBounds_error.1 hbnd
    exact .bounds hlong hdeclared hlt
  have hbody : f9.declares + 7 ≤ y.length := readBounds_ok.1 hbnd
  rcases bind_eq_error.1 h with h35 | ⟨⟨f35, t⟩, h35, h⟩
  · rcases readTag35_error.1 h35 with ⟨htag, rfl⟩ | ⟨v, rfl, hv, rfl⟩
    · exact .tag35 hlong hdeclared hbody htag
    · exact .open35 hlong hdeclared hbody hv
  · cases h

/-- **The headers end a call as judged**, and only so. -/
theorem readHead_error {b : Buffer} {r : Reading} :
    readHead b = .error r ↔ HeadJudged b r.status r.fields :=
  ⟨judged_readHead, fun h => h.readHead_eq⟩

/-! ## The scalar scanner -/

/-- The bytes neither begin with a complete field nor are the beginning of one. -/
structure NoField (t : List Byte) : Prop where
  complete : ∀ (f : Field) (u : List Byte), t = f.bytes ++ u → Tag f.tag → SOH ∉ f.value → False
  begun : SOH ∉ t → ¬ OpenField t

theorem readField_noField {t : List Byte} : readField t = .malformed ↔ NoField t := by
  constructor
  · intro h
    refine ⟨fun f u ht htag hv => ?_, fun hs ho => ?_⟩
    · rw [readField_field.2 ⟨ht, htag, hv⟩] at h
      cases h
    · rw [readField_truncated.2 ⟨hs, ho⟩] at h
      cases h
  · intro h
    rcases hr : readField t with ⟨f, u⟩ | _ | _
    · obtain ⟨ht, htag, hv⟩ := readField_field.1 hr
      exact (h.complete f u ht htag hv).elim
    · obtain ⟨hs, ho⟩ := readField_truncated.1 hr
      exact absurd ho (h.begun hs)
    · rfl

namespace ScalarScanner

/-- The body loop has taken the fields `gs`, within the declared body and the
    table, and `t` is what follows them. -/
structure Reached (h : Head) (gs : List Field) (t : List Byte) : Prop where
  bytes : h.rest = wire gs ++ t
  fields : ∀ g ∈ gs, BodyField g
  inside : h.f35.size + (wire gs).length ≤ h.bodyLen
  room : gs.length + 3 ≤ kMaxFields

/-- The declared body goes on after the fields `gs`. -/
def More (h : Head) (gs : List Field) : Prop := h.f35.size + (wire gs).length < h.bodyLen

/-- **How a call of the scalar scanner ends** after the headers `h`, with the
    fields in the index by then. -/
inductive BodyJudged (h : Head) : ScanStatus → List Field → Prop
  | typeLong (long : h.bodyLen < h.f35.size) : BodyJudged h .badBodyLength h.fields
  | full {gs : List Field} {t : List Byte} (reached : Reached h gs t) (more : More h gs)
      (many : gs.length + 3 = kMaxFields) : BodyJudged h .tableFull (h.fields ++ gs)
  | unended {gs : List Field} {t : List Byte} (reached : Reached h gs t)
      (room : More h gs → gs.length + 3 < kMaxFields) (unended : SOH ∉ t) (begun : OpenField t) :
      BodyJudged h .truncated (h.fields ++ gs)
  | noField {gs : List Field} {t : List Byte} (reached : Reached h gs t)
      (room : More h gs → gs.length + 3 < kMaxFields) (next : NoField t) :
      BodyJudged h .malformed (h.fields ++ gs)
  | embedded {gs : List Field} {f : Field} {t : List Byte} (reached : Reached h gs (f.bytes ++ t))
      (more : More h gs) (room : gs.length + 3 < kMaxFields) (field : EmbeddedField f) :
      BodyJudged h .fallbackRequested (h.fields ++ gs)
  | overrun {gs : List Field} {f : Field} {t : List Byte} (reached : Reached h gs (f.bytes ++ t))
      (more : More h gs) (room : gs.length + 3 < kMaxFields) (field : BodyField f)
      (long : h.bodyLen < h.f35.size + (wire gs).length + f.size) :
      BodyJudged h .badBodyLength (h.fields ++ gs ++ [f])
  | otherTag {gs : List Field} {f : Field} {t : List Byte} (reached : Reached h gs (f.bytes ++ t))
      (ends : ¬ More h gs) (tag : Tag f.tag) (value : SOH ∉ f.value) (number : f.number ≠ 10) :
      BodyJudged h .badBodyLength (h.fields ++ gs)
  | noDigits {gs : List Field} {f : Field} {t : List Byte} (reached : Reached h gs (f.bytes ++ t))
      (ends : ¬ More h gs) (tag : Tag f.tag) (value : SOH ∉ f.value) (number : f.number = 10)
      (digits : ¬ (f.value.length = 3 ∧ ∀ c ∈ f.value, IsDigit c)) :
      BodyJudged h .malformed (h.fields ++ gs)
  | fullEnd {gs : List Field} {f : Field} {t : List Byte} (reached : Reached h gs (f.bytes ++ t))
      (ends : ¬ More h gs) (field : ChecksumField f) (many : gs.length + 3 = kMaxFields) :
      BodyJudged h .tableFull (h.fields ++ gs)
  | accepted {gs : List Field} {f : Field} {t : List Byte} (reached : Reached h gs (f.bytes ++ t))
      (ends : ¬ More h gs) (field : ChecksumField f) (room : gs.length + 3 < kMaxFields) :
      BodyJudged h .ok (h.fields ++ gs ++ [f])

/-- How the ending of a message stops behind the fields `fs`, with the bytes `s`
    from the declared end on, and what it gives then. -/
inductive EndingStop (b : Buffer) (fs : List Field) (s : List Byte) : Read (List Field) → Prop
  | truncated (next : readField s = .truncated) : EndingStop b fs s (.error ⟨.truncated, fs⟩)
  | malformed (next : readField s = .malformed) : EndingStop b fs s (.error ⟨.malformed, fs⟩)
  | otherTag {f : Field} {t : List Byte} (next : readField s = .field f t)
      (number : f.number ≠ 10) : EndingStop b fs s (.error ⟨.badBodyLength, fs⟩)
  | noDigits {f : Field} {t : List Byte} (next : readField s = .field f t) (number : f.number = 10)
      (digits : ¬ (u32 f.value.length = 3 ∧
        DigitsAt b (u32 ((wire fs).length + f.tag.length + 1)))) :
      EndingStop b fs s (.error ⟨.malformed, fs⟩)
  | full {f : Field} {t : List Byte} (next : readField s = .field f t) (number : f.number = 10)
      (length : u32 f.value.length = 3)
      (digits : DigitsAt b (u32 ((wire fs).length + f.tag.length + 1)))
      (many : kMaxFields ≤ fs.length) : EndingStop b fs s (.error ⟨.tableFull, fs⟩)
  | done {f : Field} {t : List Byte} (next : readField s = .field f t) (number : f.number = 10)
      (length : u32 f.value.length = 3)
      (digits : DigitsAt b (u32 ((wire fs).length + f.tag.length + 1)))
      (room : fs.length < kMaxFields) : EndingStop b fs s (.ok (fs ++ [f]))

theorem EndingStop.readEnding_eq {b : Buffer} {fs : List Field} {s : List Byte}
    {c : Read (List Field)} (h : EndingStop b fs s c) : readEnding b fs (some s) = c := by
  unfold readEnding
  cases h with
  | truncated next => simp only [next]
  | malformed next => simp only [next]
  | otherTag next number => simp only [next, number, ne_eq, not_false_eq_true, if_true]
  | noDigits next number digits =>
    simp only [next, number, ne_eq, not_true, if_false]
    split
    · rfl
    · rename_i h3
      rw [if_pos fun hd => digits ⟨not_not.1 h3, hd⟩]
  | full next number length digits many =>
    simp only [next, number, length, digits, ne_eq, not_true, if_false, ge_iff_le, many, if_true]
  | done next number length digits room =>
    simp only [next, number, length, digits, ne_eq, not_true, if_false, ge_iff_le, not_le.2 room]

theorem readEnding_stops (b : Buffer) (fs : List Field) (s : List Byte) :
    EndingStop b fs s (readEnding b fs (some s)) := by
  have hstop : ∀ {c}, EndingStop b fs s c → EndingStop b fs s (readEnding b fs (some s)) := by
    intro c hc
    rw [hc.readEnding_eq]
    exact hc
  rcases hf : readField s with ⟨f, t⟩ | _ | _
  · by_cases h10 : f.number = 10
    · by_cases hd : u32 f.value.length = 3 ∧ DigitsAt b (u32 ((wire fs).length + f.tag.length + 1))
      · by_cases hroom : fs.length < kMaxFields
        · exact hstop (.done hf h10 hd.1 hd.2 hroom)
        · exact hstop (.full hf h10 hd.1 hd.2 (not_lt.1 hroom))
      · exact hstop (.noDigits hf h10 hd)
    · exact hstop (.otherTag hf h10)
  · exact hstop (.truncated hf)
  · exact hstop (.malformed hf)

section
variable {b : Buffer} {h : Head} {gs : List Field} {t : List Byte}

/-- What the body loop does when it has taken the fields `gs`. -/
theorem Reached.readRest_eq (hr : Reached h gs t) :
    readRest h = readBody (h.fields ++ gs) (h.bodyLen - (h.f35.size + (wire gs).length)) t := by
  have hin := hr.inside
  have hroom := hr.room
  have h3 : h.fields.length = 3 := rfl
  rw [readRest, if_neg (by omega), hr.bytes, readBody_skip hr.fields _ (by omega) (by omega),
    Nat.sub_sub]

theorem Reached.stops {c : Read (List Field × Option (List Byte))} (hr : Reached h gs t)
    (hs : BodyStop (h.fields ++ gs) (h.bodyLen - (h.f35.size + (wire gs).length)) t c) :
    readRest h = c := by
  rw [hr.readRest_eq]
  exact hs.readBody_eq

/-- **What the body loop reaches**, and how it stops there. -/
theorem exists_reached (h : Head) (hle : h.f35.size ≤ h.bodyLen) :
    ∃ gs t, Reached h gs t ∧ BodyStop (h.fields ++ gs)
      (h.bodyLen - (h.f35.size + (wire gs).length)) t (readRest h) := by
  have h3 : h.fields.length = 3 := rfl
  obtain ⟨gs, t, hb, hgs, hlen, hroom, hstop⟩ :=
    readBody_stops (h.bodyLen - h.f35.size) h.fields h.rest
  have hroom := hroom h.fields_length_le
  refine ⟨gs, t, ⟨hb, hgs, by omega, by omega⟩, ?_⟩
  rw [readRest, if_neg (by omega), ← Nat.sub_sub]
  exact hstop

/-- Below 4 GiB nothing of the value's test is narrowed. -/
theorem Reached.digits_iff {f : Field} {t : List Byte} (hr : Reached h gs (f.bytes ++ t))
    (hh : readHead b = .ok h) (hb : b.length < 2 ^ 32) :
    u32 f.value.length = 3 ∧
        DigitsAt b (u32 ((wire (h.fields ++ gs)).length + f.tag.length + 1)) ↔
      f.value.length = 3 ∧ ∀ c ∈ f.value, IsDigit c := by
  have hbytes : b = wire (h.fields ++ gs) ++ (f.bytes ++ t) := by
    rw [(readHead_ok.1 hh).2.1, hr.bytes, wire_append, List.append_assoc]
  have hlen := congrArg List.length hbytes
  have hsize : f.size = f.tag.length + f.value.length + 2 := rfl
  rw [List.length_append, List.length_append, f.bytes_length] at hlen
  rw [u32_of_lt (show f.value.length < 2 ^ 32 by omega)]
  exact and_congr_right fun h3 => digitsAt_value hbytes (by omega) h3

theorem Reached.judged_stop {r : Reading} (hr : Reached h gs t)
    (hs : BodyStop (h.fields ++ gs) (h.bodyLen - (h.f35.size + (wire gs).length)) t (.error r)) :
    BodyJudged h r.status r.fields := by
  have hlen := h.fields_append_length gs
  have hroom := hr.room
  cases hs with
  | full inside many => exact .full hr (by rw [More]; omega) (by omega)
  | truncated inside room next =>
    obtain ⟨hopen, hbegun⟩ := readField_truncated.1 next
    exact .unended hr (fun _ => by omega) hopen hbegun
  | malformed inside room next =>
    exact .noField hr (fun _ => by omega) (readField_noField.1 next)
  | @embedded f u inside room next number =>
    obtain ⟨rfl, htag, hv⟩ := readField_field.1 next
    exact .embedded hr (by rw [More]; omega) (by omega) ⟨htag, number, hv⟩

theorem Reached.judged_ending (hr : Reached h gs t) (hends : ¬ More h gs)
    (hh : readHead b = .ok h) (hb : b.length < 2 ^ 32) {c : Read (List Field)}
    (hs : EndingStop b (h.fields ++ gs) t c) :
    BodyJudged h (Reading.ofRead c).status (Reading.ofRead c).fields := by
  have hlen := h.fields_append_length gs
  have hroom := hr.room
  cases hs with
  | truncated next =>
    obtain ⟨hopen, hbegun⟩ := readField_truncated.1 next
    exact .unended hr (fun hmore => absurd hmore hends) hopen hbegun
  | malformed next =>
    exact .noField hr (fun hmore => absurd hmore hends) (readField_noField.1 next)
  | otherTag next number =>
    obtain ⟨rfl, htag, hv⟩ := readField_field.1 next
    exact .otherTag hr hends htag hv number
  | noDigits next number digits =>
    obtain ⟨rfl, htag, hv⟩ := readField_field.1 next
    exact .noDigits hr hends htag hv number fun hd => digits ((hr.digits_iff hh hb).2 hd)
  | full next number length digits many =>
    obtain ⟨rfl, htag, hv⟩ := readField_field.1 next
    obtain ⟨h3, hd⟩ := (hr.digits_iff hh hb).1 ⟨length, digits⟩
    exact .fullEnd hr hends ⟨htag, number, h3, hd⟩ (by omega)
  | done next number length digits room =>
    obtain ⟨rfl, htag, hv⟩ := readField_field.1 next
    obtain ⟨h3, hd⟩ := (hr.digits_iff hh hb).1 ⟨length, digits⟩
    exact .accepted hr hends ⟨htag, number, h3, hd⟩ (by omega)

/-- Every call that gets past the headers is judged. -/
theorem judged_body (hh : readHead b = .ok h) (hb : b.length < 2 ^ 32) {c : Read (List Field)}
    (hc : (readRest h >>= fun x => readEnding b x.1 x.2) = c) :
    BodyJudged h (Reading.ofRead c).status (Reading.ofRead c).fields := by
  subst hc
  by_cases hlong : h.bodyLen < h.f35.size
  · have hrest : readRest h = .ok (h.fields, none) := if_pos hlong
    rw [hrest]
    exact .typeLong hlong
  obtain ⟨gs, t, hr, hstop⟩ := exists_reached h (not_lt.1 hlong)
  have hlen := h.fields_append_length gs
  have hin := hr.inside
  have hroom := hr.room
  rcases hrest : readRest h with r | ⟨fs, x⟩
  · rw [hrest] at hstop
    exact hr.judged_stop hstop
  rw [hrest] at hstop
  cases hstop with
  | @overrun f u inside room next number long =>
    obtain ⟨rfl, htag, hv⟩ := readField_field.1 next
    rw [not_or] at number
    exact .overrun hr (by rw [More]; omega) (by omega) ⟨htag, number.1, number.2, hv⟩ (by omega)
  | done ends =>
    exact hr.judged_ending (by rw [More]; omega) hh hb (readEnding_stops b (h.fields ++ gs) t)

theorem Reached.loop_ends {r : Reading} (hr : Reached h gs t)
    (hs : BodyStop (h.fields ++ gs) (h.bodyLen - (h.f35.size + (wire gs).length)) t (.error r)) :
    (readRest h >>= fun x => readEnding b x.1 x.2) = .error r := by
  rw [hr.stops hs]
  rfl

/-- Behind the fields of a whole body stands the ending. -/
theorem Reached.ending_ends {c : Read (List Field)} (hr : Reached h gs t) (hends : ¬ More h gs)
    (hc : EndingStop b (h.fields ++ gs) t c) :
    (readRest h >>= fun x => readEnding b x.1 x.2) = c := by
  have hin := hr.inside
  rw [More] at hends
  rw [hr.stops (.done (by omega)), ok_bind]
  exact hc.readEnding_eq

theorem BodyJudged.readRest_eq {st : ScanStatus} {fs : List Field} (hj : BodyJudged h st fs)
    (hh : readHead b = .ok h) (hb : b.length < 2 ^ 32) :
    Reading.ofRead (readRest h >>= fun x => readEnding b x.1 x.2) = ⟨st, fs⟩ := by
  have hlen := h.fields_append_length
  have hfield : ∀ {f : Field} {u : List Byte}, Tag f.tag → SOH ∉ f.value →
      readField (f.bytes ++ u) = .field f u := fun htag hv => readField_field.2 ⟨rfl, htag, hv⟩
  cases hj with
  | typeLong long =>
    have hrest : readRest h = .ok (h.fields, none) := if_pos long
    rw [hrest]
    rfl
  | @full gs t reached more many =>
    have hl := hlen gs
    rw [More] at more
    rw [reached.loop_ends (.full (by omega) (by omega))]
    rfl
  | @unended gs t reached room unended begun =>
    have hl := hlen gs
    have hnext := readField_truncated.2 ⟨unended, begun⟩
    by_cases hmore : More h gs
    · have hm := room hmore
      rw [More] at hmore
      rw [reached.loop_ends (.truncated (by omega) (by omega) hnext)]
      rfl
    · rw [reached.ending_ends hmore (.truncated hnext)]
      rfl
  | @noField gs t reached room next =>
    have hl := hlen gs
    have hnext := readField_noField.2 next
    by_cases hmore : More h gs
    · have hm := room hmore
      rw [More] at hmore
      rw [reached.loop_ends (.malformed (by omega) (by omega) hnext)]
      rfl
    · rw [reached.ending_ends hmore (.malformed hnext)]
      rfl
  | @embedded gs f t reached more room field =>
    have hl := hlen gs
    rw [More] at more
    rw [reached.loop_ends (.embedded (by omega) (by omega) (hfield field.tag field.value)
      field.number)]
    rfl
  | @overrun gs f t reached more room field long =>
    have hl := hlen gs
    rw [More] at more
    rw [reached.stops (.overrun (by omega) (by omega) (hfield field.tag field.value)
      (not_or.2 ⟨field.notLength, field.notData⟩) (by omega))]
    rfl
  | otherTag reached ends tag value number =>
    rw [reached.ending_ends ends (.otherTag (hfield tag value) number)]
    rfl
  | noDigits reached ends tag value number digits =>
    rw [reached.ending_ends ends (.noDigits (hfield tag value) number fun hd =>
      digits ((reached.digits_iff hh hb).1 hd))]
    rfl
  | @fullEnd gs f t reached ends field many =>
    have hl := hlen gs
    obtain ⟨h3, hd⟩ := (reached.digits_iff hh hb).2 ⟨field.length, field.digits⟩
    rw [reached.ending_ends ends
      (.full (hfield field.tag field.value) field.number h3 hd (by omega))]
    rfl
  | @accepted gs f t reached ends field room =>
    have hl := hlen gs
    obtain ⟨h3, hd⟩ := (reached.digits_iff hh hb).2 ⟨field.length, field.digits⟩
    rw [reached.ending_ends ends
      (.done (hfield field.tag field.value) field.number h3 hd (by omega))]
    rfl

/-- **The scalar scanner ends a call as judged**, and only so. -/
theorem body_judged (hh : readHead b = .ok h) (hb : b.length < 2 ^ 32) {r : Reading} :
    Reading.ofRead (readRest h >>= fun x => readEnding b x.1 x.2) = r ↔
      BodyJudged h r.status r.fields := by
  constructor
  · rintro rfl
    exact judged_body hh hb rfl
  · exact fun hj => hj.readRest_eq hh hb

end

end ScalarScanner

/-! ## The AVX2 scanner -/

namespace Avx2Scanner

/-- Pass 2 has taken the fields `gs`, within the arrays; the piece `q` comes
    next in the window, and `x` is what is left of it then. -/
structure Reached (h : Head) (gs : List Field) (q x : List Byte) : Prop where
  bytes : window h = wire gs ++ (q ++ SOH :: x)
  fields : ∀ g ∈ gs, BodyField g
  piece : SOH ∉ q
  few : (window h).count SOH ≤ kMaxFields
  room : gs.length + 3 ≤ kMaxFields

/-- The declared body ends behind the fields `gs`. -/
def EndsAt (h : Head) (gs : List Field) : Prop := (wire (h.fields ++ gs)).length = h.bodyEnd

/-- **How a call of the AVX2 scanner ends** after the headers `h`, with the
    fields in the index by then.  The last piece of the window is left to the
    trailer, whatever it is. -/
inductive BodyJudged (h : Head) : ScanStatus → List Field → Prop
  | crowded (many : kMaxFields < (window h).count SOH) : BodyJudged h .tableFull h.fields
  | empty (none : SOH ∉ window h) : BodyJudged h .badBodyLength h.fields
  | full {gs : List Field} {q x : List Byte} (reached : Reached h gs q x) (more : SOH ∈ x)
      (many : gs.length + 3 = kMaxFields) : BodyJudged h .tableFull (h.fields ++ gs)
  | noField {gs : List Field} {q x : List Byte} (reached : Reached h gs q x) (more : SOH ∈ x)
      (room : gs.length + 3 < kMaxFields) (next : ∀ f : Field, q = f.piece → ¬ Tag f.tag) :
      BodyJudged h .malformed (h.fields ++ gs)
  | embedded {gs : List Field} {f : Field} {x : List Byte} (reached : Reached h gs f.piece x)
      (more : SOH ∈ x) (room : gs.length + 3 < kMaxFields) (field : EmbeddedField f) :
      BodyJudged h .fallbackRequested (h.fields ++ gs)
  | trailer {gs : List Field} {q x : List Byte} (reached : Reached h gs q x) (last : SOH ∉ x)
      (bad : ¬ (EndsAt h gs ∧ q.length = 6 ∧ [ch '1', ch '0', ch '='] <+: q)) :
      BodyJudged h .badBodyLength (h.fields ++ gs)
  | noDigits {gs : List Field} {d x : List Byte}
      (reached : Reached h gs ([ch '1', ch '0', ch '='] ++ d) x) (last : SOH ∉ x)
      (ends : EndsAt h gs) (three : d.length = 3) (digits : ¬ ∀ c ∈ d, IsDigit c) :
      BodyJudged h .malformed (h.fields ++ gs)
  | fullEnd {gs : List Field} {f : Field} {x : List Byte} (reached : Reached h gs f.piece x)
      (last : SOH ∉ x) (ends : EndsAt h gs) (field : ChecksumField f)
      (tag : f.tag = ascii ['1', '0']) (many : gs.length + 3 = kMaxFields) :
      BodyJudged h .tableFull (h.fields ++ gs)
  | accepted {gs : List Field} {f : Field} {x : List Byte} (reached : Reached h gs f.piece x)
      (last : SOH ∉ x) (ends : EndsAt h gs) (field : ChecksumField f)
      (tag : f.tag = ascii ['1', '0']) (room : gs.length + 3 < kMaxFields) :
      BodyJudged h .ok (h.fields ++ gs ++ [f])

/-- How the trailer stops behind the fields `fs`, on the last piece `s` of the
    window, and what it gives then. -/
inductive TrailerStop (bodyEnd : ℕ) (fs : List Field) (s : List Byte) : Read (List Field) → Prop
  | bad (bad : ¬ ((wire fs).length = bodyEnd ∧ s.length = 6 ∧ [ch '1', ch '0', ch '='] <+: s)) :
      TrailerStop bodyEnd fs s (.error ⟨.badBodyLength, fs⟩)
  | noDigits {d : List Byte} (ends : (wire fs).length = bodyEnd)
      (next : s = [ch '1', ch '0', ch '='] ++ d) (three : d.length = 3)
      (digits : ¬ ∀ c ∈ d, IsDigit c) : TrailerStop bodyEnd fs s (.error ⟨.malformed, fs⟩)
  | full {f : Field} (ends : (wire fs).length = bodyEnd) (next : s = f.piece)
      (field : ChecksumField f) (tag : f.tag = ascii ['1', '0']) (many : kMaxFields ≤ fs.length) :
      TrailerStop bodyEnd fs s (.error ⟨.tableFull, fs⟩)
  | done {f : Field} (ends : (wire fs).length = bodyEnd) (next : s = f.piece)
      (field : ChecksumField f) (tag : f.tag = ascii ['1', '0']) (room : fs.length < kMaxFields) :
      TrailerStop bodyEnd fs s (.ok (fs ++ [f]))

section
variable {bodyEnd : ℕ} {fs : List Field} {s : List Byte}

/-- Behind a canonical trailer only the digits and the table are looked at. -/
theorem readTrailer_digits {d : List Byte} (ends : (wire fs).length = bodyEnd)
    (h3 : d.length = 3) :
    readTrailer bodyEnd fs ([ch '1', ch '0', ch '='] ++ d) =
      if ¬ ∀ c ∈ d, IsDigit c then .error ⟨.malformed, fs⟩
      else if fs.length ≥ kMaxFields then .error ⟨.tableFull, fs⟩
      else .ok (fs ++ [⟨[ch '1', ch '0'], d⟩]) := by
  have h6 : ([ch '1', ch '0', ch '='] ++ d).length = 6 := by
    rw [List.length_append, h3]
    rfl
  have hs : strip [ch '1', ch '0', ch '='] ([ch '1', ch '0', ch '='] ++ d) = some d :=
    strip_some.2 rfl
  rw [readTrailer, if_neg (not_not.2 ends), if_neg (not_not.2 h6), hs]

theorem TrailerStop.readTrailer_eq {c : Read (List Field)} (h : TrailerStop bodyEnd fs s c) :
    readTrailer bodyEnd fs s = c := by
  cases h with
  | bad bad =>
    unfold readTrailer
    split
    · rfl
    rename_i hend
    split
    · rfl
    rename_i h6
    rw [strip_none.2 fun hpre => bad ⟨not_not.1 hend, not_not.1 h6, hpre⟩]
  | noDigits ends next three digits => rw [next, readTrailer_digits ends three, if_pos digits]
  | @full f ends next field tag many =>
    have hpiece : f.piece = [ch '1', ch '0', ch '='] ++ f.value := by
      rw [Field.piece, tag]
      rfl
    rw [next, hpiece, readTrailer_digits ends field.length, if_neg (not_not.2 field.digits),
      if_pos many]
  | done ends next field tag room =>
    exact readTrailer_ok.2 ⟨_, rfl, next, tag, field, ends, room⟩

theorem readTrailer_stops (bodyEnd : ℕ) (fs : List Field) (s : List Byte) :
    TrailerStop bodyEnd fs s (readTrailer bodyEnd fs s) := by
  have hstop : ∀ {c}, TrailerStop bodyEnd fs s c →
      TrailerStop bodyEnd fs s (readTrailer bodyEnd fs s) := by
    intro c hc
    rw [hc.readTrailer_eq]
    exact hc
  by_cases hgood : (wire fs).length = bodyEnd ∧ s.length = 6 ∧ [ch '1', ch '0', ch '='] <+: s
  · obtain ⟨hend, h6, d, rfl⟩ := hgood
    have h3 : d.length = 3 := by
      rw [List.length_append] at h6
      exact Nat.add_left_cancel h6
    by_cases hd : ∀ c ∈ d, IsDigit c
    · by_cases hroom : fs.length < kMaxFields
      · exact hstop (.done hend rfl (.of_digits h3 hd) rfl hroom)
      · exact hstop (.full hend rfl (.of_digits h3 hd) rfl (not_lt.1 hroom))
    · exact hstop (.noDigits hend rfl h3 hd)
  · exact hstop (.bad hgood)

end

section
variable {h : Head} {gs : List Field} {q x : List Byte}

theorem Reached.pieces_eq (hr : Reached h gs q x) :
    pieces SOH (window h) = gs.map Field.piece ++ q :: pieces SOH x := by
  rw [hr.bytes, pieces_wire hr.fields, pieces_append hr.piece]

/-- What pass 2 does at the piece `q`, when others come after it. -/
theorem Reached.readRest_more (hr : Reached h gs q x) (more : SOH ∈ x) :
    ∃ qs last, readRest h =
      readPieces (h.fields ++ gs) (q :: qs) >>= fun fs => readTrailer h.bodyEnd fs last := by
  have hroom := hr.room
  have h3 : h.fields.length = 3 := rfl
  rcases List.eq_nil_or_concat (pieces SOH x) with hnil | ⟨qs, last, hx⟩
  · exact absurd hnil (pieces_ne_nil more)
  rw [List.concat_eq_append] at hx
  have hps : pieces SOH (window h) = (gs.map Field.piece ++ q :: qs) ++ [last] := by
    rw [hr.pieces_eq, hx]
    simp
  have hlen : (pieces SOH (window h)).length ≤ kMaxFields := by
    rw [length_pieces]
    exact hr.few
  refine ⟨qs, last, ?_⟩
  rw [readRest_eq hps (hps ▸ hlen),
    readPieces_skip (fun g hg => (hr.fields g hg).taken) _ (by omega)]

/-- The last piece of the window is read as the trailer. -/
theorem Reached.readRest_last (hr : Reached h gs q x) (last : SOH ∉ x) :
    readRest h = readTrailer h.bodyEnd (h.fields ++ gs) q := by
  have hroom := hr.room
  have h3 : h.fields.length = 3 := rfl
  have hps : pieces SOH (window h) = gs.map Field.piece ++ [q] := by
    rw [hr.pieces_eq, pieces_open last]
  have hlen : (pieces SOH (window h)).length ≤ kMaxFields := by
    rw [length_pieces]
    exact hr.few
  have hskip : readPieces h.fields (gs.map Field.piece ++ []) = readPieces (h.fields ++ gs) [] :=
    readPieces_skip (fun g hg => (hr.fields g hg).taken) [] (by omega)
  rw [List.append_nil] at hskip
  rw [readRest_eq hps (hps ▸ hlen), hskip]
  rfl

/-- **What pass 2 reaches**: the last piece of the window, or one where it
    stops. -/
theorem exists_reached (h : Head) (hfew : (window h).count SOH ≤ kMaxFields)
    (hsome : SOH ∈ window h) :
    ∃ gs q x, Reached h gs q x ∧
      (SOH ∈ x → gs.length + 3 < kMaxFields →
        ∀ f, readPiece q = some f → f.number = 95 ∨ f.number = 96) := by
  rcases List.eq_nil_or_concat (pieces SOH (window h)) with hnil | ⟨init, last, hps⟩
  · exact absurd hnil (pieces_ne_nil hsome)
  rw [List.concat_eq_append] at hps
  obtain ⟨t, hw, ht, hopen⟩ := pieces_eq.1 hps
  obtain ⟨gs, qs, rfl, hgs, hroom, hstop⟩ := readPieces_stops init h.fields
  have hroom := hroom h.fields_length_le
  have hlen := h.fields_append_length gs
  have h3 : h.fields.length = 3 := rfl
  have hbody : ∀ g ∈ gs, BodyField g := fun g hg => (hgs g hg).body (hopen g.piece
    (List.mem_append_left _ (List.mem_append_left _ (List.mem_map_of_mem hg))))
  generalize readPieces h.fields (gs.map Field.piece ++ qs) = c at hstop
  cases qs with
  | nil =>
    refine ⟨gs, last, t, ⟨?_, hbody, hopen last (by simp), hfew, by omega⟩, fun hmem => absurd hmem ht⟩
    rw [hw, wire_eq]
    simp
  | cons q qs =>
    refine ⟨gs, q, (qs ++ [last]).flatMap (· ++ [SOH]) ++ t,
      ⟨?_, hbody, hopen q (by simp), hfew, by omega⟩, ?_⟩
    · rw [hw, wire_eq]
      simp
    · intro _ hlt f hf
      cases hstop with
      | full many => omega
      | malformed room next =>
        rw [next] at hf
        cases hf
      | embedded room next number =>
        rw [next, Option.some.injEq] at hf
        exact hf ▸ number

theorem readRest_crowded (many : kMaxFields < (window h).count SOH) :
    readRest h = .error ⟨.tableFull, h.fields⟩ := by
  unfold readRest
  simp only
  rw [if_pos (by rw [length_pieces]; exact many)]

theorem readRest_empty (none : SOH ∉ window h) : readRest h = .error ⟨.badBodyLength, h.fields⟩ := by
  unfold readRest
  rw [pieces_open none]
  rfl

theorem Reached.loop_ends {r : Reading} (hr : Reached h gs q x) (more : SOH ∈ x)
    (hs : ∀ qs, PiecesStop (h.fields ++ gs) (q :: qs) (.error r)) : readRest h = .error r := by
  obtain ⟨qs, last, hrest⟩ := hr.readRest_more more
  rw [hrest, (hs qs).readPieces_eq]
  rfl

theorem Reached.trailer_ends {c : Read (List Field)} (hr : Reached h gs q x) (last : SOH ∉ x)
    (hs : TrailerStop h.bodyEnd (h.fields ++ gs) q c) : readRest h = c := by
  rw [hr.readRest_last last]
  exact hs.readTrailer_eq

theorem Reached.judged_trailer {c : Read (List Field)} (hr : Reached h gs q x) (last : SOH ∉ x)
    (hs : TrailerStop h.bodyEnd (h.fields ++ gs) q c) :
    BodyJudged h (Reading.ofRead c).status (Reading.ofRead c).fields := by
  have hlen := h.fields_append_length gs
  have hroom := hr.room
  cases hs with
  | bad bad => exact .trailer hr last bad
  | noDigits ends next three digits =>
    subst next
    exact .noDigits hr last ends three digits
  | full ends next field tag many =>
    subst next
    exact .fullEnd hr last ends field tag (by omega)
  | done ends next field tag room =>
    subst next
    exact .accepted hr last ends field tag (by omega)

theorem Reached.judged_more (hr : Reached h gs q x) (more : SOH ∈ x)
    (hq : gs.length + 3 < kMaxFields → ∀ f, readPiece q = some f → f.number = 95 ∨ f.number = 96) :
    BodyJudged h (Reading.ofRead (readRest h)).status (Reading.ofRead (readRest h)).fields := by
  have hlen := h.fields_append_length gs
  have hroom := hr.room
  by_cases hfull : gs.length + 3 = kMaxFields
  · rw [hr.loop_ends more fun qs => .full (by omega)]
    exact .full hr more hfull
  rcases hp : readPiece q with _ | f
  · rw [hr.loop_ends more fun qs => .malformed (by omega) hp]
    refine .noField hr more (by omega) fun f hf htag => ?_
    rw [readPiece_some.2 ⟨hf, htag⟩] at hp
    cases hp
  · have hnum := hq (by omega) f hp
    rw [hr.loop_ends more fun qs => .embedded (by omega) hp hnum]
    obtain ⟨rfl, htag⟩ := readPiece_some.1 hp
    exact .embedded hr more (by omega) ⟨htag, hnum, fun hm => hr.piece (by simp [hm])⟩

end

/-- Every call that gets past the headers is judged. -/
theorem judged_body (h : Head) :
    BodyJudged h (Reading.ofRead (readRest h)).status (Reading.ofRead (readRest h)).fields := by
  by_cases hmany : kMaxFields < (window h).count SOH
  · rw [readRest_crowded hmany]
    exact .crowded hmany
  by_cases hsome : SOH ∈ window h
  · obtain ⟨gs, q, x, hr, hq⟩ := exists_reached h (not_lt.1 hmany) hsome
    by_cases hx : SOH ∈ x
    · exact hr.judged_more hx (hq hx)
    · rw [hr.readRest_last hx]
      exact hr.judged_trailer hx (readTrailer_stops h.bodyEnd (h.fields ++ gs) q)
  · rw [readRest_empty hsome]
    exact .empty hsome

theorem BodyJudged.readRest_eq {h : Head} {st : ScanStatus} {fs : List Field}
    (hj : BodyJudged h st fs) : Reading.ofRead (readRest h) = ⟨st, fs⟩ := by
  have hlen := h.fields_append_length
  cases hj with
  | crowded many =>
    rw [readRest_crowded many]
    rfl
  | empty none =>
    rw [readRest_empty none]
    rfl
  | @full gs q x reached more many =>
    have hl := hlen gs
    rw [reached.loop_ends more fun qs => .full (by omega)]
    rfl
  | @noField gs q x reached more room next =>
    have hl := hlen gs
    have hp : readPiece q = none := by
      rcases hp : readPiece q with _ | f
      · rfl
      · obtain ⟨hq, htag⟩ := readPiece_some.1 hp
        exact absurd htag (next f hq)
    rw [reached.loop_ends more fun qs => .malformed (by omega) hp]
    rfl
  | @embedded gs f x reached more room field =>
    have hl := hlen gs
    rw [reached.loop_ends more fun qs =>
      .embedded (by omega) (readPiece_some.2 ⟨rfl, field.tag⟩) field.number]
    rfl
  | trailer reached last bad =>
    rw [reached.trailer_ends last (.bad bad)]
    rfl
  | noDigits reached last ends three digits =>
    rw [reached.trailer_ends last (.noDigits ends rfl three digits)]
    rfl
  | @fullEnd gs f x reached last ends field tag many =>
    have hl := hlen gs
    rw [reached.trailer_ends last (.full ends rfl field tag (by omega))]
    rfl
  | @accepted gs f x reached last ends field tag room =>
    have hl := hlen gs
    rw [reached.trailer_ends last (.done ends rfl field tag (by omega))]
    rfl

/-- **The AVX2 scanner ends a call as judged**, and only so. -/
theorem body_judged {h : Head} {r : Reading} :
    Reading.ofRead (readRest h) = r ↔ BodyJudged h r.status r.fields := by
  constructor
  · rintro rfl
    exact judged_body h
  · exact fun hj => hj.readRest_eq

end Avx2Scanner

/-! ## Both scanners -/

namespace Scanner

/-- How a call ends after the headers. -/
def BodyJudged : Scanner → Head → ScanStatus → List Field → Prop
  | scalar => ScalarScanner.BodyJudged
  | avx2 => Avx2Scanner.BodyJudged

/-- The buffer is judged with the status `st`, and with the fields `fs` in the
    index: by the headers, or after them. -/
def Judged (s : Scanner) (b : Buffer) (st : ScanStatus) (fs : List Field) : Prop :=
  HeadJudged b st fs ∨
    ∃ h : Head, (h.WellFormed ∧ b = wire h.fields ++ h.rest ∧ h.bodyEnd + 7 ≤ b.length) ∧
      s.BodyJudged h st fs

theorem read_judged (s : Scanner) {b : Buffer} (hb : b.length < 2 ^ 32) {r : Reading} :
    s.read b = r ↔ s.Judged b r.status r.fields := by
  have hbody : ∀ h, readHead b = .ok h → (s.read b = r ↔ s.BodyJudged h r.status r.fields) := by
    intro h hh
    cases s with
    | scalar =>
      refine Iff.trans ?_ (ScalarScanner.body_judged hh hb)
      rw [read, ScalarScanner.read, hh, ok_bind]
    | avx2 =>
      refine Iff.trans ?_ Avx2Scanner.body_judged
      rw [read, Avx2Scanner.read, hh, ok_bind]
  rcases hh : readHead b with e | h
  · have hread : s.read b = e := by
      cases s with
      | scalar =>
        rw [read, ScalarScanner.read, hh]
        rfl
      | avx2 =>
        rw [read, Avx2Scanner.read, hh]
        rfl
    rw [hread]
    constructor
    · rintro rfl
      exact Or.inl (readHead_error.1 hh)
    · rintro (hj | ⟨h, hok, -⟩)
      · have hr := readHead_error.2 hj
        rw [hh, Except.error.injEq] at hr
        exact hr
      · rw [← readHead_ok, hh] at hok
        cases hok
  · rw [hbody h hh]
    constructor
    · exact fun hj => Or.inr ⟨h, readHead_ok.1 hh, hj⟩
    · rintro (hj | ⟨h', hok, hj⟩)
      · have hr := readHead_error.2 hj
        rw [hh] at hr
        cases hr
      · rw [← readHead_ok, hh, Except.ok.injEq] at hok
        exact hok ▸ hj

/-- **Every verdict is judged.**  On every buffer below 4 GiB, whatever the index
    held before, a call ends with exactly the status that the buffer is judged
    with, and the index holds exactly the judged fields. -/
theorem scan_judged (s : Scanner) (b : Buffer) (hb : b.length < 2 ^ 32) (out : FieldIndex)
    (st : ScanStatus) (v : IndexView) :
    (s.scan b out).result = some (st, v) ↔ ∃ fs, s.Judged b st fs ∧ v = Reading.view ⟨st, fs⟩ := by
  rw [s.scan_result hb, Option.some.injEq, Prod.mk.injEq]
  constructor
  · rintro ⟨rfl, rfl⟩
    exact ⟨(s.read b).fields, (s.read_judged hb).1 rfl, rfl⟩
  · rintro ⟨fs, hj, rfl⟩
    rw [(s.read_judged (r := ⟨st, fs⟩) hb).2 hj]
    exact ⟨rfl, rfl⟩

theorem scan_judged_padded :
    (avx2.scan paddedChecksum .fresh).result = some (.badBodyLength, Reading.view
        ⟨.badBodyLength, [⟨[ch '8'], [ch 'F']⟩, ⟨[ch '9'], [ch '4']⟩, ⟨[ch '3', ch '5'], []⟩]⟩) ↔
      ∃ fs, avx2.Judged paddedChecksum .badBodyLength fs ∧
        Reading.view ⟨.badBodyLength,
            [⟨[ch '8'], [ch 'F']⟩, ⟨[ch '9'], [ch '4']⟩, ⟨[ch '3', ch '5'], []⟩]⟩ =
          Reading.view ⟨.badBodyLength, fs⟩ :=
  scan_judged avx2 paddedChecksum (by decide) .fresh _ _

end Scanner
end SwiftFIX
