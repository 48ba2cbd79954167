/-
  The scanner headers compute their reading (`scanHeaders_reads`).

  `Reads R c c'`: the scanner code `c'` follows the reading `c`, exit for exit
  with the same status and an index that shows the fields read.  `At` relates
  the state: the fields read so far are the bytes before `p`, and the index
  shows exactly them.
-/
import SwiftFIX.Headers
import SwiftFIX.Reading
import SwiftFIX.Lib.EarlyExit

namespace SwiftFIX

open Decimal Delimited EarlyExit

/-! ## The simulation relation -/

/-- The call ends with the verdict and the fields of the reading. -/
def Ends (r : Reading) (e : Outcome) : Prop := ∃ out, e = .ret r.status out ∧ out.view = r.view

theorem Ends.result_eq {r : Reading} {e : Outcome} (h : Ends r e) :
    e.result = some (r.status, r.view) := by
  obtain ⟨out, rfl, hv⟩ := h
  rw [Outcome.result, hv]

/-- A scan ends as its reading says, or goes on with what was read. -/
abbrev Reads {α β : Type} (R : α → β → Prop) : Read α → Scan β → Prop :=
  Sim (fun _ => False) Ends R

theorem Reads.error {α β : Type} {R : α → β → Prop} {s : ScanStatus} {fs : List Field}
    {out : FieldIndex} (h : out.view = progress fs) (hs : s ≠ .ok := by decide) :
    Reads R (.error ⟨s, fs⟩) (.error (.ret s out)) :=
  Sim.exit ⟨out, rfl, by rw [h, Reading.view_of_ne hs]⟩

theorem Reads.ends {r : Read (List Field)} {c : Scan FieldIndex}
    (h : Reads (fun fs o => o.view = Reading.view ⟨.ok, fs⟩) r c) :
    Ends (.ofRead r) (.ofScan c) := by
  rcases r with r | fs
  · rcases h with h | ⟨e, rfl, hv⟩
    · cases h
    · exact hv
  · obtain ⟨o, rfl, hv⟩ := h
    exact ⟨o, rfl, hv⟩

/-- The fields `fs` are read, `s` is left, and the index shows `fs`. -/
structure At (b : Buffer) (fs : List Field) (s : List Byte) (p : ℕ) (out : FieldIndex) : Prop where
  bytes : b = wire fs ++ s
  off : p = (wire fs).length
  view : out.view = progress fs

namespace At
variable {b : Buffer} {fs : List Field} {s : List Byte} {p : ℕ} {out : FieldIndex}

theorem length (h : At b fs s p out) : b.length = p + s.length := by
  rw [h.bytes, h.off, List.length_append]

theorem drop (h : At b fs s p out) : b.drop p = s := by
  rw [h.bytes, h.off, List.drop_left]

theorem drop_add (h : At b fs s p out) {u t : List Byte} (hs : s = u ++ t) :
    b.drop (p + u.length) = t := by
  rw [← List.drop_drop, h.drop, hs, List.drop_left]

theorem count (h : At b fs s p out) : out.fieldCount = fs.length :=
  congrArg IndexView.fieldCount h.view

theorem snoc (h : At b fs s p out) {f : Field} {t : List Byte} (hs : s = f.bytes ++ t)
    {out' : FieldIndex} (hv : out'.view = progress (fs ++ [f])) :
    At b (fs ++ [f]) t (p + f.size) out' where
  bytes := by rw [h.bytes, hs, wire_append, wire_singleton, List.append_assoc]
  off := by rw [wire_snoc_length, h.off]
  view := hv

end At

/-! ## The loops and tests of the source -/

theorem skipValue_cut {s v t : List Byte} (h : cut SOH s = some (v, t)) (p : ℕ) :
    skipValue p s = p + v.length := by
  obtain ⟨rfl, hv⟩ := cut_some.1 h
  clear h
  induction v generalizing p with
  | nil => simp [skipValue]
  | cons c v ih =>
    rw [List.mem_cons, not_or] at hv
    simp only [List.cons_append, skipValue, Ne.symm hv.1, if_false, ih _ hv.2, List.length_cons]
    omega

theorem skipValue_open {s : List Byte} (h : cut SOH s = none) (p : ℕ) :
    skipValue p s = p + s.length := by
  rw [cut_none] at h
  induction s generalizing p with
  | nil => rfl
  | cons c s ih =>
    rw [List.mem_cons, not_or] at h
    simp only [skipValue, Ne.symm h.1, if_false, ih h.2, List.length_cons]
    omega

theorem strip_cons (c x : Byte) (cs s : List Byte) :
    strip (c :: cs) (x :: s) = if x = c then strip cs s else none := by
  by_cases h : x = c <;> simp [strip, h]

theorem matchesAt_eq {b : Buffer} (pat : List Byte) :
    ∀ {p : ℕ} {s : List Byte}, b.drop p = s → pat.length ≤ s.length →
      matchesAt b p pat = .ok (strip pat s).isSome := by
  induction pat with
  | nil => intro p s _ _; simp [matchesAt, strip]
  | cons c cs ih =>
    intro p s hs hl
    cases s with
    | nil => simp at hl
    | cons x s =>
      have hx : b[p]? = some x := by
        have := congrArg (·[0]?) hs; simpa using this
      have hd : b.drop (p + 1) = s := by
        rw [← List.drop_drop, hs]; rfl
      simp only [matchesAt, byteAt_eq hx, strip_cons, ok_bind]
      by_cases h : x = c
      · simp only [h, if_true]
        exact ih hd (by simpa using hl)
      · simp only [h, if_false]; rfl

/-- Three bytes are there: the digit test reads them. -/
theorem threeDigitsAt_eq {b : Buffer} {v : ℕ} (h : v + 3 ≤ b.length) :
    threeDigitsAt b v = .ok (decide (DigitsAt b v)) := by
  obtain ⟨x, y, z, t, ht⟩ : ∃ x y z t, b.drop v = x :: y :: z :: t := by
    have hl : (b.drop v).length = b.length - v := List.length_drop
    rcases hb : b.drop v with _ | ⟨x, _ | ⟨y, _ | ⟨z, t⟩⟩⟩
    · simp [hb] at hl; omega
    · simp [hb] at hl; omega
    · simp [hb] at hl; omega
    · exact ⟨x, y, z, t, rfl⟩
  have hx : b[v + 0]? = some x := by rw [← List.getElem?_drop, ht]; rfl
  have hy : b[v + 1]? = some y := by rw [← List.getElem?_drop, ht]; rfl
  have hz : b[v + 2]? = some z := by rw [← List.getElem?_drop, ht]; rfl
  rw [Nat.add_zero] at hx
  simp only [threeDigitsAt, byteAt_eq hx, byteAt_eq hy, byteAt_eq hz, ok_bind, DigitsAt, ht]
  have hi : ∀ c, isDigit c = decide (IsDigit c) := fun c => by
    rw [Bool.eq_iff_iff, decide_eq_true_iff]; exact isDigit_iff
  by_cases h1 : IsDigit x <;> by_cases h2 : IsDigit y <;> simp [hi, h1, h2]

/-- The guard of the digit loops. -/
abbrev guardMax : ℕ := (UINT32_MAX - 9) / 10

theorem maxNumber_eq : maxNumber = guardMax * 10 + (10 - 1) := rfl

/-- On digits, the 32-bit accumulator is the guarded one: it never wraps. -/
theorem digitLoop_digits {stop : Byte} {ds : List Byte} (hd : ∀ c ∈ ds, IsDigit c)
    (hs : stop ∉ ds) : ∀ (p : ℕ) {acc : ℕ}, acc ≤ maxNumber →
      digitLoop stop p acc ds =
        (guarded 10 guardMax acc (ds.map digit)).map fun n => (p + ds.length, n) := by
  induction ds with
  | nil => exact fun p acc _ => rfl
  | cons c ds ih =>
    intro p acc h
    rw [List.mem_cons, not_or] at hs
    have hc := hd c (by simp)
    have hlt := digit_lt hc
    simp only [digitLoop, Ne.symm hs.1, isDigit_iff.2 hc, Bool.not_true, Bool.false_eq_true,
      if_false, List.map_cons, guarded]
    by_cases hg : guardMax < acc
    · rw [if_pos hg, if_pos hg]; rfl
    · have hm : acc * 10 + digit c ≤ maxNumber := by rw [maxNumber_eq]; omega
      have hu : u32 (acc * 10 + (c.toNat - 48)) = acc * 10 + digit c :=
        u32_of_lt (lt_of_le_of_lt hm (by decide))
      have hp : p + 1 + ds.length = p + (ds.length + 1) := by omega
      rw [if_neg hg, if_neg hg, hu, ih (fun e he => hd e (by simp [he])) hs.2 _ hm, hp]
      rfl

/-- A byte that is no digit before the stop byte makes the loop reject. -/
theorem digitLoop_bad {stop : Byte} {ds : List Byte} (hd : ¬ ∀ c ∈ ds, IsDigit c)
    (hs : stop ∉ ds) (t : List Byte) : ∀ p acc, digitLoop stop p acc (ds ++ t) = none := by
  induction ds with
  | nil => simp at hd
  | cons c ds ih =>
    intro p acc
    rw [List.mem_cons, not_or] at hs
    simp only [List.cons_append, digitLoop, Ne.symm hs.1, if_false]
    by_cases hc : isDigit c
    · have hd' : ¬ ∀ c ∈ ds, IsDigit c :=
        fun h => hd (List.forall_mem_cons.2 ⟨isDigit_iff.1 hc, h⟩)
      simp [hc, ih hd' hs.2]
    · simp [hc]

theorem digitLoop_append {stop : Byte} {ds : List Byte} (hs : stop ∉ ds) (t : List Byte) :
    ∀ p acc, digitLoop stop p acc (ds ++ stop :: t) = digitLoop stop p acc ds := by
  induction ds with
  | nil => intro p acc; simp [digitLoop]
  | cons c ds ih =>
    intro p acc
    rw [List.mem_cons, not_or] at hs
    simp only [List.cons_append, digitLoop, ih hs.2]

theorem digitLoop_upTo (stop : Byte) (p acc : ℕ) (s : List Byte) :
    digitLoop stop p acc s = digitLoop stop p acc (upTo stop s) := by
  rcases hc : cut stop s with _ | ⟨ds, t⟩
  · rw [upTo_open (cut_none.1 hc)]
  · obtain ⟨rfl, hs⟩ := cut_some.1 hc
    rw [upTo_append hs, digitLoop_append hs]

/-- **A digit loop reads the numeral before its stop byte**, or rejects. -/
theorem digitLoop_eq (stop : Byte) (p : ℕ) (s : List Byte) :
    digitLoop stop p 0 s =
      if Numeral (upTo stop s) then some (p + (upTo stop s).length, Decimal.value (upTo stop s))
      else none := by
  have hs := notMem_upTo stop s
  rw [digitLoop_upTo]
  by_cases hd : ∀ c ∈ upTo stop s, IsDigit c
  · have hdig : ∀ d ∈ (upTo stop s).map digit, d < 10 := by
      simpa using fun c hc => digit_lt (hd c hc)
    rw [digitLoop_digits hd hs p (Nat.zero_le _), guarded_eq hdig (Nat.zero_le _)]
    change Option.map _ (if Decimal.value (upTo stop s) ≤ maxNumber then
      some (Decimal.value (upTo stop s)) else none) = _
    by_cases hle : Decimal.value (upTo stop s) ≤ maxNumber
    · rw [if_pos hle, if_pos ⟨hd, hle⟩]; rfl
    · rw [if_neg hle, if_neg fun h => hle h.2]; rfl
  · have hb := digitLoop_bad hd hs [] p 0
    rw [List.append_nil] at hb
    rw [hb, if_neg fun h => hd h.1]

/-! ## The stages -/

/-- Pushing a header field's entry, when `v` is the index with its slot set. -/
theorem push_head (out : FieldIndex) (v : IndexView) (fs : List Field) (f : Field)
    (h : out.view = v) (hn : fs.length < kMaxFields) (hc : v.fieldCount = fs.length)
    (he : v.entries = layout 0 fs)
    (hv : { v with fieldCount := fs.length + 1, entries := layout 0 (fs ++ [f]) } =
      progress (fs ++ [f])) :
    ∃ out', out.push (f.entry (wire fs).length) = .ok out' ∧ out'.view = progress (fs ++ [f]) := by
  subst h
  obtain ⟨out', h1, h2⟩ := FieldIndex.push_eq (f.entry (wire fs).length)
    (show out.view.fieldCount < kMaxFields by omega)
  refine ⟨out', h1, ?_⟩
  rw [layout_append, ← he, ← hc, Nat.zero_add] at hv
  rw [h2, ← hv]; rfl

theorem scanTag8_reads {b : Buffer} {out : FieldIndex} (hb : 12 ≤ b.length)
    (h : out.view = progress []) :
    Reads (fun x y => At b [x.1] x.2 y.1 y.2) (readTag8 b) (scanTag8 b out) := by
  have hm := matchesAt_eq (b := b) [ch '8', ch '='] (p := 0) rfl (by simp; omega)
  have hslot : out.slot = 0 := congrArg (fun v => (v.fieldCount : ℤ)) h
  rw [List.drop_zero] at hm
  unfold readTag8 scanTag8
  rw [hm]
  rcases hs : strip [ch '8', ch '='] b with _ | s
  · exact Reads.error h
  · have hb' := strip_some.1 hs
    have hd : b.drop 2 = s := by rw [hb']; rfl
    have hl : b.length = 2 + s.length := by rw [hb']; simp; omega
    simp only [hd, ok_bind]
    rcases hcut : cut SOH s with _ | ⟨v, t⟩
    · have hq := skipValue_open hcut 2
      simp only [hq, ← hl]
      exact Reads.error h
    · have hq := skipValue_cut hcut 2
      obtain ⟨rfl, hv⟩ := cut_some.1 hcut
      simp only [List.length_append, List.length_cons] at hl
      obtain ⟨out', h1, h2⟩ := push_head { out with beginStringIdx := out.slot }
        { progress [] with beginStringIdx := 0 } [] ⟨[ch '8'], v⟩
        (by rw [← h, ← hslot]; rfl) (by decide) rfl rfl rfl
      have hne : 2 + v.length ≠ b.length := by omega
      have he : (⟨u32 0, u32 2, u32 (2 + v.length), 8⟩ : FieldEntry) =
          Field.entry (wire []).length ⟨[ch '8'], v⟩ := by
        simp [Field.entry, wire_nil, Field.number]; decide
      simp only [hq, Option.isSome_some, Bool.not_true, Bool.false_eq_true, if_false, hne, he, h1,
        ok_bind]
      refine Sim.ok ⟨?_, ?_, h2⟩
      · rw [hb']; simp [wire_singleton, Field.bytes]
      · simp [wire_singleton, Field.bytes]; omega

theorem scanTag9_reads {b : Buffer} {f8 : Field} {s : List Byte} {p : ℕ} {out : FieldIndex}
    (h : At b [f8] s p out) :
    Reads (fun x y => At b [f8, x.1] x.2 y.1 y.2.2 ∧ y.2.1 = Decimal.value x.1.value)
      (readTag9 f8 s) (scanTag9 b p out) := by
  have hl := h.length
  have hslot : out.slot = 1 := congrArg (fun v => (v.fieldCount : ℤ)) h.view
  unfold readTag9 scanTag9
  rw [show b.length - p = s.length by omega]
  refine Sim.ite (fun _ => Reads.error h.view) fun h2 => ?_
  rw [matchesAt_eq _ h.drop (by simp; omega)]
  rcases hs : strip [ch '9', ch '='] s with _ | s'
  · exact Reads.error h.view
  · have hs' := strip_some.1 hs
    have hd : b.drop (p + 2) = s' := h.drop_add hs'
    have hl' : b.length = p + 2 + s'.length := by rw [hl, hs']; simp; omega
    simp only [hd, digitLoop_eq, ok_bind, Option.isSome_some, Bool.not_true, Bool.false_eq_true,
      if_false]
    by_cases hnum : Numeral (upTo SOH s')
    · simp only [hnum, not_true, if_false, if_true]
      rcases hcut : cut SOH s' with _ | ⟨v, t⟩
      · have hu := upTo_open (cut_none.1 hcut)
        simp only [hu, ← hl', if_true]
        exact Reads.error h.view
      · obtain ⟨rfl, hv⟩ := cut_some.1 hcut
        rw [upTo_append hv] at hnum ⊢
        simp only [List.length_append, List.length_cons] at hl'
        have hne : p + 2 + v.length ≠ b.length := by omega
        simp only [hne, if_false]
        by_cases hv0 : v = []
        · simp only [hv0, List.length_nil, Nat.add_zero, if_true]
          exact Reads.error h.view
        · have hpos : 0 < v.length := List.length_pos_iff.2 hv0
          have hne' : p + 2 + v.length ≠ p + 2 := by omega
          obtain ⟨out', h1, h2⟩ := push_head
            { out with bodyLengthIdx := out.slot, declaredBodyLength := Decimal.value v }
            { progress [f8] with bodyLengthIdx := 1, declaredBodyLength := Decimal.value v }
            [f8] ⟨[ch '9'], v⟩
            (by rw [← h.view, ← hslot]; rfl) (by simp [kMaxFields]) rfl rfl rfl
          have he : (⟨u32 p, u32 (p + 2), u32 (p + 2 + v.length), 9⟩ : FieldEntry) =
              Field.entry (wire [f8]).length ⟨[ch '9'], v⟩ := by
            rw [← h.off]; simp [Field.entry, Field.number]; decide
          have hsize : p + 2 + v.length + 1 = p + Field.size ⟨[ch '9'], v⟩ := by
            simp [Field.size]; omega
          simp only [hv0, hne', if_false, he, h1, ok_bind, hsize]
          exact Sim.ok ⟨h.snoc (by rw [hs']; simp [Field.bytes]) h2, rfl⟩
    · simp only [hnum, not_false_eq_true, if_false, if_true]
      exact Reads.error h.view

theorem bodyBounds_reads {b : Buffer} {f8 f9 : Field} {s : List Byte} {p : ℕ} {out : FieldIndex}
    (h : At b [f8, f9] s p out) :
    Reads (fun (_ : Unit) e => e = p + Decimal.value f9.value ∧
        Decimal.value f9.value + 7 ≤ s.length)
      (readBounds f8 f9 s) (bodyBounds b p (Decimal.value f9.value) out) := by
  have hl := h.length
  have h1 : sizeSub b.length p = .ok s.length := by
    rw [sizeSub, if_pos (by omega)]; congr 1; omega
  unfold readBounds bodyBounds
  rw [h1, ok_bind]
  by_cases hlen : s.length < Decimal.value f9.value + 7
  · rw [if_pos hlen]
    by_cases hgt : Decimal.value f9.value > s.length
    · rw [if_pos hgt]; exact Reads.error h.view
    · have h2 : sizeSub s.length (Decimal.value f9.value) =
          .ok (s.length - Decimal.value f9.value) := by rw [sizeSub, if_pos (by omega)]
      rw [if_neg hgt, h2, ok_bind, if_pos (by omega)]; exact Reads.error h.view
  · have h2 : sizeSub s.length (Decimal.value f9.value) =
        .ok (s.length - Decimal.value f9.value) := by rw [sizeSub, if_pos (by omega)]
    rw [if_neg hlen, if_neg (by omega), h2, ok_bind, if_neg (by omega)]
    exact Sim.ok (x := ()) ⟨rfl, by omega⟩

theorem scanTag35_reads {b : Buffer} {f8 f9 : Field} {s : List Byte} {p : ℕ} {out : FieldIndex}
    (h : At b [f8, f9] s p out) (h3 : 3 ≤ s.length) :
    Reads (fun x y => At b [f8, f9, x.1] x.2 y.1 y.2) (readTag35 f8 f9 s) (scanTag35 b p out) := by
  have hl := h.length
  have hslot : out.slot = 2 := congrArg (fun v => (v.fieldCount : ℤ)) h.view
  unfold readTag35 scanTag35
  rw [if_neg (by omega), matchesAt_eq _ h.drop (by simpa using h3)]
  rcases hs : strip [ch '3', ch '5', ch '='] s with _ | s'
  · exact Reads.error h.view
  · have hs' := strip_some.1 hs
    have hd : b.drop (p + 3) = s' := h.drop_add hs'
    have hl' : b.length = p + 3 + s'.length := by rw [hl, hs']; simp; omega
    simp only [hd, ok_bind, Option.isSome_some, Bool.not_true, Bool.false_eq_true, if_false]
    rcases hcut : cut SOH s' with _ | ⟨v, t⟩
    · simp only [skipValue_open hcut, ← hl', if_true]
      exact Reads.error h.view
    · have hq := skipValue_cut hcut (p + 3)
      obtain ⟨rfl, hv⟩ := cut_some.1 hcut
      simp only [List.length_append, List.length_cons] at hl'
      have hne : p + 3 + v.length ≠ b.length := by omega
      obtain ⟨out', h1, h2⟩ := push_head { out with msgTypeIdx := out.slot }
        { progress [f8, f9] with msgTypeIdx := 2 } [f8, f9] ⟨[ch '3', ch '5'], v⟩
        (by rw [← h.view, ← hslot]; rfl) (by simp [kMaxFields]) rfl rfl rfl
      have he : (⟨u32 p, u32 (p + 3), u32 (p + 3 + v.length), 35⟩ : FieldEntry) =
          Field.entry (wire [f8, f9]).length ⟨[ch '3', ch '5'], v⟩ := by
        rw [← h.off]; simp [Field.entry, Field.number]; decide
      have hsize : p + 3 + v.length + 1 = p + Field.size ⟨[ch '3', ch '5'], v⟩ := by
        simp [Field.size]; omega
      simp only [hq, hne, if_false, he, h1, ok_bind, hsize]
      exact Sim.ok (h.snoc (by rw [hs']; simp [Field.bytes]) h2)

/-- **The headers compute their reading.**  Afterwards the declared body and
    seven more bytes lie within the buffer. -/
theorem scanHeaders_reads (b : Buffer) (out : FieldIndex) :
    Reads (fun (h : Head) y => At b h.fields h.rest y.1 y.2.2 ∧ y.2.1 = h.bodyEnd ∧
      h.bodyEnd + 7 ≤ b.length) (readHead b) (scanHeaders b out) := by
  unfold readHead scanHeaders
  refine Sim.ite (fun _ => Reads.error (progress_reset out)) fun h12 => ?_
  refine Sim.bind (scanTag8_reads (by omega) (progress_reset out)) fun ⟨f8, s⟩ ⟨p, o⟩ h8 => ?_
  refine Sim.bind (scanTag9_reads h8) fun ⟨f9, s'⟩ ⟨p', n, o'⟩ ⟨h9, hn⟩ => ?_
  subst hn
  refine Sim.bind (bodyBounds_reads h9) fun _ e ⟨he, hlen⟩ => ?_
  refine Sim.bind (scanTag35_reads h9 (by omega)) fun ⟨f35, s''⟩ ⟨q, o''⟩ h35 => ?_
  have hp : p' = (wire [f8, f9]).length := h9.off
  have hl : b.length = p' + s'.length := h9.length
  have hb : e = Head.bodyEnd ⟨f8, f9, f35, s''⟩ := by rw [he, hp]; rfl
  refine Sim.ok ⟨h35, hb, ?_⟩
  rw [← hb, he, hl]
  omega

end SwiftFIX
