/-
  Verdicts are final: whatever a scanner answers but `Truncated`, it answers on
  every longer buffer too, with the same index (`Scanner.scan_final`), for
  buffers of any length.

  The headers and the scalar scanner are compared reading by reading; the two
  passes of the AVX2 scanner step by step, since beyond 4 GiB they have no
  reading.
-/
import SwiftFIX.Dispatch

namespace SwiftFIX

open Decimal Delimited EarlyExit

/-! ## Readings of a longer buffer -/

/-- The second reading does what the first does, unless that waits for more
    bytes. -/
abbrev Kept {α β : Type} (R : α → β → Prop) : Read α → Read β → Prop :=
  Sim (fun r => r.status = .truncated) Eq R

section
variable (e : List Byte)

/-- The bytes left are followed by `e`. -/
abbrev Longer {α : Type} (x y : α × List Byte) : Prop := y = (x.1, x.2 ++ e)

theorem readTag8_kept {b : Buffer} (h : 12 ≤ b.length) :
    Kept (Longer e) (readTag8 b) (readTag8 (b ++ e)) := by
  unfold readTag8
  rw [strip_append (by simp; omega)]
  rcases strip [ch '8', ch '='] b with _ | s
  · exact Sim.exit rfl
  · rcases hc : cut SOH s with _ | ⟨v, t⟩
    · simp only [hc]
      exact Sim.leave rfl
    · simp only [hc, Option.map_some, cut_extend hc e]
      exact Sim.ok rfl

theorem Numeral.shorter {s t : List Byte} (h : Numeral t) (hp : s <+: t) : Numeral s := by
  obtain ⟨u, rfl⟩ := hp
  refine ⟨fun c hc => h.1 c (List.mem_append_left _ hc), ?_⟩
  have hle := le_extend (Decimal.value s) u
  rw [← value_append] at hle
  exact hle.trans h.2

theorem readTag9_kept (f8 : Field) (s : List Byte) :
    Kept (Longer e) (readTag9 f8 s) (readTag9 f8 (s ++ e)) := by
  unfold readTag9
  by_cases h2 : s.length < 2
  · rw [if_pos h2]
    exact Sim.leave rfl
  have h2' : ¬ (s ++ e).length < 2 := by
    rw [List.length_append]; omega
  rw [if_neg h2, if_neg h2', strip_append (by simp; omega)]
  rcases strip [ch '9', ch '='] s with _ | s
  · exact Sim.exit rfl
  · by_cases hn : Numeral (upTo SOH s)
    · rcases hc : cut SOH s with _ | ⟨v, t⟩
      · simp only [hn, hc, not_true, if_false]
        exact Sim.leave rfl
      · have hup : upTo SOH (s ++ e) = upTo SOH s := by
          obtain ⟨rfl, hv⟩ := cut_some.1 hc
          rw [List.append_assoc, List.cons_append, upTo_append hv, upTo_append hv]
        simp only [Option.map_some, hup, hn, hc, cut_extend hc e, not_true, if_false]
        exact Sim.ite (fun _ => Sim.exit rfl) fun _ => Sim.ok rfl
    · have hn' : ¬ Numeral (upTo SOH (s ++ e)) := fun h => hn (h.shorter (upTo_extend SOH s e))
      simp only [Option.map_some, hn, hn', not_false_eq_true, if_true]
      exact Sim.exit rfl

theorem readBounds_kept (f8 f9 : Field) (s : List Byte) :
    Kept (fun _ _ => True) (readBounds f8 f9 s) (readBounds f8 f9 (s ++ e)) := by
  unfold readBounds
  by_cases h : s.length < Decimal.value f9.value + 7
  · rw [if_pos h]
    exact Sim.leave rfl
  · have h' : ¬ (s ++ e).length < Decimal.value f9.value + 7 := by
      rw [List.length_append]; omega
    rw [if_neg h, if_neg h']
    exact Sim.ok trivial

theorem readTag35_kept (f8 f9 : Field) {s : List Byte} (h : 3 ≤ s.length) :
    Kept (Longer e) (readTag35 f8 f9 s) (readTag35 f8 f9 (s ++ e)) := by
  unfold readTag35
  rw [strip_append (by simpa using h)]
  rcases strip [ch '3', ch '5', ch '='] s with _ | s
  · exact Sim.exit rfl
  · rcases hc : cut SOH s with _ | ⟨v, t⟩
    · simp only [hc]
      exact Sim.leave rfl
    · simp only [hc, Option.map_some, cut_extend hc e]
      exact Sim.ok rfl

/-- **The headers of a longer buffer** are the same. -/
theorem readHead_kept (b : Buffer) :
    Kept (fun h h' => h' = { h with rest := h.rest ++ e }) (readHead b) (readHead (b ++ e)) := by
  unfold readHead
  by_cases h12 : b.length < 12
  · rw [if_pos h12]
    exact Sim.leave rfl
  have h12' : ¬ (b ++ e).length < 12 := by
    rw [List.length_append]; omega
  rw [if_neg h12, if_neg h12']
  refine Sim.bind (readTag8_kept e (by omega)) ?_
  rintro ⟨f8, s⟩ _ rfl
  refine Sim.bind (readTag9_kept e f8 s) ?_
  rintro ⟨f9, t⟩ _ rfl
  refine Sim.bind (Sim.remember (readBounds_kept e f8 f9 t)) ?_
  rintro ⟨⟩ _ ⟨hb, -⟩
  have hlen := readBounds_ok.1 hb
  refine Sim.bind (readTag35_kept e f8 f9 (by omega)) ?_
  rintro ⟨f35, u⟩ _ rfl
  exact Sim.ok rfl

/-! ## The scalar scanner -/

namespace ScalarScanner

theorem readField_kept {s t : List Byte} {f : Field} (h : readField s = .field f t) :
    readField (s ++ e) = .field f (t ++ e) := by
  obtain ⟨rfl, ht, hv⟩ := readField_field.1 h
  exact readField_field.2 ⟨by rw [List.append_assoc], ht, hv⟩

/-- A malformed field stays malformed: its tag is no tag whatever follows. -/
theorem readField_malformed {s : List Byte} (h : readField s = .malformed) :
    readField (s ++ e) = .malformed := by
  unfold readField at h
  rcases hc : cut SOH s with _ | ⟨p, t⟩
  · rw [hc] at h
    simp only [ite_eq_right_iff, reduceCtorEq, imp_false] at h
    rw [OpenField] at h
    rcases heq : cut (ch '=') s with _ | ⟨tg, w⟩
    · -- only digits could complete the tag, and `s` is no numeral
      rw [heq] at h
      have hbad : ∀ u, ¬ Numeral (s ++ u) := fun u hn => h (hn.shorter (List.prefix_append s u))
      rw [readField, cut_open_append (cut_none.1 hc)]
      rcases cut SOH e with _ | ⟨q, t⟩
      · have hopen : ¬ OpenField (s ++ e) := by
          rw [OpenField, cut_open_append (cut_none.1 heq)]
          rcases cut (ch '=') e with _ | ⟨tg, w⟩
          · exact hbad e
          · exact fun ht => hbad tg ht.1
        simp only [Option.map_none, hopen, if_false]
      · have hpiece : readPiece (s ++ q) = none := by
          rw [readPiece, cut_open_append (cut_none.1 heq)]
          rcases cut (ch '=') q with _ | ⟨tg, w⟩
          · rfl
          · exact if_neg fun ht => hbad tg ht.1
        simp only [Option.map_some, hpiece]
    · rw [heq] at h
      obtain ⟨rfl, htg⟩ := cut_some.1 heq
      rw [List.append_assoc, List.cons_append]
      exact readField_badTag htg h _
  · rw [hc] at h
    rw [readField, cut_extend hc e]
    simp only at h ⊢
    split at h
    · cases h
    · rfl

theorem readBody_kept (left : ℕ) :
    ∀ (fs : List Field) (s : List Byte),
      Kept (fun x y => y = (x.1, x.2.map (· ++ e)))
        (readBody fs left s) (readBody fs left (s ++ e)) := by
  induction left using Nat.strongRecOn with
  | _ left ih =>
    intro fs s
    rw [readBody, readBody]
    refine Sim.ite (fun _ => Sim.ok rfl) fun _ => ?_
    refine Sim.ite (fun _ => Sim.exit rfl) fun _ => ?_
    rcases hr : readField s with ⟨f, t⟩ | _ | _
    · rw [readField_kept e hr]
      refine Sim.ite (fun _ => Sim.exit rfl) fun _ => ?_
      refine Sim.ite (fun _ => Sim.ok rfl) fun _ => ih _ ?_ _ _
      have := f.size_pos
      omega
    · exact Sim.leave rfl
    · rw [readField_malformed e hr]
      exact Sim.exit rfl

theorem digitsAt_append {b : Buffer} {v : ℕ} (h : v + 3 ≤ b.length) :
    DigitsAt (b ++ e) v ↔ DigitsAt b v := by
  have hl : 3 ≤ (b.drop v).length := by
    rw [List.length_drop]; omega
  rw [DigitsAt, DigitsAt, List.drop_append_of_le_length (by omega),
    List.take_append_of_le_length hl]

theorem readEnding_kept {b : Buffer} (fs : List Field) (x : Option (List Byte))
    (hb : ∀ s, x = some s → b = wire fs ++ s) :
    Kept (· = ·) (readEnding b fs x) (readEnding (b ++ e) fs (x.map (· ++ e))) := by
  rcases x with _ | s
  · exact Sim.exit rfl
  · have hb := hb s rfl
    rw [Option.map_some, readEnding, readEnding]
    rcases hr : readField s with ⟨f, t⟩ | _ | _
    · obtain ⟨rfl, -, -⟩ := readField_field.1 hr
      have hl := congrArg List.length hb
      rw [List.length_append, List.length_append, f.bytes_length, Field.size] at hl
      rw [readField_kept e hr]
      refine Sim.ite (fun _ => Sim.exit rfl) fun _ => ?_
      refine Sim.ite (fun _ => Sim.exit rfl) fun h3 => ?_
      have h3 : 3 ≤ f.value.length := by
        have := u32_le f.value.length
        omega
      have hv := u32_le ((wire fs).length + f.tag.length + 1)
      refine Sim.ite_iff ?_ (fun _ => Sim.exit rfl) fun _ => ?_
      · rw [digitsAt_append e (by omega)]
      · exact Sim.ite (fun _ => Sim.exit rfl) fun _ => Sim.ok rfl
    · exact Sim.leave rfl
    · rw [readField_malformed e hr]
      exact Sim.exit rfl

/-- **The reading of a longer buffer** is the same, unless the scanner waits. -/
theorem read_kept (b : Buffer) :
    Kept (· = ·) (do let h ← readHead b; let x ← readRest h; readEnding b x.1 x.2)
      (do let h ← readHead (b ++ e); let x ← readRest h; readEnding (b ++ e) x.1 x.2) := by
  refine Sim.bind (Sim.remember (readHead_kept e b)) ?_
  rintro h _ ⟨hh, rfl⟩
  obtain ⟨-, hb, -⟩ := readHead_ok.1 hh
  have hrest : Kept (fun x y => y = (x.1, x.2.map (· ++ e))) (readRest h)
      (readRest { h with rest := h.rest ++ e }) :=
    Sim.ite (fun _ => Sim.ok rfl) fun _ => readBody_kept e _ _ _
  refine Sim.bind (Sim.remember hrest) ?_
  rintro ⟨fs, x⟩ _ ⟨hx, rfl⟩
  refine readEnding_kept e fs x ?_
  rintro s rfl
  unfold readRest at hx
  split at hx
  · cases hx
  · obtain ⟨gs, rfl, hs, -⟩ := (readBody_ok h.fields_length_le).1 hx
    rw [hb, hs, wire_append, List.append_assoc]

theorem read_final (b : Buffer) (h : (read b).status ≠ .truncated) : read (b ++ e) = read b := by
  have hk := read_kept e b
  unfold read at h ⊢
  rcases hc : (do let h ← readHead b; let x ← readRest h; readEnding b x.1 x.2 :
      Read (List Field)) with r | fs
  · rw [hc] at h hk
    rcases hk with hk | ⟨_, hc', rfl⟩
    · exact absurd hk h
    · rw [hc']
  · rw [hc] at hk
    obtain ⟨_, hc', rfl⟩ := hk
    rw [hc']

end ScalarScanner

/-! ## The AVX2 scanner -/

namespace Avx2Scanner

/-- The two calls end alike. -/
def Alike (o o' : Outcome) : Prop := o.result = o'.result

/-- The second computation does what the first does, unless that is stuck. -/
abbrev Follows {α β : Type} (R : α → β → Prop) : Scan α → Scan β → Prop :=
  Sim (· = .stuck) Alike R

/-- The two indexes show the same. -/
abbrev Same (out out' : FieldIndex) : Prop := out.view = out'.view

variable {out out' : FieldIndex}

theorem Follows.exit {α β : Type} {R : α → β → Prop} (st : ScanStatus) (h : Same out out') :
    Follows R (.error (.ret st out) : Scan α) (.error (.ret st out') : Scan β) :=
  Sim.exit (by rw [Alike, Outcome.result, Outcome.result, h])

theorem Same.count (h : Same out out') : out.fieldCount = out'.fieldCount :=
  congrArg IndexView.fieldCount h

theorem byteAt_follows (b : Buffer) (i : ℕ) : Follows (· = ·) (byteAt b i) (byteAt (b ++ e) i) := by
  rcases h : b[i]? with _ | c
  · rw [byteAt, h]
    exact Sim.leave rfl
  · have hlt := (List.getElem?_eq_some_iff.1 h).1
    rw [byteAt_eq h, byteAt_eq (show (b ++ e)[i]? = some c by rw [List.getElem?_append_left hlt, h])]
    exact Sim.ok rfl

theorem matchesAt_follows (b : Buffer) (pat : List Byte) :
    ∀ p, Follows (· = ·) (matchesAt b p pat) (matchesAt (b ++ e) p pat) := by
  induction pat with
  | nil => exact fun _ => Sim.ok rfl
  | cons c cs ih =>
    intro p
    refine Sim.bind (byteAt_follows e b p) ?_
    rintro x _ rfl
    exact Sim.ite (fun _ => ih _) fun _ => Sim.ok rfl

theorem threeDigitsAt_follows (b : Buffer) (v : ℕ) :
    Follows (· = ·) (threeDigitsAt b v) (threeDigitsAt (b ++ e) v) := by
  refine Sim.bind (byteAt_follows e b v) ?_
  rintro x _ rfl
  refine Sim.ite (fun _ => Sim.ok rfl) fun _ => ?_
  refine Sim.bind (byteAt_follows e b (v + 1)) ?_
  rintro y _ rfl
  refine Sim.ite (fun _ => Sim.ok rfl) fun _ => ?_
  refine Sim.bind (byteAt_follows e b (v + 2)) ?_
  rintro z _ rfl
  exact Sim.ok rfl

theorem push_follows (h : Same out out') (f : FieldEntry) :
    Follows Same (out.push f) (out'.push f) := by
  by_cases hroom : out.fieldCount < kMaxFields
  · obtain ⟨o, h1, h2⟩ := FieldIndex.push_eq f hroom
    obtain ⟨o', h1', h2'⟩ := FieldIndex.push_eq f (h.count ▸ hroom)
    have he : out.entries = out'.entries := congrArg IndexView.entries h
    rw [h1, h1']
    exact Sim.ok (by rw [Same, h2, h2', h, h.count, he])
  · rw [FieldIndex.push, dif_neg hroom]
    exact Sim.leave rfl

theorem tagLoop_follows (b : Buffer) (h : Same out out') (n : ℕ) :
    ∀ tp tag, Follows (· = ·) (tagLoop b out n tp tag) (tagLoop (b ++ e) out' n tp tag) := by
  induction n with
  | zero => exact fun _ _ => Sim.ok rfl
  | succ n ih =>
    intro tp tag
    refine Sim.bind (byteAt_follows e b tp) ?_
    rintro c _ rfl
    refine Sim.ite (fun _ => Sim.ok rfl) fun _ => ?_
    refine Sim.ite (fun _ => Follows.exit _ h) fun _ => ?_
    exact Sim.ite (fun _ => Follows.exit _ h) fun _ => ih _ _

theorem scanField_follows (b : Buffer) (fs se : ℕ) (h : Same out out') :
    Follows Same (scanField b fs se out) (scanField (b ++ e) fs se out') := by
  refine Sim.bind (tagLoop_follows e b h _ _ _) ?_
  rintro ⟨tp, tag⟩ _ rfl
  refine Sim.ite (fun _ => Follows.exit _ h) fun _ => ?_
  refine Sim.ite (fun _ => Follows.exit _ h) fun _ => ?_
  refine Sim.ite (fun _ => Follows.exit _ h) fun _ => ?_
  exact Sim.ite (fun _ => Follows.exit _ h) fun _ => push_follows h _

theorem sohAt_follows (sohs : List ℕ) (i : ℕ) :
    Follows (· = ·) (sohAt sohs i) (sohAt sohs i) := by
  rcases h : sohAt sohs i with o | off
  · unfold sohAt at h
    split at h
    · cases h
    · cases h
      exact Sim.leave rfl
  · exact Sim.ok rfl

theorem fieldLoop_follows (b : Buffer) (sohs : List ℕ) (n : ℕ) :
    ∀ (i fs : ℕ) {out out' : FieldIndex}, Same out out' →
      Follows (fun x y => x.1 = y.1 ∧ Same x.2 y.2) (fieldLoop b sohs n i fs out)
        (fieldLoop (b ++ e) sohs n i fs out') := by
  induction n with
  | zero => exact fun _ _ _ _ h => Sim.ok ⟨rfl, h⟩
  | succ n ih =>
    intro i fs out out' h
    refine Sim.ite_iff (by rw [h.count]) (fun _ => Follows.exit _ h) fun _ => ?_
    refine Sim.bind (sohAt_follows sohs i) ?_
    rintro se _ rfl
    exact Sim.bind (scanField_follows e b fs se h) fun o o' ho => ih _ _ ho

theorem checkTrailer_follows (b : Buffer) (bodyEnd fs cksumSoh : ℕ) (h : Same out out') :
    Follows Same (checkTrailer b bodyEnd fs cksumSoh out)
      (checkTrailer (b ++ e) bodyEnd fs cksumSoh out') := by
  refine Sim.ite (fun _ => Follows.exit _ h) fun _ => ?_
  refine Sim.ite (fun _ => Follows.exit _ h) fun _ => ?_
  refine Sim.bind (matchesAt_follows e b _ _) ?_
  rintro found _ rfl
  refine Sim.ite (fun _ => Follows.exit _ h) fun _ => ?_
  refine Sim.bind (threeDigitsAt_follows e b _) ?_
  rintro digits _ rfl
  refine Sim.ite (fun _ => Follows.exit _ h) fun _ => ?_
  refine Sim.ite_iff (by rw [h.count]) (fun _ => Follows.exit _ h) fun _ => ?_
  have hslot : Same { out with checksumIdx := out.slot } { out' with checksumIdx := out'.slot } := by
    have hs : out.slot = out'.slot := by rw [FieldIndex.slot, FieldIndex.slot, h.count]
    have hv : { out.view with checksumIdx := out.slot } =
        { out'.view with checksumIdx := out'.slot } := by rw [h, hs]
    exact hv
  refine Sim.bind (push_follows hslot _) fun o o' ho => Sim.ok ?_
  have hv : { o.view with frameLength := u32 (cksumSoh + 1) } =
      { o'.view with frameLength := u32 (cksumSoh + 1) } := by rw [ho]
  exact hv

theorem pass1_follows {b : Buffer} {p E : ℕ} (hE : E ≤ b.length) (hp : p ≤ b.length)
    (h : Same out out') : Follows (· = ·) (pass1 b out p E) (pass1 (b ++ e) out' p E) := by
  have hl : E - p ≤ (b.drop p).length := by
    rw [List.length_drop]; omega
  rw [pass1_eq hE, pass1_eq (by rw [List.length_append]; omega), List.drop_append_of_le_length hp,
    List.take_append_of_le_length hl]
  exact Sim.ite (fun _ => Sim.ok rfl) fun _ => Follows.exit _ h

theorem scanPasses_follows {b : Buffer} {p bodyEnd : ℕ} (hE : bodyEnd + 7 ≤ b.length)
    (hp : p ≤ b.length) (h : Same out out') :
    Follows Same (scanPasses b p bodyEnd out) (scanPasses (b ++ e) p bodyEnd out') := by
  refine Sim.bind (pass1_follows e hE hp h) ?_
  rintro sohs _ rfl
  refine Sim.ite (fun _ => Follows.exit _ h) fun _ => ?_
  refine Sim.bind (fieldLoop_follows e b sohs _ _ _ h) ?_
  rintro ⟨fs, o⟩ ⟨_, o'⟩ ⟨rfl, ho⟩
  refine Sim.bind (sohAt_follows sohs _) ?_
  rintro c _ rfl
  exact checkTrailer_follows e b bodyEnd fs c ho

/-- What a computation gives that is not stuck, one that follows it gives. -/
theorem Follows.result_eq {c c' : Scan FieldIndex} (h : Follows Same c c')
    {x : ScanStatus × IndexView} (hx : (Outcome.ofScan c).result = some x) :
    (Outcome.ofScan c').result = some x := by
  rcases c with o | out
  · rcases h with rfl | ⟨o', rfl, ho⟩
    · cases hx
    · exact ho ▸ hx
  · obtain ⟨out', rfl, ho⟩ := h
    rw [← hx, Outcome.ofScan, Outcome.ofScan, Outcome.result, Outcome.result, ho]

/-- Either the headers of `b` end the call with their reading, or both passes
    run on `b` and on every longer buffer from the same state. -/
theorem scan_cases (b : Buffer) (out : FieldIndex) :
    (∃ r, readHead b = .error r ∧ (scan b out).result = some (r.status, r.view)) ∨
      ∃ h o, readHead b = .ok h ∧ At b h.fields h.rest (wire h.fields).length o ∧
        h.bodyEnd + 7 ≤ b.length ∧
        scan b out = .ofScan (scanPasses b (wire h.fields).length h.bodyEnd o) := by
  have hh := scanHeaders_reads b out
  rcases hr : readHead b with r | h
  · rw [hr] at hh
    rcases hh with hh | ⟨o, ho, hends⟩
    · cases hh
    · left
      refine ⟨r, rfl, ?_⟩
      rw [scan, scanBody, ho]
      exact hends.result_eq
  · rw [hr] at hh
    obtain ⟨⟨p, E, o⟩, ho, hat, hE, hlen⟩ := hh
    simp only at hat hE
    right
    refine ⟨h, o, rfl, hat.off ▸ hat, hlen, ?_⟩
    rw [scan, scanBody, ho, ok_bind, hE, hat.off]

/-- Once the headers are read, a longer buffer and another index to start with
    change nothing. -/
theorem scan_follows {b : Buffer} {hd : Head} (hr : readHead b = .ok hd) (out out' : FieldIndex)
    {x : ScanStatus × IndexView} (hx : (scan b out).result = some x) :
    (scan (b ++ e) out').result = some x := by
  have hk := readHead_kept e b
  rw [hr] at hk
  obtain ⟨_, hr', rfl⟩ := hk
  rcases scan_cases b out with ⟨r, hr₁, -⟩ | ⟨h₁, o, hr₁, hat, hlen, hres⟩
  · rw [hr] at hr₁
    cases hr₁
  rcases scan_cases (b ++ e) out' with ⟨r, hr₂, -⟩ | ⟨h₂, o', hr₂, hat', -, hres'⟩
  · rw [hr'] at hr₂
    cases hr₂
  rw [hr] at hr₁
  rw [hr'] at hr₂
  cases hr₁
  cases hr₂
  have hp : (wire hd.fields).length ≤ b.length := by
    have := hat.length
    omega
  have hsame : Same o o' := by
    rw [Same, hat.view, hat'.view]
    rfl
  rw [hres] at hx
  rw [hres']
  exact (scanPasses_follows e hlen hp hsame).result_eq hx

theorem scan_of_error {b : Buffer} {r : Reading} (hr : readHead b = .error r) (out : FieldIndex) :
    (scan b out).result = some (r.status, r.view) := by
  rcases scan_cases b out with ⟨r', hr', hres⟩ | ⟨h, o, hr', -⟩
  · rw [hr] at hr'
    cases hr'
    exact hres
  · rw [hr] at hr'
    cases hr'

end Avx2Scanner

end

/-! ## Verdicts are final -/

namespace Scanner

/-- **Every verdict but `Truncated` is final**: on every longer buffer, and
    whatever the index held before, the call ends the same way with the same
    index. -/
theorem scan_extend (s : Scanner) (b e : Buffer) (out out' : FieldIndex) {st : ScanStatus}
    {v : IndexView} (h : (s.scan b out).result = some (st, v)) (hst : st ≠ .truncated) :
    (s.scan (b ++ e) out').result = some (st, v) := by
  cases s with
  | scalar =>
    have h1 := (ScalarScanner.scan_reads b out).result_eq
    have h2 := (ScalarScanner.scan_reads (b ++ e) out').result_eq
    rw [scan, h1] at h
    cases h
    rw [scan, h2, ScalarScanner.read_final e b hst]
  | avx2 =>
    rcases hr : readHead b with r | hd
    · have hk := readHead_kept e b
      rw [scan, Avx2Scanner.scan_of_error hr] at h
      cases h
      rw [hr] at hk
      rcases hk with hk | ⟨_, hr', rfl⟩
      · exact absurd hk hst
      · exact Avx2Scanner.scan_of_error hr' out'
    · exact Avx2Scanner.scan_follows e hr out out' h

/-- **The index handed in does not matter**: a call ends the same way whatever
    an earlier call left in it. -/
theorem scan_prior (s : Scanner) (b : Buffer) (out out' : FieldIndex) :
    (s.scan b out).result = (s.scan b out').result := by
  cases s with
  | scalar =>
    rw [scan, (ScalarScanner.scan_reads b out).result_eq,
      (ScalarScanner.scan_reads b out').result_eq]
  | avx2 =>
    rcases hr : readHead b with r | hd
    · rw [scan, Avx2Scanner.scan_of_error hr, Avx2Scanner.scan_of_error hr]
    · refine Option.ext fun x => ⟨fun hx => ?_, fun hx => ?_⟩
      · have := Avx2Scanner.scan_follows [] hr out out' hx
        rwa [List.append_nil] at this
      · have := Avx2Scanner.scan_follows [] hr out' out hx
        rwa [List.append_nil] at this

end Scanner
end SwiftFIX
