/-
  What turning the pre-parser on changes for a caller of the shim.

  On a buffer that begins with an accepted frame the fast path builds the
  message of that frame (`answer_frame`), while `setString` goes on to the end
  of the buffer and converts the tags itself (`stringLoop_wire`).  So the two
  agree except where bytes follow the frame, or where a tag does not convert to
  the number the fast path casts it to (`sameWithPreparse_iff`).
-/
import SwiftFIX.Shim
import SwiftFIX.Acceptance

namespace SwiftFIX

open Decimal Delimited EarlyExit FIX

/-! ## The fields of a frame -/

theorem Message.fields_tag (M : Message) : ∀ f ∈ M.fields, Tag f.tag ∧ SOH ∉ f.value := by
  have h8 : Tag (ascii ['8']) := by decide
  have h9 : Tag (ascii ['9']) := by decide
  have h35 : Tag (ascii ['3', '5']) := by decide
  intro f hf
  simp only [fields, List.mem_cons, List.mem_append, List.not_mem_nil, or_false] at hf
  rcases hf with rfl | rfl | rfl | hf | rfl
  · exact ⟨h8, M.beginString_open⟩
  · exact ⟨h9, M.bodyLength_numeral.soh_notMem⟩
  · exact ⟨h35, M.msgType_open⟩
  · exact ⟨(M.body_fields f hf).tag, (M.body_fields f hf).value⟩
  · exact ⟨M.checksum_field.tag, M.checksum_field.value⟩

namespace Shim

/-- The QuickFIX field the fast path builds. -/
def fastField (f : Field) : FieldBase := ⟨castInt f.number, f.value, calculateMetrics f.bytes⟩

/-- The QuickFIX field `setString` builds. -/
structure StockField (C : IntConvertor) (f : Field) (g : FieldBase) : Prop where
  tag : C.convert f.tag = some g.tag
  string : g.string = f.value
  metrics : g.metrics = calculateMetrics f.bytes

/-! ## The fast path -/

theorem charRange_eq (pre x t : List Byte) :
    charRange (pre ++ (x ++ t)) pre.length (pre.length + x.length) = .ok x := by
  rw [charRange, if_pos (by simp), List.drop_left, Nat.add_sub_cancel_left, List.take_left]

/-- The ranges of a field on the wire: its value, and its bytes. -/
theorem charRange_place (pre t : List Byte) (f : Field) :
    charRange (pre ++ (f.bytes ++ t)) (pre.length + f.tag.length + 1)
        (pre.length + f.tag.length + 1 + f.value.length) = .ok f.value ∧
      charRange (pre ++ (f.bytes ++ t)) pre.length
        (pre.length + f.tag.length + 1 + f.value.length + 1) = .ok f.bytes := by
  constructor
  · have h := charRange_eq (pre ++ (f.tag ++ [ch '='])) f.value (SOH :: t)
    simpa [Field.bytes, Nat.add_assoc] using h
  · have h := charRange_eq pre f.bytes t
    rw [f.bytes_length, Field.size] at h
    rw [← h]
    congr 1
    omega

theorem field_place (pre t : List Byte) (f : Field) :
    (preScanField (f.place pre.length)).field (pre ++ (f.bytes ++ t)) = .ok (fastField f) := by
  obtain ⟨hvalue, hbytes⟩ := charRange_place pre t f
  rw [PreScanField.field, preScanField, Field.place]
  simp only
  rw [hvalue, ok_bind, hbytes]
  rfl

theorem fields_places {b : Buffer} {fs : List Field} (h : wire fs <+: b) :
    List.Forall₂ (fun pf g => pf.field b = .ok g) ((places 0 fs).map preScanField)
      (fs.map fastField) := by
  rw [List.forall₂_map_left_iff, List.forall₂_map_right_iff]
  exact forall₂_places (R := fun b e f => (preScanField e).field b = .ok (fastField f)) field_place h

theorem requiresDictionaryParse_places (fs : List Field) :
    ∀ p, requiresDictionaryParse (places p fs) = fs.any fun f => isKnownGroupCounter f.number := by
  induction fs with
  | nil => exact fun _ => rfl
  | cons f fs ih =>
    intro p
    rw [places, requiresDictionaryParse, List.any_cons, List.any_cons, ← ih (p + f.size)]
    rfl

section
variable (R : FieldRules) (C : IntConvertor) (host : Host)

/-- The message of a frame on the fast path, before sorting. -/
def fastMessage (F : Frame) : FIX.Message :=
  (R.setFields (F.fields.map fastField) (.fresh, .header)).1

/-- **The answer on an accepted frame** with the pre-parser on. -/
theorem answer_frame {b : Buffer} {F : Frame}
    (hv : (defaultScanner host).verdict b = (.ok, F.index)) (hF : F.bytes <+: b) :
    answer (R.engine C) host true b =
      if F.fields.any fun f => isKnownGroupCounter f.number then some (stock (R.engine C) b)
      else match R.sortParts (fastMessage R F) with
        | .ok m => some (some m)
        | .error _ => some (stock (R.engine C) b) := by
  obtain ⟨t, rfl⟩ := hF
  have hfields : List.Forall₂ (fun pf g => pf.field (F.bytes ++ t) = .ok g)
      ((places 0 F.fields).map preScanField) (F.fields.map fastField) :=
    fields_places (List.prefix_append F.bytes t)
  have hloop := FieldRules.preScanLoop_eq (E := R) hfields .fresh .header
  have hset : (R.engine C).setFromPreScan (F.bytes ++ t) ((places 0 F.fields).map preScanField)
      false .fresh = match R.sortParts (fastMessage R F) with
        | .ok m => .ok m
        | .error left => .error (.threw left) := by
    rw [FieldRules.setFromPreScan]
    show (R.preScanLoop (F.bytes ++ t) ((places 0 F.fields).map preScanField) (R.clear .fresh)
      .header >>= _) = _
    rw [R.clear_eq, hloop, ok_bind]
    have hsort : (R.engine C).sortParts (fastMessage R F) = R.sortParts (fastMessage R F) := rfl
    rw [← fastMessage, hsort]
    cases R.sortParts (fastMessage R F) <;> rfl
  unfold answer
  rw [hv]
  simp only [Bool.not_true, Bool.false_eq_true, if_false, decide_true, Bool.true_and,
    Bool.not_eq_true', Message.index, requiresDictionaryParse_places, hset]
  cases F.fields.any fun f => isKnownGroupCounter f.number with
  | true => rfl
  | false =>
    cases R.sortParts (fastMessage R F) <;> rfl

/-! ## The stock path -/

variable {R C}

theorem extractField_bytes {f : Field} (ht : Tag f.tag) (hv : SOH ∉ f.value) (t : List Byte) :
    C.extractField (f.bytes ++ t) =
      (C.convert f.tag).map fun n => (⟨n, f.value, calculateMetrics f.bytes⟩, t) := by
  have hb : f.bytes ++ t = f.tag ++ ch '=' :: (f.value ++ SOH :: t) := by simp [Field.bytes]
  rw [IntConvertor.extractField, hb, cut_append ht.1.eq_notMem]
  simp only [cut_append hv]
  cases C.convert f.tag <;> rfl

/-- `setString` on a string of fields: every tag has to convert, and the loop
    goes on with what follows. -/
theorem stringLoop_wire {fs : List Field} {rest : List Byte} {m' : FIX.Message}
    (hfs : ∀ f ∈ fs, Tag f.tag ∧ SOH ∉ f.value) :
    ∀ {fuel : ℕ} {s : FIX.Message × FieldType}, fs.length ≤ fuel →
      (R.stringLoop C fuel (wire fs ++ rest) s.1 s.2 = .ok m' ↔
        ∃ gs, List.Forall₂ (StockField C) fs gs ∧
          R.stringLoop C (fuel - fs.length) rest (R.setFields gs s).1 (R.setFields gs s).2 =
            .ok m') := by
  induction fs with
  | nil =>
    intro fuel s _
    constructor
    · intro h
      exact ⟨[], .nil, h⟩
    · rintro ⟨gs, hgs, h⟩
      cases hgs
      exact h
  | cons f fs ih =>
    intro fuel s hle
    rw [List.length_cons] at hle
    obtain ⟨fuel, rfl⟩ := Nat.exists_eq_add_of_lt (show 0 < fuel by omega)
    rw [Nat.zero_add] at hle ⊢
    rw [List.forall_mem_cons] at hfs
    obtain ⟨⟨ht, hv⟩, hfs⟩ := hfs
    have hne : wire (f :: fs) ++ rest ≠ [] := by simp [wire_cons, Field.bytes]
    have hx : C.extractField (wire (f :: fs) ++ rest) =
        (C.convert f.tag).map fun n =>
          (⟨n, f.value, calculateMetrics f.bytes⟩, wire fs ++ rest) := by
      rw [wire_cons, List.append_assoc, extractField_bytes ht hv]
    rw [FieldRules.stringLoop, if_neg hne, hx, List.length_cons, Nat.add_sub_add_right]
    rcases hc : C.convert f.tag with _ | n
    · constructor
      · intro h
        cases h
      · rintro ⟨gs, hgs, -⟩
        cases hgs with
        | cons hg _ =>
          rw [hg.tag] at hc
          cases hc
    · simp only [Option.map_some]
      rw [ih hfs (by omega)]
      constructor
      · rintro ⟨gs, hgs, h⟩
        exact ⟨_ :: gs, .cons ⟨hc, rfl, rfl⟩ hgs, h⟩
      · rintro ⟨gs, hgs, h⟩
        cases hgs with
        | @cons _ g _ gs hg hgs =>
          obtain ⟨tag, string, metrics⟩ := g
          obtain ⟨htag, rfl, rfl⟩ := hg
          rw [htag, Option.some.injEq] at hc
          cases hc
          exact ⟨gs, hgs, h⟩

theorem stringLoop_length (fuel : ℕ) :
    ∀ {raw : List Byte} {m m' : FIX.Message} {type : FieldType},
      R.stringLoop C fuel raw m type = .ok m' →
        m.fields.length + (if raw = [] then 0 else 1) ≤ m'.fields.length := by
  induction fuel with
  | zero =>
    intro raw m m' type h
    cases h
  | succ fuel ih =>
    intro raw m m' type h
    rw [FieldRules.stringLoop] at h
    split at h
    · rename_i hraw
      cases h
      rw [if_pos hraw]
      exact le_rfl
    · rename_i hraw
      split at h
      · cases h
      · rename_i field rest _
        have hgrow : (R.setField m type field).1.fields.length + _ ≤ _ := ih h
        have hlen := (FieldRules.setField_perm (E := R) m type field).length_eq
        rw [List.length_cons] at hlen
        rw [if_neg hraw]
        omega

theorem stock_eq_some {b : Buffer} {m : FIX.Message} :
    stock (R.engine C) b = some m ↔
      ∃ m', R.stringLoop C (b.length + 1) b .fresh .header = .ok m' ∧ R.sortParts m' = .ok m := by
  have hset : (R.engine C).setString b .fresh =
      R.stringLoop C (b.length + 1) b .fresh .header >>= R.sortParts := by
    show R.setString C b .fresh = _
    rw [FieldRules.setString, R.clear_eq]
  rw [stock, hset, ← bind_eq_ok]
  cases R.stringLoop C (b.length + 1) b .fresh .header >>= R.sortParts with
  | error left => simp
  | ok m' => simp

theorem length_le_wire (fs : List Field) : fs.length ≤ (wire fs).length := by
  induction fs with
  | nil => exact le_rfl
  | cons f fs ih =>
    have := f.size_pos
    rw [List.length_cons, wire_cons_length]
    omega

/-! ## Where the paths agree -/

theorem castInt_neg {n : ℕ} (h : n ≤ maxNumber) : castInt n < 0 ↔ 2 ^ 31 ≤ n := by
  rw [maxNumber] at h
  rw [castInt]
  split <;> omega

/-- Two lists of fields, one converted and one cast, with equally many negative
    tags: then every conversion is the cast. -/
theorem convert_eq_castInt {fs : List Field} {gs : List FieldBase}
    (hfs : ∀ f ∈ fs, Tag f.tag) (h : List.Forall₂ (StockField C) fs gs) :
    gs.countP (·.tag < 0) ≤ fs.countP (castInt ·.number < 0) ∧
      (fs.countP (castInt ·.number < 0) ≤ gs.countP (·.tag < 0) →
        ∀ f ∈ fs, C.convert f.tag = some (castInt f.number)) := by
  induction h with
  | nil => exact ⟨le_rfl, fun _ f hf => absurd hf List.not_mem_nil⟩
  | @cons f g fs gs hg _ ih =>
    rw [List.forall_mem_cons] at hfs
    obtain ⟨ht, hfs⟩ := hfs
    obtain ⟨hle, heq⟩ := ih hfs
    have hneg := castInt_neg ht.1.2
    have hsign := C.convert_sign ht.1.1 ht.1.2 hg.tag
    rw [List.countP_cons, List.countP_cons]
    by_cases hlarge : 2 ^ 31 ≤ Decimal.value f.tag
    · -- a large tag is negative on the fast path
      have hf : castInt f.number < 0 := hneg.2 hlarge
      by_cases hgneg : g.tag < 0
      · have hcast : C.convert f.tag = some (castInt f.number) := by
          rw [hg.tag, (hsign.resolve_left (by omega)), Field.number]
        simp only [hf, hgneg, decide_true, if_true]
        exact ⟨by omega, fun h => List.forall_mem_cons.2 ⟨hcast, heq (by omega)⟩⟩
      · simp only [hf, hgneg, decide_true, decide_false, if_true, Bool.false_eq_true, if_false]
        exact ⟨by omega, fun h => by omega⟩
    · have hconv := C.convert_digits ht.ne_nil ht.1.1 (not_le.1 hlarge)
      have hcast : castInt f.number = Decimal.value f.tag := if_pos (not_le.1 hlarge)
      have hg' : g.tag = Decimal.value f.tag := by
        rw [hg.tag] at hconv
        exact Option.some.inj hconv
      have hf0 : ¬ castInt f.number < 0 := by omega
      have hg0 : ¬ g.tag < 0 := by omega
      simp only [hf0, hg0, decide_false, Bool.false_eq_true, if_false, Nat.add_zero]
      exact ⟨hle, fun h => List.forall_mem_cons.2 ⟨by rw [hconv, hcast], heq h⟩⟩

theorem setFields_fresh_perm (gs : List FieldBase) (type : FieldType) :
    (R.setFields gs (.fresh, type)).1.fields.Perm gs :=
  FieldRules.setFields_perm gs (.fresh, type)

/-- The fields of a frame followed by `rest`, as `setString` reads them when it
    succeeds. -/
theorem stock_frame {F : Frame} {rest : Buffer} {m : FIX.Message}
    (h : stock (R.engine C) (F.bytes ++ rest) = some m) :
    ∃ gs, List.Forall₂ (StockField C) F.fields gs ∧
      gs.length + (if rest = [] then 0 else 1) ≤ m.fields.length ∧
      (rest = [] → m.fields.Perm gs) := by
  obtain ⟨m', hloop, hsort⟩ := stock_eq_some.1 h
  have hp := FieldRules.sortParts_perm hsort
  have hfuel : F.fields.length ≤ (F.bytes ++ rest).length + 1 := by
    have := length_le_wire F.fields
    rw [List.length_append, Message.bytes]
    omega
  obtain ⟨gs, hgs, hrest⟩ := (stringLoop_wire (s := (.fresh, .header)) F.fields_tag hfuel).1 hloop
  have hfill := setFields_fresh_perm (R := R) gs .header
  refine ⟨gs, hgs, ?_, ?_⟩
  · have hlen := stringLoop_length _ hrest
    rwa [hfill.length_eq, ← hp.length_eq] at hlen
  · rintro rfl
    have hm : (R.setFields gs (.fresh, .header)).1 = m' := by
      rcases hn : (F.bytes ++ []).length + 1 - F.fields.length with _ | n
      · rw [hn] at hrest
        cases hrest
      · rw [hn] at hrest
        exact Except.ok.inj hrest
    exact hp.trans (hm ▸ hfill)

variable (R C)

/-- **The fast path sees another message**: the buffer begins with a frame the
    default scanner accepts, none of its tags is a group counter, QuickFIX sorts
    its fields, and bytes follow the frame or a tag does not convert to the
    number it is cast to. -/
def Diverges (b : Buffer) : Prop :=
  ∃ (F : Frame) (rest : Buffer), (defaultScanner host).Accepts F ∧ b = F.bytes ++ rest ∧
    (∀ f ∈ F.fields, isKnownGroupCounter f.number = false) ∧
    (∃ m, R.sortParts (fastMessage R F) = .ok m) ∧
    (rest ≠ [] ∨ ∃ f ∈ F.fields, C.convert f.tag ≠ some (castInt f.number))

variable {host}

theorem verdict_frame {b : Buffer} (hb : b.length < 2 ^ 32) {F : Frame}
    (hacc : (defaultScanner host).Accepts F) (hF : F.bytes <+: b) :
    (defaultScanner host).verdict b = (.ok, F.index) := by
  have h := ((defaultScanner host).result_ok hb .fresh).2 ⟨F, hacc, hF, rfl⟩
  rw [Scanner.result_eq, Option.some.injEq] at h
  exact h

variable {R C}

theorem answer_ne {b : Buffer} (hb : b.length < 2 ^ 32) (h : Diverges R C host b) :
    answer (R.engine C) host true b ≠ answer (R.engine C) host false b := by
  obtain ⟨F, rest, hacc, rfl, hgroup, ⟨m, hm⟩, hdiff⟩ := h
  have hany : (F.fields.any fun f => isKnownGroupCounter f.number) = false := by
    simpa using hgroup
  rw [answer_frame R C host (verdict_frame hb hacc (List.prefix_append _ _)) (List.prefix_append _ _),
    hany, hm]
  intro heq
  have hstock : stock (R.engine C) (F.bytes ++ rest) = some m := (Option.some.inj heq).symm
  obtain ⟨gs, hgs, hlen, hperm⟩ := stock_frame hstock
  have hfast : m.fields.Perm (F.fields.map fastField) :=
    (FieldRules.sortParts_perm hm).trans (setFields_fresh_perm _ _)
  rw [hfast.length_eq, List.length_map, ← hgs.length_eq] at hlen
  rcases hdiff with hrest | ⟨f, hf, hconv⟩
  · rw [if_neg hrest] at hlen
    omega
  · have hrest : rest = [] := by
      by_contra hne
      rw [if_neg hne] at hlen
      omega
    have hcount := ((hperm hrest).symm.trans hfast).countP_eq (·.tag < 0)
    rw [List.countP_map] at hcount
    have hall := (convert_eq_castInt (fun f hf => (F.fields_tag f hf).1) hgs).2 hcount.ge
    exact hconv (hall f hf)

theorem answer_eq {b : Buffer} (hb : b.length < 2 ^ 32) (h : ¬ Diverges R C host b) :
    answer (R.engine C) host true b = answer (R.engine C) host false b := by
  by_cases hok : ((defaultScanner host).verdict b).1 = .ok
  · have hr := (defaultScanner host).result_eq b .fresh
    rw [← Prod.eta ((defaultScanner host).verdict b), hok] at hr
    obtain ⟨F, hacc, hF, -⟩ := ((defaultScanner host).result_ok hb .fresh).1 hr
    rw [answer_frame R C host (verdict_frame hb hacc hF) hF]
    obtain ⟨rest, rfl⟩ := hF
    split
    · rfl
    rename_i hgroup
    rcases hm : R.sortParts (fastMessage R F) with left | m
    · rfl
    have hsame : rest = [] ∧ ∀ f ∈ F.fields, C.convert f.tag = some (castInt f.number) := by
      by_contra hne
      refine h ⟨F, rest, hacc, rfl, by simpa using hgroup, ⟨m, hm⟩, ?_⟩
      rw [not_and_or] at hne
      rcases hne with hne | hne
      · exact Or.inl hne
      · push Not at hne
        exact Or.inr hne
    obtain ⟨rfl, hconv⟩ := hsame
    have hgs : List.Forall₂ (StockField C) F.fields (F.fields.map fastField) := by
      rw [List.forall₂_map_right_iff, List.forall₂_same]
      exact fun f hf => ⟨hconv f hf, rfl, rfl⟩
    have hlen := length_le_wire F.fields
    have hstock : stock (R.engine C) (F.bytes ++ []) = some m := by
      refine stock_eq_some.2 ⟨fastMessage R F, ?_, hm⟩
      refine (stringLoop_wire (s := (.fresh, .header)) F.fields_tag ?_).2
        ⟨F.fields.map fastField, hgs, ?_⟩
      · rw [List.append_nil, Message.bytes]
        omega
      · obtain ⟨n, hn⟩ := Nat.exists_eq_add_of_lt
          (show 0 < (F.bytes ++ []).length + 1 - F.fields.length by
            rw [List.append_nil, Message.bytes]; omega)
        rw [hn]
        rfl
    exact congrArg some hstock.symm
  · unfold answer
    simp only [Bool.not_true, Bool.false_eq_true, if_false, Bool.not_false, if_true]
    rw [if_neg (by simp [hok])]

/-! ## Turning the pre-parser on -/

variable (R C host)

/-- Turning the pre-parser on changes nothing a caller sees: the same reply, and
    the same message when it is true, from any session and into any message. -/
def SameWithPreparse (b : Buffer) : Prop :=
  ∀ (shim shim' : SessionShim) (out out' : FIX.Message),
    (parseInto (R.engine C) host true shim b out).map (fun r => seen (r.1, r.2.1)) =
      (parseInto (R.engine C) host false shim' b out').map fun r => seen (r.1, r.2.1)

/-- **Turning the pre-parser on changes nothing** exactly on the buffers where
    the fast path does not see another message. -/
theorem sameWithPreparse_iff (b : Buffer) (hb : b.length < 2 ^ 32) :
    SameWithPreparse R C host b ↔ ¬ Diverges R C host b := by
  constructor
  · intro h hd
    have hs := h ⟨.fresh, .replicate _ default, {}⟩ ⟨.fresh, .replicate _ default, {}⟩ .fresh .fresh
    rw [parseInto_answer, parseInto_answer] at hs
    exact answer_ne hb hd hs
  · intro h shim shim' out out'
    rw [parseInto_answer, parseInto_answer]
    exact answer_eq hb h

end

/-! ## A buffer with bytes after its frame -/

theorem sameWithPreparse_plain :
    SameWithPreparse plainRules plainConvertor plainHost plainChecksum ↔
      ¬ Diverges plainRules plainConvertor plainHost plainChecksum :=
  sameWithPreparse_iff plainRules plainConvertor plainHost plainChecksum (by decide)

/-- Two messages in one buffer. -/
def twoMessages : Buffer := plainChecksum ++ plainChecksum

set_option maxRecDepth 8000 in
/-- On two messages in one buffer the fast path leaves the first, `setString`
    both as one. -/
theorem not_sameWithPreparse_twoMessages :
    twoMessages.length < 2 ^ 32 ∧
      ¬ SameWithPreparse plainRules plainConvertor plainHost twoMessages := by
  refine ⟨by decide, fun h => ?_⟩
  have hs := h ⟨.fresh, .replicate _ default, {}⟩ ⟨.fresh, .replicate _ default, {}⟩ .fresh .fresh
  rw [parseInto_answer, parseInto_answer] at hs
  exact absurd hs (by decide)

end Shim
end SwiftFIX
