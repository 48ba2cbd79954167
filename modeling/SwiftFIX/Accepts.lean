/-
  The readings accept exactly the frame grammar.

  `readHead_ok` says which buffers pass the headers, `readBody_ok` and
  `readPieces_ok` which bodies; `ScalarScanner.read_taken` and
  `Avx2Scanner.read_ok` assemble them, in both directions.  What the scalar
  scanner takes is a frame in buffers below `2^32` bytes.
-/
import SwiftFIX.Stops
import SwiftFIX.Lib.EarlyExit

namespace SwiftFIX

open Decimal Delimited EarlyExit

/-! ## Exits -/

/-- The wait for a message is over, and the message is not rejected: it is
    accepted or left to QuickFIX. -/
def ScanStatus.Arrived (st : ScanStatus) : Prop :=
  st = .ok ∨ st = .fallbackRequested ∨ st = .tableFull

/-- No exit carries the status `ok`. -/
abbrev Fails {α : Type} (c : Read α) : Prop := Run (fun r => r.status ≠ .ok) (fun _ => True) c

theorem Fails.ofRead_eq {c : Read (List Field)} (h : Fails c) {fs : List Field} :
    Reading.ofRead c = ⟨.ok, fs⟩ ↔ c = .ok fs := by
  cases c with
  | ok gs => simp [Reading.ofRead]
  | error r =>
    simp only [Reading.ofRead, reduceCtorEq, iff_false]
    rintro rfl
    exact h rfl

/-- The headers accept nothing by themselves. -/
theorem readHead_exits (b : Buffer) :
    Run (fun r => ¬ r.status.Arrived) (fun _ => True) (readHead b) := by
  unfold readHead
  refine Run.ite (fun _ => Run.exit (by simp [ScanStatus.Arrived])) fun _ => ?_
  refine Run.bind (R := fun _ => True) ?_ fun ⟨f8, s⟩ _ => ?_
  · unfold readTag8
    split
    · exact Run.exit (by simp [ScanStatus.Arrived])
    · split
      · exact Run.exit (by simp [ScanStatus.Arrived])
      · exact Run.ok trivial
  refine Run.bind (R := fun _ => True) ?_ fun ⟨f9, t⟩ _ => ?_
  · unfold readTag9
    refine Run.ite (fun _ => Run.exit (by simp [ScanStatus.Arrived])) fun _ => ?_
    split
    · exact Run.exit (by simp [ScanStatus.Arrived])
    · refine Run.ite (fun _ => Run.exit (by simp [ScanStatus.Arrived])) fun _ => ?_
      split
      · exact Run.exit (by simp [ScanStatus.Arrived])
      · exact Run.ite (fun _ => Run.exit (by simp [ScanStatus.Arrived])) fun _ => Run.ok trivial
  refine Run.bind (R := fun _ => True) ?_ fun _ _ => ?_
  · exact Run.ite (fun _ => Run.exit (by simp [ScanStatus.Arrived])) fun _ => Run.ok trivial
  refine Run.bind (R := fun _ => True) ?_ fun ⟨f35, u⟩ _ => Run.ok trivial
  unfold readTag35
  split
  · exact Run.exit (by simp [ScanStatus.Arrived])
  · split
    · exact Run.exit (by simp [ScanStatus.Arrived])
    · exact Run.ok trivial

theorem readHead_fails (b : Buffer) : Fails (readHead b) :=
  (readHead_exits b).mono (fun _ h hok => h (Or.inl hok)) fun _ _ => trivial

/-! ## The headers -/

/-- The headers a scanner lets through. -/
structure Head.WellFormed (h : Head) : Prop where
  tag8 : h.f8.tag = [ch '8']
  value8 : SOH ∉ h.f8.value
  tag9 : h.f9.tag = [ch '9']
  value9 : Numeral h.f9.value
  value9_ne : h.f9.value ≠ []
  tag35 : h.f35.tag = [ch '3', ch '5']
  value35 : SOH ∉ h.f35.value

theorem readTag8_ok {b t : List Byte} {f : Field} :
    readTag8 b = .ok (f, t) ↔ b = f.bytes ++ t ∧ f.tag = [ch '8'] ∧ SOH ∉ f.value := by
  unfold readTag8
  constructor
  · intro h
    rcases hs : strip [ch '8', ch '='] b with _ | s
    · rw [hs] at h; cases h
    · rcases hc : cut SOH s with _ | ⟨v, u⟩
      · rw [hs] at h; simp only [hc] at h; cases h
      · rw [hs] at h
        simp only [hc, Except.ok.injEq, Prod.mk.injEq] at h
        obtain ⟨rfl, rfl⟩ := h
        obtain ⟨rfl, hv⟩ := cut_some.1 hc
        rw [strip_some.1 hs]
        exact ⟨by simp [Field.bytes], rfl, hv⟩
  · rintro ⟨rfl, ht, hv⟩
    obtain ⟨tag, v⟩ := f
    simp only at ht hv
    subst ht
    have hs : strip [ch '8', ch '='] (Field.bytes ⟨[ch '8'], v⟩ ++ t) = some (v ++ SOH :: t) :=
      strip_some.2 (by simp [Field.bytes])
    simp only [hs, cut_append hv]

theorem readTag9_ok {f8 f : Field} {s t : List Byte} :
    readTag9 f8 s = .ok (f, t) ↔
      s = f.bytes ++ t ∧ f.tag = [ch '9'] ∧ Numeral f.value ∧ f.value ≠ [] := by
  unfold readTag9
  constructor
  · intro h
    split at h
    · cases h
    rcases hs : strip [ch '9', ch '='] s with _ | s'
    · rw [hs] at h; cases h
    · rw [hs] at h
      simp only at h
      split at h
      · cases h
      · rename_i hn
        rcases hc : cut SOH s' with _ | ⟨v, u⟩
        · simp only [hc] at h; cases h
        · simp only [hc] at h
          split at h
          · cases h
          · rename_i hv
            simp only [Except.ok.injEq, Prod.mk.injEq] at h
            obtain ⟨rfl, rfl⟩ := h
            obtain ⟨rfl, hv'⟩ := cut_some.1 hc
            rw [upTo_append hv', not_not] at hn
            rw [strip_some.1 hs]
            exact ⟨by simp [Field.bytes], rfl, hn, hv⟩
  · rintro ⟨rfl, ht, hn, hv⟩
    obtain ⟨tag, v⟩ := f
    simp only at ht hn hv
    subst ht
    have hlen : ¬ (Field.bytes ⟨[ch '9'], v⟩ ++ t).length < 2 := by
      rw [List.length_append, Field.bytes_length, Field.size]; omega
    have hs : strip [ch '9', ch '='] (Field.bytes ⟨[ch '9'], v⟩ ++ t) = some (v ++ SOH :: t) :=
      strip_some.2 (by simp [Field.bytes])
    rw [if_neg hlen]
    simp only [hs, upTo_append hn.soh_notMem, hn, not_true, if_false, cut_append hn.soh_notMem, hv]

theorem readTag35_ok {f8 f9 f : Field} {s t : List Byte} :
    readTag35 f8 f9 s = .ok (f, t) ↔
      s = f.bytes ++ t ∧ f.tag = [ch '3', ch '5'] ∧ SOH ∉ f.value := by
  unfold readTag35
  constructor
  · intro h
    rcases hs : strip [ch '3', ch '5', ch '='] s with _ | s'
    · rw [hs] at h; cases h
    · rw [hs] at h
      rcases hc : cut SOH s' with _ | ⟨v, u⟩
      · simp only [hc] at h; cases h
      · simp only [hc, Except.ok.injEq, Prod.mk.injEq] at h
        obtain ⟨rfl, rfl⟩ := h
        obtain ⟨rfl, hv⟩ := cut_some.1 hc
        rw [strip_some.1 hs]
        exact ⟨by simp [Field.bytes], rfl, hv⟩
  · rintro ⟨rfl, ht, hv⟩
    obtain ⟨tag, v⟩ := f
    simp only at ht hv
    subst ht
    have hs : strip [ch '3', ch '5', ch '='] (Field.bytes ⟨[ch '3', ch '5'], v⟩ ++ t) =
        some (v ++ SOH :: t) := strip_some.2 (by simp [Field.bytes])
    simp only [hs, cut_append hv]

theorem readBounds_ok {f8 f9 : Field} {s : List Byte} :
    readBounds f8 f9 s = .ok () ↔ Decimal.value f9.value + 7 ≤ s.length := by
  unfold readBounds
  split
  · simp; omega
  · simp; omega

/-- **The headers pass** iff the buffer starts with the three header fields and
    holds the declared body with seven more bytes. -/
theorem readHead_ok {b : Buffer} {h : Head} :
    readHead b = .ok h ↔
      h.WellFormed ∧ b = wire h.fields ++ h.rest ∧ h.bodyEnd + 7 ≤ b.length := by
  have hb : ∀ s, b = h.f8.bytes ++ (h.f9.bytes ++ s) →
      (h.bodyEnd + 7 ≤ b.length ↔ h.bodyLen + 7 ≤ s.length) := by
    rintro s rfl
    simp only [Head.bodyEnd, Head.bodyStart, wire_cons, wire_nil, List.length_append,
      List.length_nil]
    omega
  unfold readHead
  constructor
  · intro hr
    split at hr
    · cases hr
    obtain ⟨⟨f8, s⟩, h8, hr⟩ := bind_eq_ok.1 hr
    obtain ⟨⟨f9, t⟩, h9, hr⟩ := bind_eq_ok.1 hr
    obtain ⟨⟨⟩, hbnd, hr⟩ := bind_eq_ok.1 hr
    obtain ⟨⟨f35, u⟩, h35, hr⟩ := bind_eq_ok.1 hr
    cases hr
    obtain ⟨hb8, t8, v8⟩ := readTag8_ok.1 h8
    obtain ⟨hb9, t9, n9, v9⟩ := readTag9_ok.1 h9
    obtain ⟨hb35, t35, v35⟩ := readTag35_ok.1 h35
    refine ⟨⟨t8, v8, t9, n9, v9, t35, v35⟩, ?_, ?_⟩
    · rw [hb8, hb9, hb35]
      simp [Head.fields, wire_cons, wire_nil]
    · exact (hb t (by rw [hb8, hb9])).2 (readBounds_ok.1 hbnd)
  · rintro ⟨hw, hbytes, hlen⟩
    have hsplit : b = h.f8.bytes ++ (h.f9.bytes ++ (h.f35.bytes ++ h.rest)) := by
      rw [hbytes]; simp [Head.fields, wire_cons, wire_nil]
    have h12 : ¬ b.length < 12 := by
      have h8 : h.f8.size = 1 + h.f8.value.length + 2 := by rw [Field.size, hw.tag8]; rfl
      have h9 : h.f9.size = 1 + h.f9.value.length + 2 := by rw [Field.size, hw.tag9]; rfl
      have hpos := List.length_pos_iff.2 hw.value9_ne
      simp only [Head.bodyEnd, Head.bodyStart, wire_cons, wire_nil, List.length_append,
        Field.bytes_length, List.length_nil] at hlen
      omega
    rw [if_neg h12, readTag8_ok.2 ⟨hsplit, hw.tag8, hw.value8⟩, ok_bind]
    simp only
    rw [readTag9_ok.2 ⟨rfl, hw.tag9, hw.value9, hw.value9_ne⟩, ok_bind]
    simp only
    rw [readBounds_ok.2 ((hb _ hsplit).1 hlen), ok_bind,
      readTag35_ok.2 ⟨rfl, hw.tag35, hw.value35⟩, ok_bind]

/-! ## From headers to frames -/

/-- The headers of a message, followed by `t`. -/
def Message.head (M : Message) (t : List Byte) : Head :=
  ⟨M.f8, M.f9, M.f35, wire M.body ++ (M.checksum.bytes ++ t)⟩

theorem Message.head_bodyLen (M : Message) (t : List Byte) :
    (M.head t).bodyLen = M.f35.size + (wire M.body).length := by
  have h := M.length_eq
  rw [wire_cons_length] at h
  exact h.symm

theorem Message.readHead_eq (M : Message) (t : List Byte) :
    readHead (M.bytes ++ t) = .ok (M.head t) := by
  refine readHead_ok.2 ⟨⟨rfl, M.beginString_open, rfl, M.bodyLength_numeral, M.bodyLength_ne,
    rfl, M.msgType_open⟩, ?_, ?_⟩
  · simp [M.bytes_eq, Message.head, Head.fields, wire_cons, wire_nil]
  · have hcks := M.checksum_field.size_ge
    have hL : (wire (M.f35 :: M.body)).length = (M.head t).bodyLen := M.length_eq
    have hstart : (M.head t).bodyStart = (wire [M.f8, M.f9]).length := rfl
    simp only [Head.bodyEnd, hstart, M.bytes_eq, List.length_append, Field.bytes_length, hL]
    omega

/-- Accepted headers, a body of the declared length and a checksum field make a
    frame. -/
theorem Head.WellFormed.exists_frame {h : Head} (hw : h.WellFormed) {body : List Field} {f : Field}
    (hbody : ∀ g ∈ body, BodyField g) (hcks : ChecksumField f)
    (hlen : h.f35.size + (wire body).length = h.bodyLen) (hroom : body.length + 4 ≤ kMaxFields) :
    ∃ F : Frame, F.fields = h.fields ++ (body ++ [f]) ∧ F.checksum = f := by
  obtain ⟨⟨tag8, value8⟩, ⟨tag9, value9⟩, ⟨tag35, value35⟩, rest⟩ := h
  obtain rfl : tag8 = _ := hw.tag8
  obtain rfl : tag9 = _ := hw.tag9
  obtain rfl : tag35 = _ := hw.tag35
  refine ⟨⟨⟨value8, value9, value35, body, f, hw.value8, hw.value9, hw.value9_ne, hw.value35,
    hbody, hcks, ?_⟩, hroom⟩, rfl, rfl⟩
  rw [wire_cons_length]
  exact hlen

/-! ## The scalar scanner -/

namespace ScalarScanner

theorem readBody_ok {left : ℕ} {fs fs' : List Field} {s t : List Byte}
    (hmax : fs.length ≤ kMaxFields) :
    readBody fs left s = .ok (fs', some t) ↔
      ∃ gs, fs' = fs ++ gs ∧ s = wire gs ++ t ∧ (wire gs).length = left ∧
        (∀ g ∈ gs, BodyField g) ∧ fs'.length ≤ kMaxFields := by
  constructor
  · intro h
    obtain ⟨gs, u, rfl, hgs, hle, hroom, hstop⟩ := readBody_stops left fs s
    rw [h] at hstop
    cases hstop with
    | done ends =>
      refine ⟨gs, rfl, rfl, by omega, hgs, ?_⟩
      rw [List.length_append]
      exact hroom hmax
  · rintro ⟨gs, rfl, rfl, hlen, hgs, hle⟩
    rw [List.length_append] at hle
    rw [readBody_skip hgs t hle hlen.le]
    exact (BodyStop.done (by omega)).readBody_eq

theorem digitsAt_value {fs : List Field} {f : Field} {t : List Byte} {b : Buffer}
    (hb : b = wire fs ++ (f.bytes ++ t)) (hlt : (wire fs).length + f.size ≤ 2 ^ 32)
    (h3 : f.value.length = 3) :
    DigitsAt b (u32 ((wire fs).length + f.tag.length + 1)) ↔ ∀ c ∈ f.value, IsDigit c := by
  rw [Field.size] at hlt
  have hd : b.drop ((wire fs).length + f.tag.length + 1) = f.value ++ SOH :: t := by
    rw [hb, Nat.add_assoc, ← List.drop_drop, List.drop_left, Field.bytes, List.append_assoc,
      ← List.drop_drop, List.drop_left]
    simp
  rw [u32_of_lt (by omega), DigitsAt, hd, List.take_append_of_le_length h3.ge, ← h3,
    List.take_length]

/-- The field at offset `p` ends a scan: the tag number 10, and a value whose
    length and offset, as 32-bit numbers, are those of three digits. -/
structure EndingField (b : Buffer) (p : ℕ) (f : Field) : Prop where
  tag : Tag f.tag
  number : f.number = 10
  value : SOH ∉ f.value
  length : u32 f.value.length = 3
  digits : DigitsAt b (u32 (p + f.tag.length + 1))

theorem endingField_iff {b : Buffer} {fs : List Field} {f : Field} {t : List Byte}
    (hb : b = wire fs ++ (f.bytes ++ t)) (hlt : (wire fs).length + f.size ≤ 2 ^ 32) :
    EndingField b (wire fs).length f ↔ ChecksumField f := by
  constructor
  · rintro ⟨htag, h10, -, h3, hd⟩
    have hsize := hlt
    rw [Field.size] at hsize
    rw [u32_of_lt (by omega)] at h3
    exact ⟨htag, h10, h3, (digitsAt_value hb hlt h3).1 hd⟩
  · intro h
    refine ⟨h.tag, h.number, h.value, ?_, (digitsAt_value hb hlt h.length).2 h.digits⟩
    rw [h.length]
    rfl

theorem readEnding_ok {b : Buffer} {fs fs' : List Field} {s : List Byte} :
    readEnding b fs (some s) = .ok fs' ↔
      ∃ f t, fs' = fs ++ [f] ∧ s = f.bytes ++ t ∧ EndingField b (wire fs).length f ∧
        fs.length < kMaxFields := by
  constructor
  · intro h
    rw [readEnding] at h
    split at h
    · cases h
    · cases h
    rename_i f t hr
    obtain ⟨rfl, htag, hval⟩ := readField_field.1 hr
    split at h
    · cases h
    rename_i h10
    split at h
    · cases h
    rename_i h3
    split at h
    · cases h
    rename_i hd
    split at h
    · cases h
    rename_i hroom
    cases h
    exact ⟨f, t, rfl, rfl, ⟨htag, not_not.1 h10, hval, not_not.1 h3, not_not.1 hd⟩, by omega⟩
  · rintro ⟨f, t, rfl, rfl, ⟨htag, h10, hval, h3, hd⟩, hroom⟩
    rw [readEnding, readField_field.2 ⟨rfl, htag, hval⟩]
    simp only [h10, h3]
    rw [if_neg (by simp), if_neg (by decide), if_neg (not_not_intro hd), if_neg (by omega)]

theorem readBody_fails (left : ℕ) (fs : List Field) (s : List Byte) :
    Fails (readBody fs left s) := by
  obtain ⟨gs, t, -, -, -, -, hstop⟩ := readBody_stops left fs s
  generalize readBody fs left s = c at hstop ⊢
  cases hstop with
  | done => exact Run.ok trivial
  | overrun => exact Run.ok trivial
  | full => exact Run.exit (by simp)
  | truncated => exact Run.exit (by simp)
  | malformed => exact Run.exit (by simp)
  | embedded => exact Run.exit (by simp)

theorem readEnding_fails (b : Buffer) (fs : List Field) (e : Option (List Byte)) :
    Fails (readEnding b fs e) := by
  unfold readEnding
  split
  · exact Run.exit (by simp)
  · split
    · exact Run.exit (by simp)
    · exact Run.exit (by simp)
    · refine Run.ite (fun _ => Run.exit (by simp)) fun _ => ?_
      refine Run.ite (fun _ => Run.exit (by simp)) fun _ => ?_
      refine Run.ite (fun _ => Run.exit (by simp)) fun _ => ?_
      exact Run.ite (fun _ => Run.exit (by simp)) fun _ => Run.ok trivial

theorem readMessage_fails (b : Buffer) :
    Fails (do let h ← readHead b; let x ← readRest h; readEnding b x.1 x.2) := by
  refine Run.bind (readHead_fails b) fun h _ => Run.bind (R := fun _ => True) ?_ fun x _ =>
    readEnding_fails b x.1 x.2
  exact Run.ite (fun _ => Run.ok trivial) fun _ => readBody_fails _ _ _

/-- **A message the scalar scanner takes**, of any length: the headers `h`, a
    body that fills the declared length, and the ending. -/
structure Taken (b : Buffer) (h : Head) (body : List Field) (f : Field) : Prop where
  head : h.WellFormed
  bytes : b = wire h.fields ++ h.rest
  rest : wire (body ++ [f]) <+: h.rest
  fields : ∀ g ∈ body, BodyField g
  length : h.f35.size + (wire body).length = h.bodyLen
  ending : EndingField b (wire (h.fields ++ body)).length f
  room : body.length + 4 ≤ kMaxFields

/-- **The scalar reading accepts exactly these messages.** -/
theorem read_taken {b : Buffer} {fs : List Field} :
    read b = ⟨.ok, fs⟩ ↔ ∃ h body f, Taken b h body f ∧ fs = h.fields ++ body ++ [f] := by
  refine (readMessage_fails b).ofRead_eq.trans ?_
  constructor
  · intro hread
    obtain ⟨h, hh, hr⟩ := bind_eq_ok.1 hread
    obtain ⟨⟨gs, e⟩, hrest, hend⟩ := bind_eq_ok.1 hr
    obtain ⟨hw, hb, -⟩ := readHead_ok.1 hh
    unfold readRest at hrest
    split at hrest
    · cases hrest
      cases hend
    rename_i hsize
    rcases e with _ | s
    · cases hend
    obtain ⟨body, rfl, hs, hlen, hbody, -⟩ := (readBody_ok h.fields_length_le).1 hrest
    obtain ⟨f, t, rfl, rfl, hf, hroom⟩ := readEnding_ok.1 hend
    rw [h.fields_append_length] at hroom
    refine ⟨h, body, f, ⟨hw, hb, ⟨t, ?_⟩, hbody, by omega, hf, by omega⟩, rfl⟩
    rw [hs, wire_append, wire_singleton, List.append_assoc]
  · rintro ⟨h, body, f, ⟨hw, hb, ⟨t, ht⟩, hbody, hlen, hf, hroom⟩, rfl⟩
    have h3 : h.fields.length = 3 := rfl
    rw [wire_append, wire_singleton, List.append_assoc] at ht
    refine bind_eq_ok.2 ⟨h, readHead_ok.2 ⟨hw, hb, ?_⟩, bind_eq_ok.2
      ⟨(h.fields ++ body, some (f.bytes ++ t)), ?_, ?_⟩⟩
    · -- the ending has at least seven bytes
      have h2 := hf.tag.two_le_length hf.number.ge
      have hv := u32_le f.value.length
      rw [hf.length] at hv
      have h7 : 7 ≤ f.size := by rw [Field.size]; omega
      rw [hb, ← ht, Head.bodyEnd, ← hlen, List.length_append, h.wire_fields_length,
        List.length_append, List.length_append, f.bytes_length]
      omega
    · unfold readRest
      rw [if_neg (by omega)]
      refine (readBody_ok h.fields_length_le).2 ⟨body, rfl, ht.symm, by omega, hbody, ?_⟩
      rw [List.length_append]
      omega
    · refine readEnding_ok.2 ⟨f, t, rfl, rfl, hf, ?_⟩
      rw [List.length_append]
      omega

/-- **The scalar reading accepts exactly the frames.** -/
theorem read_ok {b : Buffer} (hlt : b.length < 2 ^ 32) {fs : List Field} :
    read b = ⟨.ok, fs⟩ ↔ ∃ F : Frame, F.fields = fs ∧ F.bytes <+: b := by
  have hfits : ∀ {fs : List Field} {f : Field} {t : List Byte}, b = wire fs ++ (f.bytes ++ t) →
      (wire fs).length + f.size ≤ 2 ^ 32 := by
    rintro fs f t rfl
    rw [List.length_append, List.length_append, f.bytes_length] at hlt
    omega
  refine read_taken.trans ?_
  constructor
  · rintro ⟨h, body, f, ⟨hw, hb, ⟨t, ht⟩, hbody, hlen, hf, hroom⟩, rfl⟩
    have hb' : b = wire (h.fields ++ body) ++ (f.bytes ++ t) := by
      rw [hb, ← ht, wire_append, wire_append, wire_singleton, List.append_assoc, List.append_assoc]
    obtain ⟨F, hF, -⟩ := hw.exists_frame hbody ((endingField_iff hb' (hfits hb')).1 hf) hlen hroom
    refine ⟨F, by rw [hF, List.append_assoc], t, ?_⟩
    rw [Message.bytes, hF, hb', ← List.append_assoc, wire_append, wire_singleton, List.append_assoc]
  · rintro ⟨F, rfl, t, rfl⟩
    have hb : F.bytes ++ t = wire (F.f8 :: F.f9 :: F.f35 :: F.body) ++ (F.checksum.bytes ++ t) := by
      simp [F.bytes_eq, wire_cons, wire_nil]
    obtain ⟨hw, hbytes, -⟩ := readHead_ok.1 (F.readHead_eq t)
    refine ⟨F.head t, F.body, F.checksum, ⟨hw, hbytes, ⟨t, ?_⟩, F.body_fields, ?_, ?_, F.room⟩, rfl⟩
    · rw [wire_append, wire_singleton, List.append_assoc]
      rfl
    · exact (F.head_bodyLen t).symm
    · exact (endingField_iff hb (hfits hb)).2 F.checksum_field

end ScalarScanner

/-! ## The AVX2 scanner -/

theorem Message.wire_head_body (M : Message) (t : List Byte) :
    (wire ((M.head t).fields ++ M.body)).length = (M.head t).bodyEnd := by
  rw [Head.wire_fields_append_length, Head.bodyEnd, M.head_bodyLen]
  rfl

/-- The window of a canonical message holds its body and its trailer. -/
theorem Message.Canonical.pieces_window {M : Message} (hc : M.Canonical) (t : List Byte) :
    pieces SOH (Avx2Scanner.window (M.head t)) = M.body.map Field.piece ++ [M.checksum.piece] := by
  have hwin : Avx2Scanner.window (M.head t) = wire M.body ++ M.checksum.bytes := by
    rw [Avx2Scanner.window, M.head_bodyLen, Message.head, ← List.append_assoc]
    refine List.take_left' ?_
    rw [List.length_append, M.checksum.bytes_length, hc.checksum_size]
    simp only
    omega
  rw [hwin]
  refine pieces_eq.2 ⟨[], ?_, by simp, ?_⟩
  · simp [wire_eq M.body, Field.bytes_eq]
  · intro s hs
    rcases List.mem_append.1 hs with hs | hs
    · obtain ⟨g, hg, rfl⟩ := List.mem_map.1 hs
      exact (M.body_fields g hg).tag.piece_open (M.body_fields g hg).value
    · rw [List.mem_singleton.1 hs]
      exact M.checksum_field.tag.piece_open M.checksum_field.value

namespace Avx2Scanner

theorem readPieces_ok {ps : List (List Byte)} {fs fs' : List Field} (hmax : fs.length ≤ kMaxFields) :
    readPieces fs ps = .ok fs' ↔
      ∃ gs, fs' = fs ++ gs ∧ ps = gs.map Field.piece ∧ (∀ g ∈ gs, TakenField g) ∧
        fs'.length ≤ kMaxFields := by
  constructor
  · intro h
    obtain ⟨gs, qs, rfl, hgs, hroom, hstop⟩ := readPieces_stops ps fs
    rw [h] at hstop
    cases hstop with
    | done =>
      refine ⟨gs, rfl, List.append_nil _, hgs, ?_⟩
      rw [List.length_append]
      exact hroom hmax
  · rintro ⟨gs, rfl, rfl, hgs, hle⟩
    rw [List.length_append] at hle
    have hskip := readPieces_skip hgs [] hle
    rwa [List.append_nil] at hskip

theorem readTrailer_ok {bodyEnd : ℕ} {fs fs' : List Field} {s : List Byte} :
    readTrailer bodyEnd fs s = .ok fs' ↔
      ∃ f, fs' = fs ++ [f] ∧ s = f.piece ∧ f.tag = ascii ['1', '0'] ∧ ChecksumField f ∧
        (wire fs).length = bodyEnd ∧ fs.length < kMaxFields := by
  unfold readTrailer
  constructor
  · intro h
    split at h
    · cases h
    rename_i hend
    split at h
    · cases h
    rename_i h6
    split at h
    · cases h
    rename_i d hs
    rw [strip_some] at hs
    split at h
    · cases h
    rename_i hd
    split at h
    · cases h
    rename_i hroom
    cases h
    have h3 : d.length = 3 := by
      rw [not_not, hs, List.length_append] at h6
      simp at h6
      omega
    exact ⟨_, rfl, hs, rfl, .of_digits h3 (not_not.1 hd), not_not.1 hend, by omega⟩
  · rintro ⟨⟨tag, d⟩, rfl, rfl, htag, hcks, hend, hroom⟩
    simp only at htag
    subst htag
    have h3 : d.length = 3 := hcks.length
    have hs : strip [ch '1', ch '0', ch '='] (Field.piece ⟨ascii ['1', '0'], d⟩) = some d :=
      strip_some.2 rfl
    have h6 : (Field.piece ⟨ascii ['1', '0'], d⟩).length = 6 := by
      simp [Field.piece, ascii, h3]
    rw [if_neg (not_not_intro hend), if_neg (not_not_intro h6), hs]
    simp only
    rw [if_neg (not_not_intro hcks.digits), if_neg (by omega)]
    rfl

theorem readPieces_fails (ps : List (List Byte)) (fs : List Field) : Fails (readPieces fs ps) := by
  obtain ⟨gs, qs, -, -, -, hstop⟩ := readPieces_stops ps fs
  generalize readPieces fs ps = c at hstop ⊢
  cases hstop with
  | done => exact Run.ok trivial
  | full => exact Run.exit (by simp)
  | malformed => exact Run.exit (by simp)
  | embedded => exact Run.exit (by simp)

theorem readTrailer_fails (bodyEnd : ℕ) (fs : List Field) (s : List Byte) :
    Fails (readTrailer bodyEnd fs s) := by
  unfold readTrailer
  refine Run.ite (fun _ => Run.exit (by simp)) fun _ => ?_
  refine Run.ite (fun _ => Run.exit (by simp)) fun _ => ?_
  split
  · exact Run.exit (by simp)
  · refine Run.ite (fun _ => Run.exit (by simp)) fun _ => ?_
    exact Run.ite (fun _ => Run.exit (by simp)) fun _ => Run.ok trivial

theorem readMessage_fails (b : Buffer) : Fails (do let h ← readHead b; readRest h) := by
  refine Run.bind (readHead_fails b) fun h _ => ?_
  unfold readRest
  refine Run.ite (fun _ => Run.exit (by simp)) fun _ => ?_
  split
  · exact Run.exit (by simp)
  · exact Run.bind (readPieces_fails _ _) fun _ _ => readTrailer_fails _ _ _

theorem readRest_ok {h : Head} {fs : List Field} :
    readRest h = .ok fs ↔
      ∃ gs f, fs = h.fields ++ gs ++ [f] ∧ pieces SOH (window h) = gs.map Field.piece ++ [f.piece] ∧
        (∀ g ∈ gs, TakenField g) ∧ f.tag = ascii ['1', '0'] ∧
        ChecksumField f ∧ (wire (h.fields ++ gs)).length = h.bodyEnd ∧
        (h.fields ++ gs).length < kMaxFields := by
  unfold readRest
  constructor
  · intro hr
    simp only at hr
    split at hr
    · cases hr
    split at hr
    · cases hr
    rename_i s hlast
    obtain ⟨fs', hps, htr⟩ := bind_eq_ok.1 hr
    obtain ⟨gs, rfl, hgs, hfields, -⟩ := (readPieces_ok h.fields_length_le).1 hps
    obtain ⟨f, rfl, rfl, htag, hcks, hend, hroom⟩ := readTrailer_ok.1 htr
    refine ⟨gs, f, rfl, ?_, hfields, htag, hcks, hend, hroom⟩
    rw [← hgs]
    exact (List.dropLast_append_getLast? _ hlast).symm
  · rintro ⟨gs, f, rfl, hps, hfields, htag, hcks, hend, hroom⟩
    have hlen : (pieces SOH (window h)).length = gs.length + 1 := by
      rw [hps, List.length_append, List.length_map, List.length_singleton]
    have h3 := h.fields_append_length gs
    simp only
    rw [if_neg (by omega), hps, List.getLast?_concat, List.dropLast_concat]
    refine bind_eq_ok.2 ⟨h.fields ++ gs, ?_, ?_⟩
    · exact (readPieces_ok h.fields_length_le).2 ⟨gs, rfl, rfl, hfields, hroom.le⟩
    · exact readTrailer_ok.2 ⟨f, rfl, rfl, htag, hcks, hend, hroom⟩

/-- **The AVX2 reading accepts exactly the canonical frames.** -/
theorem read_ok {b : Buffer} {fs : List Field} :
    read b = ⟨.ok, fs⟩ ↔ ∃ F : Frame, F.fields = fs ∧ F.Canonical ∧ F.bytes <+: b := by
  refine (readMessage_fails b).ofRead_eq.trans ?_
  constructor
  · intro hr
    obtain ⟨h, hh, hr⟩ := bind_eq_ok.1 hr
    obtain ⟨gs, f, rfl, hps, hfields, htag, hcks, hend, hroom⟩ := readRest_ok.1 hr
    obtain ⟨hw, hb, -⟩ := readHead_ok.1 hh
    obtain ⟨t, hwin, -, hopen⟩ := pieces_eq.1 hps
    have hbody : ∀ g ∈ gs, BodyField g := fun g hg =>
      (hfields g hg).body (hopen g.piece (List.mem_append_left _ (List.mem_map_of_mem hg)))
    have hlen : h.f35.size + (wire gs).length = h.bodyLen := by
      rw [h.wire_fields_append_length, Head.bodyEnd] at hend
      exact Nat.add_left_cancel hend
    rw [h.fields_append_length] at hroom
    obtain ⟨F, hF, rfl⟩ := hw.exists_frame hbody hcks hlen hroom
    refine ⟨F, by rw [hF, List.append_assoc], htag, t ++ h.rest.drop (h.bodyLen + 7 - h.f35.size),
      ?_⟩
    conv_rhs => rw [hb, ← window_append_drop h, hwin]
    rw [Message.bytes, hF]
    simp [wire_append, wire_eq gs, wire_singleton, Field.bytes_eq]
  · rintro ⟨F, rfl, hc, t, rfl⟩
    have hroom := F.room
    refine bind_eq_ok.2 ⟨_, F.readHead_eq t, readRest_ok.2 ⟨F.body, F.checksum, rfl,
      Message.Canonical.pieces_window hc t, ?_, hc, F.checksum_field, F.wire_head_body t, ?_⟩⟩
    · exact fun g hg => (F.body_fields g hg).taken
    · rw [Head.fields_append_length]
      omega

end Avx2Scanner
end SwiftFIX
