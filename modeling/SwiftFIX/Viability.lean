/-
  Which beginnings of a message can still become one.

  * `HeadersOpen`: the buffers on which the headers wait;
  * `Opening`: the buffer ends inside field 8 or 9, which can be completed;
  * `ScalarScanner.Viable` and `Avx2Scanner.Viable`: what may follow a complete
    field 9, complete fields and the beginning of one more, for which the
    declared body has room.
-/
import SwiftFIX.Waiting
import SwiftFIX.Arrival

namespace SwiftFIX

open Decimal Delimited EarlyExit

/-! ## Beginnings of fields on the wire -/

/-- A beginning of `wire fs ++ t` has all the fields, or ends inside one. -/
theorem wire_cut {t : List Byte} (fs : List Field) :
    ∀ {y : List Byte}, y <+: wire fs ++ t →
      (∃ v, y = wire fs ++ v ∧ v <+: t) ∨
        ∃ gs f hs v, fs = gs ++ f :: hs ∧ y = wire gs ++ v ∧ v <+: f.piece := by
  induction fs with
  | nil => exact fun h => Or.inl ⟨_, rfl, h⟩
  | cons f fs ih =>
    intro y h
    rw [wire_cons, List.append_assoc] at h
    by_cases hy : f.bytes <+: y
    · obtain ⟨y, rfl⟩ := hy
      rcases ih ((List.prefix_append_right_inj _).1 h) with
        ⟨v, rfl, hv⟩ | ⟨gs, g, hs, v, rfl, rfl, hv⟩
      · exact Or.inl ⟨v, by rw [wire_cons, List.append_assoc], hv⟩
      · exact Or.inr ⟨f :: gs, g, hs, v, rfl, by rw [wire_cons, List.append_assoc], hv⟩
    · have hle := (List.prefix_or_prefix_of_prefix h (List.prefix_append _ _)).resolve_right hy
      rw [f.bytes_eq, List.prefix_concat_iff, ← f.bytes_eq] at hle
      rcases hle with rfl | hle
      · exact absurd List.prefix_rfl hy
      · exact Or.inr ⟨[], f, fs, y, rfl, rfl, hle⟩

theorem Begun.tail {gs hs : List Field} {f : Field} (h : Begun (gs ++ f :: hs)) :
    Begun (gs ++ [f]) := by
  cases gs with
  | nil => exact ⟨h.1, by simp⟩
  | cons g gs =>
    refine ⟨h.1, fun x hx => h.2 x ?_⟩
    rcases List.mem_append.1 hx with hx | hx
    · exact List.mem_append_left _ hx
    · exact List.mem_append_right _ (List.mem_singleton.1 hx ▸ List.mem_cons_self)

/-! ## The fields 8 and 9 -/

section
variable {b e : Buffer} {f8 f9 f8' f9' : Field} {y y' : List Byte}

theorem Declared.readTag8_eq (h : Declared b f8 f9 y) :
    readTag8 b = .ok (f8, f9.bytes ++ y) :=
  readTag8_ok.2 ⟨by rw [h.bytes, wire_cons, wire_singleton, List.append_assoc], h.tag8, h.value8⟩

theorem Declared.readTag9_eq (h : Declared b f8 f9 y) :
    readTag9 f8 (f9.bytes ++ y) = .ok (f9, y) :=
  readTag9_ok.2 ⟨rfl, h.tag9, h.value9, h.value9_ne⟩

/-- The fields 8 and 9 are the same in every longer buffer. -/
theorem Declared.unique
    (h : Declared b f8 f9 y) (h' : Declared (b ++ e) f8' f9' y') :
    f8' = f8 ∧ f9' = f9 ∧ y' = y ++ e := by
  have h := h.append e
  have h8 := h.readTag8_eq
  rw [h'.readTag8_eq, Except.ok.injEq, Prod.mk.injEq] at h8
  obtain ⟨rfl, hrest⟩ := h8
  have h9 := h.readTag9_eq
  rw [← hrest, h'.readTag9_eq, Except.ok.injEq, Prod.mk.injEq] at h9
  exact ⟨rfl, h9.1, h9.2⟩

/-- The buffer ends inside field 8, or inside field 9 with a numeral as far as
    it goes. -/
inductive Opening (b : Buffer) : Prop
  | inside8 {f8 : Field} (tag8 : f8.tag = [ch '8']) (value8 : SOH ∉ f8.value)
      (bytes : b <+: f8.piece)
  | inside9 {f8 f9 : Field} {u : List Byte} (tag8 : f8.tag = [ch '8']) (value8 : SOH ∉ f8.value)
      (tag9 : f9.tag = [ch '9']) (value9 : Numeral f9.value) (bytes : b = f8.bytes ++ u)
      (inside : u <+: f9.piece)

/-- A beginning of a buffer with complete fields 8 and 9 is an opening, or has
    both fields. -/
theorem Declared.cut (h : Declared (b ++ e) f8 f9 y') :
    Opening b ∨ ∃ y, Declared b f8 f9 y ∧ y' = y ++ e := by
  have hpre : b <+: wire [f8, f9] ++ y' := ⟨e, h.bytes⟩
  rcases wire_cut _ hpre with ⟨y, rfl, -⟩ | ⟨gs, f, hs, v, hfs, rfl, hv⟩
  · refine Or.inr ⟨y, { h with bytes := rfl }, ?_⟩
    have hb := h.bytes
    rw [List.append_assoc] at hb
    exact (List.append_cancel_left hb).symm
  · left
    rcases gs with _ | ⟨g, _ | ⟨g', gs⟩⟩
    · cases hfs
      exact .inside8 h.tag8 h.value8 hv
    · cases hfs
      exact .inside9 h.tag8 h.value8 h.tag9 h.value9 (by rw [wire_singleton]) hv
    · simp at hfs

end

/-- A numeral can be continued to one of 300 or more. -/
theorem Numeral.exists_append {d : List Byte} (h : Numeral d) :
    ∃ r, Numeral (d ++ r) ∧ 300 ≤ Decimal.value (d ++ r) := by
  have hdigits : ∀ r : List Byte, (∀ c ∈ r, IsDigit c) → ∀ c ∈ d ++ r, IsDigit c := fun r hr c hc =>
    (List.mem_append.1 hc).elim (h.1 c) (hr c)
  by_cases hbig : 300 ≤ Decimal.value d
  · exact ⟨[], by rwa [List.append_nil], by rwa [List.append_nil]⟩
  by_cases hzero : Decimal.value d = 0
  · have hv : Decimal.value (d ++ ascii ['3', '0', '0']) = 300 := by
      rw [value_append, hzero]
      decide
    exact ⟨ascii ['3', '0', '0'], ⟨hdigits _ (by decide), by rw [hv]; decide⟩, hv.ge⟩
  · have hv : Decimal.value (d ++ ascii ['0', '0', '0']) = Decimal.value d * 1000 := by
      rw [value_append]
      have hd : digit (ch '0') = 0 := by decide
      simp only [ascii, List.map_cons, List.map_nil, extend_cons, extend_nil, hd]
      omega
    refine ⟨ascii ['0', '0', '0'], ⟨hdigits _ (by decide), ?_⟩, by omega⟩
    rw [hv, maxNumber]
    omega

/-- An opening can be completed, with any room for the body. -/
theorem Opening.exists_declared {b : Buffer} (h : Opening b) :
    ∃ e f8 f9, Declared (b ++ e) f8 f9 [] ∧ 300 ≤ f9.declares := by
  cases h with
  | @inside8 f8 tag8 value8 bytes =>
    obtain ⟨r, hr⟩ := bytes
    refine ⟨r ++ SOH :: Field.bytes ⟨[ch '9'], ascii ['3', '0', '0']⟩, f8,
      ⟨[ch '9'], ascii ['3', '0', '0']⟩, ⟨?_, tag8, value8, rfl, by decide, by decide⟩, by decide⟩
    rw [← List.append_assoc, hr, wire_cons, wire_singleton, f8.bytes_eq]
    simp
  | @inside9 f8 f9 u tag8 value8 tag9 value9 bytes inside =>
    obtain ⟨r, hr⟩ := inside
    obtain ⟨d, hd, hbig⟩ := value9.exists_append
    refine ⟨r ++ d ++ [SOH], f8, ⟨[ch '9'], f9.value ++ d⟩,
      ⟨?_, tag8, value8, rfl, hd, fun hnil => ?_⟩, hbig⟩
    · have hp : f9.piece = [ch '9'] ++ ch '=' :: f9.value := by rw [Field.piece, tag9]
      rw [bytes, wire_cons, wire_singleton, List.append_nil, List.append_assoc, ← List.append_assoc u,
        ← List.append_assoc u, hr, hp]
      simp [Field.bytes]
    · simp only at hnil
      rw [hnil] at hbig
      exact absurd hbig (by decide)

/-! ## The headers -/

/-- The buffers on which the headers wait: shorter than any message, or with
    the value of field 8, the tag of field 9, its value, the declared body or
    the value of field 35 still open. -/
inductive HeadersOpen (b : Buffer) : Prop
  | short (length : b.length < 12)
  | value8 {f8 : Field} (tag8 : f8.tag = [ch '8']) (value8 : SOH ∉ f8.value) (bytes : b = f8.piece)
  | tag9 {f8 : Field} {u : List Byte} (tag8 : f8.tag = [ch '8']) (value8 : SOH ∉ f8.value)
      (bytes : b = f8.bytes ++ u) (length : u.length < 2)
  | value9 {f8 f9 : Field} (tag8 : f8.tag = [ch '8']) (value8 : SOH ∉ f8.value)
      (tag9 : f9.tag = [ch '9']) (value9 : Numeral f9.value) (bytes : b = f8.bytes ++ f9.piece)
  | body {f8 f9 : Field} {y : List Byte} (fields : Declared b f8 f9 y)
      (length : y.length < f9.declares + 7)
  | value35 {f8 f9 f35 : Field} (fields : Declared b f8 f9 f35.piece) (type : TypeField f35)

theorem readTag8_truncated {b : List Byte} {fs : List Field} :
    readTag8 b = .error ⟨.truncated, fs⟩ ↔
      fs = [] ∧ ∃ f8 : Field, f8.tag = [ch '8'] ∧ SOH ∉ f8.value ∧ b = f8.piece := by
  unfold readTag8
  constructor
  · intro h
    split at h
    · cases h
    rename_i s hs
    split at h
    · rename_i hc
      cases h
      exact ⟨rfl, ⟨[ch '8'], s⟩, rfl, cut_none.1 hc, by rw [strip_some.1 hs]; rfl⟩
    · cases h
  · rintro ⟨rfl, ⟨tag, v⟩, rfl, hv, rfl⟩
    have hs : strip [ch '8', ch '='] (Field.piece ⟨[ch '8'], v⟩) = some v := strip_some.2 rfl
    simp only [hs, cut_none.2 hv]

theorem readTag9_truncated {f8 : Field} {s : List Byte} {fs : List Field} :
    readTag9 f8 s = .error ⟨.truncated, fs⟩ ↔
      fs = [f8] ∧ (s.length < 2 ∨
        ∃ f9 : Field, f9.tag = [ch '9'] ∧ Numeral f9.value ∧ s = f9.piece) := by
  unfold readTag9
  constructor
  · intro h
    split at h
    · rename_i h2
      cases h
      exact ⟨rfl, Or.inl h2⟩
    split at h
    · cases h
    rename_i d hs
    split at h
    · cases h
    rename_i hn
    split at h
    · rename_i hc
      cases h
      rw [not_not, upTo_open (cut_none.1 hc)] at hn
      exact ⟨rfl, Or.inr ⟨⟨[ch '9'], d⟩, rfl, hn, by rw [strip_some.1 hs]; rfl⟩⟩
    split at h
    · cases h
    · cases h
  · rintro ⟨rfl, h2 | ⟨⟨tag, d⟩, rfl, hd, rfl⟩⟩
    · rw [if_pos h2]
    · have hs : strip [ch '9', ch '='] (Field.piece ⟨[ch '9'], d⟩) = some d := strip_some.2 rfl
      have hd : Numeral d := hd
      have h2 : ¬ (Field.piece ⟨[ch '9'], d⟩).length < 2 := by
        simp [Field.piece]
      rw [if_neg h2]
      simp only [hs, upTo_open hd.soh_notMem, hd, not_true, if_false, cut_none.2 hd.soh_notMem]

theorem readBounds_truncated {f8 f9 : Field} {s : List Byte} {fs : List Field} :
    readBounds f8 f9 s = .error ⟨.truncated, fs⟩ ↔
      fs = [f8, f9] ∧ s.length < f9.declares + 7 := by
  unfold readBounds
  split
  · rename_i h
    constructor
    · intro he
      cases he
      exact ⟨rfl, h⟩
    · rintro ⟨rfl, -⟩
      rfl
  · rename_i h
    constructor
    · intro he
      cases he
    · rintro ⟨-, h'⟩
      exact absurd h' h

theorem readTag35_truncated {f8 f9 : Field} {s : List Byte} {fs : List Field} :
    readTag35 f8 f9 s = .error ⟨.truncated, fs⟩ ↔
      fs = [f8, f9] ∧ ∃ f35, TypeField f35 ∧ s = f35.piece := by
  unfold readTag35
  constructor
  · intro h
    split at h
    · cases h
    rename_i v hs
    split at h
    · rename_i hc
      cases h
      exact ⟨rfl, ⟨[ch '3', ch '5'], v⟩, ⟨rfl, cut_none.1 hc⟩, by rw [strip_some.1 hs]; rfl⟩
    · cases h
  · rintro ⟨rfl, ⟨tag, v⟩, ⟨rfl, hv⟩, rfl⟩
    have hs : strip [ch '3', ch '5', ch '='] (Field.piece ⟨[ch '3', ch '5'], v⟩) = some v :=
      strip_some.2 rfl
    simp only [hs, cut_none.2 hv]

/-- **The headers wait** exactly on these buffers. -/
theorem headersWait_iff (b : Buffer) : HeadersWait b ↔ HeadersOpen b := by
  unfold HeadersWait readHead
  by_cases h12 : b.length < 12
  · rw [if_pos h12]
    exact ⟨fun _ => .short h12, fun _ => ⟨[], rfl⟩⟩
  rw [if_neg h12]
  constructor
  · rintro ⟨fs, h⟩
    rcases bind_eq_error.1 h with h' | ⟨⟨f8, s⟩, h8, hrest⟩
    · obtain ⟨-, f8, tag8, value8, hb⟩ := readTag8_truncated.1 h'
      exact .value8 tag8 value8 hb
    obtain ⟨hb, tag8, value8⟩ := readTag8_ok.1 h8
    rcases bind_eq_error.1 hrest with h' | ⟨⟨f9, y⟩, h9, hbody⟩
    · obtain ⟨-, h2 | ⟨f9, tag9, value9, rfl⟩⟩ := readTag9_truncated.1 h'
      · exact .tag9 tag8 value8 hb h2
      · exact .value9 tag8 value8 tag9 value9 hb
    obtain ⟨rfl, tag9, value9, hne⟩ := readTag9_ok.1 h9
    have hd : Declared b f8 f9 y :=
      ⟨by rw [hb, wire_cons, wire_singleton, List.append_assoc], tag8, value8, tag9, value9, hne⟩
    rcases bind_eq_error.1 hbody with h' | ⟨⟨⟩, -, htype⟩
    · exact .body hd (readBounds_truncated.1 h').2
    rcases bind_eq_error.1 htype with h' | ⟨_, -, hend⟩
    · obtain ⟨-, f35, h35, rfl⟩ := readTag35_truncated.1 h'
      exact .value35 hd h35
    · cases hend
  · intro h
    cases h with
    | short h => exact absurd h h12
    | @value8 f8 tag8 value8 bytes =>
      exact ⟨_, bind_eq_error.2 (Or.inl (readTag8_truncated.2 ⟨rfl, f8, tag8, value8, bytes⟩))⟩
    | @tag9 f8 u tag8 value8 bytes length =>
      rw [readTag8_ok.2 ⟨bytes, tag8, value8⟩, ok_bind]
      exact ⟨_, bind_eq_error.2 (Or.inl (readTag9_truncated.2 ⟨rfl, Or.inl length⟩))⟩
    | @value9 f8 f9 tag8 value8 tag9 value9 bytes =>
      rw [readTag8_ok.2 ⟨bytes, tag8, value8⟩, ok_bind]
      exact ⟨_, bind_eq_error.2 (Or.inl
        (readTag9_truncated.2 ⟨rfl, Or.inr ⟨f9, tag9, value9, rfl⟩⟩))⟩
    | @body f8 f9 y fields length =>
      rw [fields.readTag8_eq, ok_bind]
      simp only
      rw [fields.readTag9_eq, ok_bind]
      exact ⟨_, bind_eq_error.2 (Or.inl (readBounds_truncated.2 ⟨rfl, length⟩))⟩
    | @value35 f8 f9 f35 fields type =>
      rw [fields.readTag8_eq, ok_bind]
      simp only
      rw [fields.readTag9_eq, ok_bind]
      simp only
      rcases hb : readBounds f8 f9 f35.piece with r | ⟨⟩
      · unfold readBounds at hb
        split at hb
        · cases hb
          exact ⟨_, rfl⟩
        · cases hb
      · rw [ok_bind]
        exact ⟨_, bind_eq_error.2 (Or.inl (readTag35_truncated.2 ⟨rfl, f35, type, rfl⟩))⟩

/-! ## The scalar scanner -/

/-- The two byte strings agree as far as both go. -/
def Compatible (u v : List Byte) : Prop := u <+: v ∨ v <+: u

theorem Compatible.exists_append {u v : List Byte} (h : Compatible u v) :
    ∃ r t, u ++ r = v ++ t ∧ (r = [] ∨ t = []) := by
  rcases h with ⟨r, hr⟩ | ⟨t, ht⟩
  · exact ⟨r, [], by rw [hr, List.append_nil], Or.inr rfl⟩
  · exact ⟨[], t, by rw [ht, List.append_nil], Or.inl rfl⟩

theorem Compatible.of_append {u v t : List Byte} (h : u <+: v ++ t) : Compatible u v :=
  List.prefix_or_prefix_of_prefix h (List.prefix_append v t)

/-- The empty length field `95=`. -/
def emptyLength : Field := ⟨ascii ['9', '5'], []⟩

theorem emptyLength_embedded : EmbeddedField emptyLength := ⟨by decide, by decide, by decide⟩

/-- The empty message type field `35=`. -/
def emptyType : Field := ⟨[ch '3', ch '5'], []⟩

theorem emptyType_begun : Begun ([] ++ [emptyType]) := ⟨⟨rfl, by decide⟩, by simp⟩

/-- What a field begun with `u` lacks, ended by its SOH. -/
theorem Field.exists_append {f : Field} {u : List Byte} (h : u <+: f.piece) :
    ∃ r, u ++ r = f.bytes := by
  obtain ⟨r, hr⟩ := h
  exact ⟨r ++ [SOH], by rw [← List.append_assoc, hr, f.bytes_eq]⟩

namespace ScalarScanner

/-- **A beginning of a body** the scalar scanner can still take, after the
    complete fields `fs`:
    * the beginning of a further field that leaves some of the declared body;
    * the beginning of a last field, up to the declared end, where a checksum
      field can follow;
    * anything, when the table is full;
    * a field of embedded data, as far as the buffer goes;
    * a checksum field at the declared end, as far as the buffer goes. -/
inductive Viable (f8 f9 : Field) (y : List Byte) : Prop
  | field {fs : List Field} {f : Field} {u : List Byte} (bytes : y = wire fs ++ u)
      (begun : Begun (fs ++ [f])) (inside : u <+: f.piece)
      (room : (wire (fs ++ [f])).length < f9.declares)
  | last {fs : List Field} {f c : Field} {u : List Byte} (bytes : y = wire fs ++ u)
      (begun : Begun (fs ++ [f])) (inside : u <+: f.piece)
      (ends : (wire (fs ++ [f])).length = f9.declares)
      (closes : Closes (wire (f8 :: f9 :: (fs ++ [f]))) c)
  | full {fs : List Field} {u : List Byte} (bytes : y = wire fs ++ u) (begun : Begun fs)
      (ne : fs ≠ []) (room : (wire fs).length < f9.declares) (many : kMaxFields ≤ fs.length + 2)
  | embedded {fs : List Field} {f : Field} {u : List Byte} (bytes : y = wire fs ++ u)
      (begun : Begun fs) (ne : fs ≠ []) (room : (wire fs).length < f9.declares)
      (field : EmbeddedField f) (agrees : Compatible u f.bytes)
  | closed {fs : List Field} {c : Field} {u : List Byte} (bytes : y = wire fs ++ u)
      (begun : Begun fs) (ne : fs ≠ []) (ends : (wire fs).length = f9.declares)
      (closes : Closes (wire (f8 :: f9 :: fs)) c) (agrees : Compatible u c.bytes)

theorem Arrives.append {f8 f9 : Field} {fs : List Field} {t : List Byte}
    (h : Arrives f8 f9 fs t) (x : List Byte) : Arrives f8 f9 fs (t ++ x) := by
  cases h with
  | full inside many => exact .full inside many
  | embedded inside next field =>
    exact .embedded inside (by rw [next, List.append_assoc]) field
  | closed inside next field =>
    exact .closed inside (by rw [next, List.append_assoc]) field

theorem Viable.exists_arrives {f8 f9 : Field} {y : List Byte} (h : Viable f8 f9 y) :
    ∃ e fs t, y ++ e = wire fs ++ t ∧ Begun fs ∧ fs ≠ [] ∧ Arrives f8 f9 fs t := by
  cases h with
  | @field fs f u bytes begun inside room =>
    obtain ⟨r, hr⟩ := f.exists_append inside
    refine ⟨r ++ emptyLength.bytes, fs ++ [f], emptyLength.bytes, ?_, begun, by simp,
      .embedded room (List.append_nil _).symm emptyLength_embedded⟩
    rw [bytes, wire_append, wire_singleton, ← hr]
    simp
  | @last fs f c u bytes begun inside ends closes =>
    obtain ⟨r, hr⟩ := f.exists_append inside
    refine ⟨r ++ c.bytes, fs ++ [f], c.bytes, ?_, begun, by simp,
      .closed ends (List.append_nil _).symm closes⟩
    rw [bytes, wire_append, wire_singleton, ← hr]
    simp
  | @full fs u bytes begun ne room many =>
    exact ⟨[], fs, u, by rw [bytes, List.append_nil], begun, ne, .full room many⟩
  | @embedded fs f u bytes begun ne room field agrees =>
    obtain ⟨r, t, hr, -⟩ := agrees.exists_append
    exact ⟨r, fs, f.bytes ++ t, by rw [bytes, List.append_assoc, hr], begun, ne,
      .embedded room rfl field⟩
  | @closed fs c u bytes begun ne ends closes agrees =>
    obtain ⟨r, t, hr, -⟩ := agrees.exists_append
    exact ⟨r, fs, c.bytes ++ t, by rw [bytes, List.append_assoc, hr], begun, ne,
      .closed ends rfl closes⟩

theorem viable_of_arrives {f8 f9 : Field} {y e t : List Byte} {fs : List Field}
    (hy : y ++ e = wire fs ++ t) (begun : Begun fs) (ne : fs ≠ []) (h : Arrives f8 f9 fs t) :
    Viable f8 f9 y := by
  rcases wire_cut fs ⟨e, hy⟩ with ⟨u, rfl, hu⟩ | ⟨gs, f, hs, u, rfl, rfl, hu⟩
  · cases h with
    | full inside many => exact .full rfl begun ne inside many
    | embedded inside next field =>
      exact .embedded rfl begun ne inside field (Compatible.of_append (next ▸ hu))
    | closed inside next field =>
      exact .closed rfl begun ne inside field (Compatible.of_append (next ▸ hu))
  · have hwire : (wire (gs ++ f :: hs)).length = (wire (gs ++ [f])).length + (wire hs).length := by
      rw [List.append_cons, wire_append, List.length_append]
    cases h with
    | full inside many => exact .field rfl begun.tail hu (by omega)
    | embedded inside next field => exact .field rfl begun.tail hu (by omega)
    | @closed c t' inside next field =>
      rcases hs with _ | ⟨g, hs⟩
      · exact .last rfl begun hu inside field
      · -- a further field fits, so the body does not end with `f`
        have hg := g.size_pos
        have hlen := wire_cons_length g hs
        exact .field rfl begun.tail hu (by omega)

/-- The buffer may be the beginning of a message the scalar scanner takes. -/
def InProgress (b : Buffer) : Prop :=
  Opening b ∨ ∃ f8 f9 y, Declared b f8 f9 y ∧ Viable f8 f9 y

/-- **The scalar scanner takes some continuation** exactly of the buffers in
    progress. -/
theorem exists_arrived_iff (b : Buffer) :
    (∃ e, (read (b ++ e)).status.Arrived) ↔ InProgress b := by
  constructor
  · rintro ⟨e, h⟩
    obtain ⟨f8, f9, fs, t, hd, begun, ne, -, ha⟩ := (read_arrived _).1 h
    rcases hd.cut with hopen | ⟨y, hd, hy⟩
    · exact Or.inl hopen
    · exact Or.inr ⟨f8, f9, y, hd, viable_of_arrives hy.symm begun ne ha⟩
  · have hviable : ∀ {b : Buffer} {f8 f9 : Field} {y : List Byte}, Declared b f8 f9 y →
        Viable f8 f9 y → ∃ e, (read (b ++ e)).status.Arrived := by
      intro b f8 f9 y hd hv
      obtain ⟨e, fs, t, hy, begun, ne, ha⟩ := hv.exists_arrives
      -- the declared body and its trailer are filled up
      have hd := (hd.append e).append (List.replicate (f9.declares + 7) SOH)
      rw [hy, List.append_assoc, List.append_assoc] at hd
      refine ⟨_, (read_arrived _).2 ⟨f8, f9, fs, _, hd, begun, ne, ?_, ha.append _⟩⟩
      rw [List.length_append, List.length_append, List.length_replicate]
      omega
    rintro (hopen | ⟨f8, f9, y, hd, hv⟩)
    · obtain ⟨e, f8, f9, hd, hbig⟩ := hopen.exists_declared
      have hv : Viable f8 f9 [] := by
        have hlen : (wire ([] ++ [emptyType])).length = 4 := rfl
        have hbytes : [] = wire [] ++ [] := rfl
        exact .field hbytes emptyType_begun List.nil_prefix (by omega)
      obtain ⟨e', he'⟩ := hviable hd hv
      rw [List.append_assoc] at he'
      exact ⟨_, he'⟩
    · exact hviable hd hv

end ScalarScanner

/-! ## The AVX2 scanner -/

theorem EmbeddedField.size_ge {f : Field} (h : EmbeddedField f) : 4 ≤ f.size := by
  have hn : 10 ≤ Decimal.value f.tag := by
    have := h.number
    rw [Field.number] at this
    omega
  have h2 := h.tag.two_le_length hn
  rw [Field.size]
  omega

theorem Begun.size_ge {fs : List Field} (h : Begun fs) {f : Field} (hf : f ∈ fs) : 3 ≤ f.size := by
  rcases fs with _ | ⟨g, gs⟩
  · cases hf
  rw [Field.size]
  rcases List.mem_cons.1 hf with rfl | hf
  · rw [h.1.tag, List.length_cons]
    omega
  · have := List.length_pos_iff.2 (h.2 f hf).tag.ne_nil
    omega

/-- Bytes that fit into `v` are a beginning of it, and `v` has at most as many
    more delimiters as it has more bytes. -/
theorem prefix_of_length_le {u v t : List Byte} (h : u <+: v ++ t) (hle : u.length ≤ v.length) :
    u <+: v ∧ v.count SOH + u.length ≤ u.count SOH + v.length := by
  have hpre := List.prefix_of_prefix_length_le h (List.prefix_append v t) hle
  refine ⟨hpre, ?_⟩
  obtain ⟨r, rfl⟩ := hpre
  have := List.count_le_length (a := SOH) (l := r)
  rw [List.count_append, List.length_append]
  omega

namespace Avx2Scanner

/-- Bytes enough are missing to fill the SOH array with delimiters, after the
    beginning of a type field, or with those the body has already. -/
inductive Crowds (f9 : Field) (y : List Byte) : Prop
  | type {f35 : Field} (type : TypeField f35) (inside : y <+: f35.piece)
      (room : f35.size + kMaxFields < f9.declares + 7)
  | body {f35 : Field} {z : List Byte} (bytes : y = f35.bytes ++ z) (type : TypeField f35)
      (many : y.length + kMaxFields < z.count SOH + (f9.declares + 7))

/-- **A beginning of a body** the AVX2 scanner can still take, before its window
    is complete, after the complete fields `fs`:
    * the beginning of a further field that leaves five bytes;
    * a field of embedded data, as far as the buffer goes, that leaves one byte;
    * anything, when the table is full, with two delimiters to come;
    * the beginning of a field that fills the table and leaves two bytes;
    * the beginning of the checksum field at the declared end. -/
inductive Viable (f9 : Field) (y : List Byte) : Prop
  | field {fs : List Field} {f : Field} {u : List Byte} (bytes : y = wire fs ++ u)
      (begun : Begun (fs ++ [f])) (inside : u <+: f.piece)
      (room : (wire (fs ++ [f])).length + 5 ≤ f9.declares + 7)
  | embedded {fs : List Field} {f : Field} {u : List Byte} (bytes : y = wire fs ++ u)
      (begun : Begun fs) (ne : fs ≠ []) (field : EmbeddedField f) (agrees : Compatible u f.bytes)
      (room : (wire fs).length + f.size + 1 ≤ f9.declares + 7)
  | full {fs : List Field} {u : List Byte} (bytes : y = wire fs ++ u) (begun : Begun fs)
      (ne : fs ≠ []) (many : kMaxFields ≤ fs.length + 2)
      (more : y.length + 2 ≤ u.count SOH + (f9.declares + 7))
  | last {fs : List Field} {f : Field} {u : List Byte} (bytes : y = wire fs ++ u)
      (begun : Begun (fs ++ [f])) (inside : u <+: f.piece) (many : kMaxFields ≤ fs.length + 3)
      (room : (wire (fs ++ [f])).length + 2 ≤ f9.declares + 7)
  | closed {fs : List Field} {f : Field} {u : List Byte} (bytes : y = wire fs ++ u)
      (begun : Begun fs) (ne : fs ≠ []) (ends : (wire fs).length = f9.declares)
      (field : ChecksumField f) (tag : f.tag = ascii ['1', '0']) (inside : u <+: f.bytes)

/-- The window can be completed to one that satisfies `P`. -/
def Completes (f9 : Field) (y : List Byte) (P : List Byte → Prop) : Prop :=
  ∃ e f35 w, y ++ e = f35.bytes ++ w ∧ TypeField f35 ∧ f35.size + w.length = f9.declares + 7 ∧ P w

/-- Complete fields, and after them what the window ends with. -/
theorem completes_of {f9 : Field} {y e x : List Byte} {fs : List Field} {P : List Byte → Prop}
    (hy : y ++ e = wire fs ++ x) (begun : Begun fs) (ne : fs ≠ [])
    (hlen : (wire fs).length + x.length = f9.declares + 7)
    (h : ∀ gs : List Field, (∀ g ∈ gs, BodyField g) → gs.length + 1 = fs.length →
      P (wire gs ++ x)) : Completes f9 y P := by
  rcases fs with _ | ⟨f35, gs⟩
  · exact absurd rfl ne
  refine ⟨e, f35, wire gs ++ x, ?_, begun.1, ?_, h gs begun.2 rfl⟩
  · rw [hy, wire_cons, List.append_assoc]
  · rw [wire_cons_length] at hlen
    rw [List.length_append]
    omega

/-- Delimiters alone crowd the window. -/
theorem Crowds.completes {f9 : Field} {y : List Byte} (h : Crowds f9 y)
    (hlen : y.length < f9.declares + 7) :
    Completes f9 y fun w => kMaxFields < (pieces SOH w).length := by
  cases h with
  | @type f35 type inside room =>
    obtain ⟨r, hr⟩ := f35.exists_append inside
    refine ⟨r ++ List.replicate (f9.declares + 7 - f35.size) SOH, f35,
      List.replicate (f9.declares + 7 - f35.size) SOH, ?_, type, ?_, ?_⟩
    · rw [← List.append_assoc, hr]
    · rw [List.length_replicate]
      omega
    · show kMaxFields < (pieces SOH _).length
      rw [length_pieces, List.count_replicate_self]
      omega
  | @body f35 z bytes type many =>
    have hl := congrArg List.length bytes
    rw [List.length_append, f35.bytes_length] at hl
    refine ⟨List.replicate (f9.declares + 7 - y.length) SOH, f35,
      z ++ List.replicate (f9.declares + 7 - y.length) SOH, ?_, type, ?_, ?_⟩
    · rw [bytes, List.append_assoc]
    · rw [List.length_append, List.length_replicate]
      omega
    · show kMaxFields < (pieces SOH _).length
      rw [length_pieces, List.count_append, List.count_replicate_self]
      omega

theorem Viable.completes {f9 : Field} {y : List Byte} (h : Viable f9 y)
    (hlen : y.length < f9.declares + 7) : Completes f9 y Arrives := by
  cases h with
  | @field fs f u bytes begun inside room =>
    obtain ⟨r, hr⟩ := f.exists_append inside
    have h95 : emptyLength.size = 4 := rfl
    have hy : ∀ e, y ++ (r ++ e) = wire (fs ++ [f]) ++ e := fun e => by
      rw [bytes, wire_append, wire_singleton, ← hr]
      simp
    refine completes_of (hy (emptyLength.bytes ++
      List.replicate (f9.declares + 3 - (wire (fs ++ [f])).length) SOH)) begun (by simp) ?_
      fun gs hgs _ => .embedded rfl hgs emptyLength_embedded ?_
    · rw [List.length_append, Field.bytes_length, List.length_replicate]
      omega
    · exact List.mem_replicate.2 ⟨by omega, rfl⟩
  | @embedded fs f u bytes begun ne field agrees room =>
    obtain ⟨r, t, hr, hnil⟩ := agrees.exists_append
    have hl := congrArg List.length hr
    have hly := congrArg List.length bytes
    rw [List.length_append, List.length_append, f.bytes_length] at hl
    rw [List.length_append] at hly
    have hspare : y.length + r.length + 1 ≤ f9.declares + 7 := by
      rcases hnil with rfl | rfl
      · rw [List.length_nil]
        omega
      · rw [List.length_nil] at hl
        omega
    obtain ⟨k, hk⟩ := Nat.exists_eq_add_of_le hspare
    have hy : y ++ (r ++ List.replicate (k + 1) SOH) =
        wire fs ++ (f.bytes ++ (t ++ List.replicate (k + 1) SOH)) := by
      rw [bytes, List.append_assoc, ← List.append_assoc u, hr, List.append_assoc]
    refine completes_of hy begun ne ?_ fun gs hgs _ => .embedded rfl hgs field ?_
    · rw [List.length_append, List.length_append, f.bytes_length, List.length_replicate]
      omega
    · exact List.mem_append_right _ (List.mem_replicate.2 ⟨by omega, rfl⟩)
  | @full fs u bytes begun ne many more =>
    have hl := congrArg List.length bytes
    rw [List.length_append] at hl
    refine completes_of (e := List.replicate (f9.declares + 7 - y.length) SOH)
      (x := u ++ List.replicate (f9.declares + 7 - y.length) SOH)
      (by rw [bytes, List.append_assoc]) begun ne ?_ fun gs hgs hlen => .full rfl hgs ?_ ?_
    · rw [List.length_append, List.length_replicate]
      omega
    · omega
    · rw [length_pieces, List.count_append, List.count_replicate_self]
      omega
  | @last fs f u bytes begun inside many room =>
    obtain ⟨r, hr⟩ := f.exists_append inside
    have hy : ∀ e, y ++ (r ++ e) = wire (fs ++ [f]) ++ e := fun e => by
      rw [bytes, wire_append, wire_singleton, ← hr]
      simp
    refine completes_of (hy (List.replicate (f9.declares + 7 - (wire (fs ++ [f])).length) SOH))
      begun (by simp) ?_ fun gs hgs hlen => .full rfl hgs ?_ ?_
    · rw [List.length_replicate]
      omega
    · rw [List.length_append, List.length_singleton] at hlen
      omega
    · rw [length_pieces, List.count_replicate_self]
      omega
  | @closed fs f u bytes begun ne ends field tag inside =>
    obtain ⟨r, hr⟩ := inside
    refine completes_of (e := r) (x := f.bytes) (by rw [bytes, List.append_assoc, hr]) begun ne ?_
      fun gs hgs _ => .closed rfl hgs field tag
    rw [f.bytes_length, field.size_eq tag]
    omega

/-- A crowded window is a completion of a beginning that crowds it. -/
theorem crowds_of_many {f9 f35 : Field} {y e w t : List Byte}
    (hlen : y.length < f9.declares + 7) (hy : y ++ e = f35.bytes ++ (w ++ t)) (h35 : TypeField f35)
    (hw : f35.size + w.length = f9.declares + 7) (many : kMaxFields < (pieces SOH w).length) :
    Crowds f9 y := by
  rw [length_pieces] at many
  have hpre : y <+: wire [f35] ++ (w ++ t) := ⟨e, by rw [hy, wire_singleton]⟩
  rcases wire_cut _ hpre with ⟨v, rfl, hv⟩ | ⟨gs, f, hs, v, hfs, rfl, hv⟩
  · rw [wire_singleton] at hlen ⊢
    have hl : (f35.bytes ++ v).length = f35.size + v.length := by
      rw [List.length_append, f35.bytes_length]
    have hcount := (prefix_of_length_le hv (by omega)).2
    exact .body rfl h35 (by omega)
  · rcases gs with _ | ⟨g, gs⟩
    · cases hfs
      have := List.count_le_length (a := SOH) (l := w)
      exact .type h35 hv (by omega)
    · simp at hfs

theorem viable_of_arrives {f9 f35 : Field} {y e w t : List Byte}
    (hlen : y.length < f9.declares + 7) (hy : y ++ e = f35.bytes ++ (w ++ t)) (h35 : TypeField f35)
    (hw : f35.size + w.length = f9.declares + 7) (h : Arrives w) : Crowds f9 y ∨ Viable f9 y := by
  have hfields : ∀ {gs : List Field} {x : List Byte}, w = wire gs ++ x → (∀ g ∈ gs, BodyField g) →
      Begun (f35 :: gs) ∧ y <+: wire (f35 :: gs) ++ (x ++ t) ∧
        (wire (f35 :: gs)).length + x.length = f9.declares + 7 := by
    rintro gs x rfl hgs
    refine ⟨⟨h35, hgs⟩, ⟨e, ?_⟩, ?_⟩
    · rw [hy, wire_cons]
      simp
    · rw [wire_cons_length]
      rw [List.length_append] at hw
      omega
  have hinside : ∀ {gs hs : List Field} {f : Field}, (wire (gs ++ f :: hs)).length =
      (wire (gs ++ [f])).length + (wire hs).length := fun {gs hs f} => by
    rw [List.append_cons, wire_append, List.length_append]
  cases h with
  | crowded many => exact Or.inl (crowds_of_many hlen hy h35 hw many)
  | @full gs x bytes fields many more =>
    right
    obtain ⟨begun, hpre, hwire⟩ := hfields bytes fields
    have hx := List.count_le_length (a := SOH) (l := x)
    rw [length_pieces] at more
    rcases wire_cut _ hpre with ⟨v, rfl, hv⟩ | ⟨gs', f, hs, v, hfs, rfl, hv⟩
    · rw [List.length_append] at hlen
      have hcount := (prefix_of_length_le hv (by omega)).2
      refine .full rfl begun (List.cons_ne_nil _ _) (by rw [List.length_cons]; omega) ?_
      rw [List.length_append]
      omega
    · rw [hfs] at begun
      rw [hfs, hinside] at hwire
      rcases hs with _ | ⟨g, hs⟩
      · have hn := congrArg List.length hfs
        rw [List.length_cons, List.length_append, List.length_singleton] at hn
        exact .last rfl begun hv (by omega) (by omega)
      · have hg := begun.size_ge (f := g) (by simp)
        rw [wire_cons_length] at hwire
        exact .field rfl begun.tail hv (by omega)
  | @embedded gs f x bytes fields field more =>
    right
    obtain ⟨begun, hpre, hwire⟩ := hfields bytes fields
    have hx := List.length_pos_of_mem more
    have hf := field.size_ge
    rw [List.length_append, f.bytes_length] at hwire
    rcases wire_cut _ hpre with ⟨v, rfl, hv⟩ | ⟨gs', g, hs, v, hfs, rfl, hv⟩
    · rw [List.append_assoc] at hv
      exact .embedded rfl begun (List.cons_ne_nil _ _) field (Compatible.of_append hv) (by omega)
    · rw [hfs] at begun
      rw [hfs, hinside] at hwire
      exact .field rfl begun.tail hv (by omega)
  | @closed gs f bytes fields field tag =>
    right
    obtain ⟨begun, hpre, hwire⟩ := hfields bytes fields
    have hf := field.size_eq tag
    rw [f.bytes_length] at hwire
    rcases wire_cut _ hpre with ⟨v, rfl, hv⟩ | ⟨gs', g, hs, v, hfs, rfl, hv⟩
    · rw [List.length_append] at hlen
      refine .closed rfl begun (List.cons_ne_nil _ _) (by omega) field tag ?_
      exact (prefix_of_length_le hv (by rw [f.bytes_length]; omega)).1
    · rw [hfs] at begun
      rw [hfs, hinside] at hwire
      exact .field rfl begun.tail hv (by omega)

end Avx2Scanner
end SwiftFIX
