/-
  Messages of 4 GiB and more, which the 32-bit offsets cannot represent
  (`untruncated_iff`).

  Nothing in the scanners bounds the length of a message, so they also take
  overlong ones.  The scalar scanner works with pointers and narrows what it
  records; pass 2 of the AVX2 scanner goes on from narrowed offsets, and parses
  the bytes that it finds there (`Avx2Scanner.Narrowed`).
-/
import SwiftFIX.Coherence
import SwiftFIX.Avx2Narrowing

namespace SwiftFIX

open Decimal Delimited EarlyExit

/-! ## Exact offsets -/

/-- **The offsets are exact**: the entries are the fields of the buffer from its
    start up to the length of the frame, the checksum field the last. -/
structure Exact (b : Buffer) (v : IndexView) : Prop where
  tiles : Tiles b 0 (v.entries.map FieldEntry.span) v.frameLength
  checksum : ∃ e, v.entries[v.checksumIdx.toNat]? = some e ∧ e.tagNumber = 10 ∧
    e.valueEnd + 1 = v.frameLength
  advances : v.frameLength ≠ 0

/-- On every `Ok` the offsets are exact. -/
def Untruncated (s : Scanner) (b : Buffer) : Prop :=
  ∀ out v, (s.scan b out).result = some (.ok, v) → Exact b v

/-- The index of a message that ends at `L`: an entry for each SOH, and the
    length narrowed. -/
structure Counted (b : Buffer) (v : IndexView) (L : ℕ) : Prop where
  pieces : ∃ ps t, b = joined ps ++ t ∧ (∀ s ∈ ps, SOH ∉ s) ∧ ps.length = v.entries.length ∧
    (joined ps).length = L
  frameLength : v.frameLength = u32 L

section
variable {b : Buffer} {v : IndexView} {fs : List Field} {f : Field}

theorem Counted.not_exact {L : ℕ} (h : Counted b v L) (hL : 2 ^ 32 ≤ L) : ¬ Exact b v := by
  intro hexact
  obtain ⟨ps, t, hb, hopen, hlen, rfl⟩ := h.pieces
  obtain ⟨qs, hqs, hopen', hlen', hend⟩ := hexact.tiles.exists_pieces
  rw [List.drop_zero] at hqs
  have hps : ps = qs := by
    refine pieces_unique hopen hopen' ?_ (hb.symm.trans hqs)
    rw [hlen, hlen', List.length_map]
  rw [Nat.zero_add, ← hps, h.frameLength] at hend
  have hlt : u32 (joined ps).length < 2 ^ 32 := Nat.mod_lt _ (by decide)
  omega

theorem exact_view (hi : Indexed b (fs ++ [f])) (hL : (wire (fs ++ [f])).length < 2 ^ 32)
    (h10 : f.number = 10) : Exact b (Reading.view ⟨.ok, fs ++ [f]⟩) := by
  have hentries : (Reading.view ⟨.ok, fs ++ [f]⟩).entries = places 0 (fs ++ [f]) := by
    rw [Reading.view, if_pos rfl]
    show layout 0 (fs ++ [f]) = _
    exact layout_eq_places _ (by omega)
  have hframe : (Reading.view ⟨.ok, fs ++ [f]⟩).frameLength = (wire (fs ++ [f])).length := by
    rw [Reading.view, if_pos rfl]
    exact u32_of_lt hL
  have hidx : (Reading.view ⟨.ok, fs ++ [f]⟩).checksumIdx.toNat = (places 0 fs).length := by
    rw [Reading.view, if_pos rfl, places_length]
    simp
  have hend : f.size = f.tag.length + f.value.length + 2 := rfl
  rw [wire_snoc_length] at hframe hL
  refine ⟨?_, ⟨f.place (wire fs).length, ?_, h10, ?_⟩, ?_⟩
  · rw [hentries, hframe, ← wire_snoc_length]
    exact tiles_of_prefix hi.fields hi.bytes
  · rw [hentries, hidx, places_append, List.getElem?_append_right le_rfl, Nat.sub_self,
      Nat.zero_add]
    rfl
  · rw [hframe]
    show (wire fs).length + f.tag.length + 1 + f.value.length + 1 = _
    omega
  · omega

end

/-! ## The scalar scanner -/

namespace ScalarScanner
variable {b : Buffer} {h : Head} {body : List Field} {f : Field}

theorem Taken.wire_length (ht : Taken b h body f) :
    (wire (h.fields ++ body ++ [f])).length = h.bodyEnd + f.size := by
  rw [wire_snoc_length, h.wire_fields_append_length, ht.length, Head.bodyEnd]

theorem Taken.wire_prefix (ht : Taken b h body f) : wire (h.fields ++ body ++ [f]) <+: b := by
  obtain ⟨t, hrest⟩ := ht.rest
  refine ⟨t, ?_⟩
  rw [ht.bytes, ← hrest, List.append_assoc h.fields, wire_append h.fields, List.append_assoc]

/-- The scalar scanner answers `Ok` on exactly the messages it takes. -/
theorem scan_taken (b : Buffer) (out : FieldIndex) {v : IndexView} :
    (scan b out).result = some (.ok, v) ↔
      ∃ h body f, Taken b h body f ∧ v = Reading.view ⟨.ok, h.fields ++ body ++ [f]⟩ := by
  rw [(scan_reads b out).result_eq, Option.some.injEq, Prod.mk.injEq]
  constructor
  · rintro ⟨hok, rfl⟩
    have hr : read b = ⟨.ok, (read b).fields⟩ := by rw [← hok]
    obtain ⟨h, body, f, ht, hfs⟩ := read_taken.1 hr
    refine ⟨h, body, f, ht, ?_⟩
    rw [hr, hfs]
  · rintro ⟨h, body, f, ht, rfl⟩
    rw [read_taken.2 ⟨h, body, f, ht, rfl⟩]
    exact ⟨rfl, rfl⟩

theorem layout_length (fs : List Field) : ∀ p, (layout p fs).length = fs.length := by
  induction fs with
  | nil =>
    intro p
    rfl
  | cons f fs ih =>
    intro p
    rw [layout, List.length_cons, ih, List.length_cons]

theorem Taken.counted (ht : Taken b h body f) :
    Counted b (Reading.view ⟨.ok, h.fields ++ body ++ [f]⟩) (h.bodyEnd + f.size) := by
  obtain ⟨t, hb⟩ := ht.wire_prefix
  have hi := Scanner.read_indexed .scalar b
  rw [Scanner.read, read_taken.2 ⟨h, body, f, ht, rfl⟩] at hi
  refine ⟨⟨(h.fields ++ body ++ [f]).map Field.piece, t, ?_, ?_, ?_, ?_⟩, ?_⟩
  · rw [joined, ← wire_eq, hb]
  · rw [List.forall_mem_map]
    intro g hg
    obtain ⟨htag, hval⟩ := hi.1.fields g hg
    exact htag.piece_open hval
  · rw [List.length_map, Reading.view, if_pos rfl]
    exact (layout_length _ 0).symm
  · rw [joined, ← wire_eq, ht.wire_length]
  · rw [Reading.view, if_pos rfl, ← ht.wire_length]

theorem Taken.exact_view (ht : Taken b h body f) (hL : h.bodyEnd + f.size < 2 ^ 32) :
    Exact b (Reading.view ⟨.ok, h.fields ++ body ++ [f]⟩) := by
  have hi := Scanner.read_indexed .scalar b
  rw [Scanner.read, read_taken.2 ⟨h, body, f, ht, rfl⟩] at hi
  exact SwiftFIX.exact_view hi.1 (by rw [ht.wire_length]; exact hL) ht.ending.number

end ScalarScanner

/-! ## The AVX2 scanner -/

namespace Avx2Scanner
variable {b : Buffer} {h : Head} {ps : List (List Byte)} {f : Field} {v : IndexView}

theorem Taken.counted (ht : Taken b h ps f) (hlen : v.entries.length = ps.length + 4)
    (hframe : v.frameLength = u32 (h.bodyEnd + 7)) : Counted b v (h.bodyEnd + f.size) := by
  obtain ⟨t, hrest⟩ := ht.rest
  obtain ⟨hend, h7⟩ := ht.rest_length
  have hpieces : joined (h.fields.map Field.piece ++ ps ++ [f.piece]) =
      wire h.fields ++ (joined ps ++ f.bytes) := by
    rw [joined_append, joined_append, joined, ← wire_eq, f.bytes_eq, List.append_assoc]
    simp
  refine ⟨⟨h.fields.map Field.piece ++ ps ++ [f.piece], t, ?_, ?_, ?_, ?_⟩, by rw [h7, hframe]⟩
  · rw [hpieces, List.append_assoc, hrest]
    exact ht.bytes
  · rw [List.forall_mem_append, List.forall_mem_append, List.forall_mem_singleton,
      List.forall_mem_map]
    refine ⟨⟨fun g hg => ?_, ht.unended⟩, ht.checksum.tag.piece_open ht.checksum.value⟩
    obtain ⟨htag, hval⟩ := (indexed_head ht.readHead_eq).fields g hg
    exact htag.piece_open hval
  · rw [hlen, List.length_append, List.length_append, List.length_map, List.length_singleton]
    show 3 + ps.length + 1 = _
    omega
  · rw [hpieces, List.length_append, List.length_append, f.bytes_length, hend]
    omega

theorem Taken.exact (ht : Taken b h ps f) (hL : h.bodyEnd + f.size < 2 ^ 32) {out : FieldIndex}
    (hv : (scan b out).result = some (.ok, v)) : Exact b v := by
  rw [ht.rest_length.2] at hL
  have hends : Ends (read b) (scan b out) := by
    refine scan_reads b out fun h' hh => ?_
    obtain rfl := Except.ok.inj (ht.readHead_eq.symm.trans hh)
    omega
  rw [hends.result_eq, Option.some.injEq, Prod.mk.injEq] at hv
  obtain ⟨hok, rfl⟩ := hv
  have hr : read b = ⟨.ok, (read b).fields⟩ := by rw [← hok]
  obtain ⟨F, hF, hc, t, hb⟩ := read_ok.1 hr
  have hi := (Scanner.read_indexed .avx2 b).1
  have hhead := F.readHead_eq t
  rw [hb, ht.readHead_eq] at hhead
  have hlast : F.fields = (F.head t).fields ++ F.body ++ [F.checksum] := by
    rw [Message.fields]
    rfl
  rw [Scanner.read, ← hF, hlast] at hi
  rw [hr, ← hF, hlast]
  refine exact_view hi ?_ F.checksum_field.number
  rw [wire_snoc_length, F.wire_head_body, ← Except.ok.inj hhead,
    F.checksum_field.size_eq hc]
  exact hL

end Avx2Scanner

/-! ## Both scanners -/

namespace Scanner
variable {s : Scanner} {b : Buffer}

/-- The buffer begins with a message of 4 GiB or more that the scanner takes. -/
def Overlong : Scanner → Buffer → Prop
  | scalar, b => ∃ h body f, ScalarScanner.Taken b h body f ∧ 2 ^ 32 ≤ h.bodyEnd + f.size
  | avx2, b => ∃ h ps f, Avx2Scanner.Taken b h ps f ∧ 2 ^ 32 ≤ h.bodyEnd + f.size

theorem Overlong.not_untruncated (h : s.Overlong b) : ¬ Untruncated s b := by
  intro hexact
  cases s with
  | scalar =>
    obtain ⟨h, body, f, ht, hL⟩ := h
    have hv := (ScalarScanner.scan_taken b .fresh).2 ⟨h, body, f, ht, rfl⟩
    exact ht.counted.not_exact hL (hexact .fresh _ hv)
  | avx2 =>
    obtain ⟨h, ps, f, ht, hL⟩ := h
    obtain ⟨hiff, hindex⟩ := Avx2Scanner.scan_taken b .fresh
    obtain ⟨v, hv⟩ := hiff.2 ⟨h, ps, f, ht⟩
    obtain ⟨h', ps', f', ht', -, hlen, hframe⟩ := hindex v hv
    obtain rfl := Except.ok.inj (ht.readHead_eq.symm.trans ht'.readHead_eq)
    refine (ht'.counted hlen hframe).not_exact ?_ (hexact .fresh v hv)
    rwa [ht'.rest_length.2, ← ht.rest_length.2]

theorem untruncated_of_not (h : ¬ s.Overlong b) : Untruncated s b := by
  intro out v hv
  cases s with
  | scalar =>
    obtain ⟨hd, body, f, ht, rfl⟩ := (ScalarScanner.scan_taken b out).1 hv
    exact ht.exact_view (not_le.1 fun hL => h ⟨hd, body, f, ht, hL⟩)
  | avx2 =>
    obtain ⟨hd, ps, f, ht, -⟩ := (Avx2Scanner.scan_taken b out).2 v hv
    exact ht.exact (not_le.1 fun hL => h ⟨hd, ps, f, ht, hL⟩) hv

/-- **The offsets are exact** on every buffer that does not begin with a message
    of 4 GiB or more that the scanner takes, and on no other. -/
theorem untruncated_iff (s : Scanner) (b : Buffer) : Untruncated s b ↔ ¬ s.Overlong b :=
  ⟨fun h hlong => hlong.not_untruncated h, untruncated_of_not⟩

end Scanner

/-! ## A message of 4 GiB -/

/-- The trailer `10=000`. -/
def zeroChecksum : Field := ⟨ascii ['1', '0'], ascii ['0', '0', '0']⟩

/-- The headers of an empty message whose begin string has `n` zeros, before
    `zeroChecksum`. -/
def longHead (n : ℕ) : Head where
  f8 := ⟨ascii ['8'], List.replicate n (ch '0')⟩
  f9 := ⟨ascii ['9'], ascii ['4']⟩
  f35 := ⟨ascii ['3', '5'], []⟩
  rest := zeroChecksum.bytes

/-- The message: `n + 18` bytes. -/
def longMessage (n : ℕ) : Buffer := wire (longHead n).fields ++ (longHead n).rest

theorem longHead_wellFormed (n : ℕ) : (longHead n).WellFormed where
  tag8 := rfl
  value8 hm := by
    have hc : SOH = ch '0' := List.eq_of_mem_replicate hm
    exact absurd hc (by decide)
  tag9 := rfl
  value9 := by
    show Numeral (ascii ['4'])
    decide
  value9_ne := List.cons_ne_nil _ _
  tag35 := rfl
  value35 := List.not_mem_nil

theorem zeroChecksum_field : ChecksumField zeroChecksum :=
  ⟨by decide, by decide, by decide, by decide⟩

theorem longHead_length (n : ℕ) :
    (wire (longHead n).fields).length = n + 11 ∧ (longHead n).bodyEnd = n + 11 := by
  have h8 : (longHead n).f8.size = n + 3 := by
    rw [Field.size]
    show 1 + (List.replicate n (ch '0')).length + 2 = _
    rw [List.length_replicate]
    omega
  have h9 : (longHead n).f9.size = 4 := rfl
  have h35 : (longHead n).f35.size = 4 := rfl
  have hbody : (longHead n).bodyLen = 4 := by
    show Decimal.value (ascii ['4']) = 4
    decide
  constructor
  · rw [Head.fields]
    simp only [wire_cons, wire_nil, List.length_append, List.length_nil, Field.bytes_length]
    omega
  · rw [Head.bodyEnd, Head.bodyStart, hbody]
    simp only [wire_cons, wire_nil, List.length_append, List.length_nil, Field.bytes_length]
    omega

theorem longMessage_avx2 (n : ℕ) :
    Avx2Scanner.Taken (longMessage n) (longHead n) [] zeroChecksum where
  head := longHead_wellFormed n
  bytes := rfl
  rest := List.prefix_rfl
  unended := List.forall_mem_nil _
  narrowed := trivial
  length := by
    show 4 + 0 = Decimal.value (ascii ['4'])
    decide
  tag := rfl
  checksum := zeroChecksum_field
  room := by decide

theorem longMessage_scalar {n : ℕ} (hn : n + 18 ≤ 2 ^ 32) :
    ScalarScanner.Taken (longMessage n) (longHead n) [] zeroChecksum where
  head := longHead_wellFormed n
  bytes := rfl
  rest := by
    rw [List.nil_append, wire_singleton]
    exact List.prefix_rfl
  fields := List.forall_mem_nil _
  length := by
    show 4 + 0 = Decimal.value (ascii ['4'])
    decide
  ending := by
    rw [List.append_nil]
    refine (ScalarScanner.endingField_iff (t := []) ?_ ?_).2 zeroChecksum_field
    · rw [List.append_nil]
      rfl
    · rw [(longHead_length n).1]
      exact hn
  room := by decide

/-- The index of a message of exactly 4 GiB. -/
theorem longMessage_frameLength (s : Scanner) :
    ∃ v, (s.scan (longMessage (2 ^ 32 - 18)) .fresh).result = some (.ok, v) ∧ v.frameLength = 0 := by
  have hend : (longHead (2 ^ 32 - 18)).bodyEnd + zeroChecksum.size = 2 ^ 32 := by
    rw [(longHead_length _).2]
    rfl
  cases s with
  | scalar =>
    have ht := longMessage_scalar (n := 2 ^ 32 - 18) (by omega)
    refine ⟨_, (ScalarScanner.scan_taken _ .fresh).2 ⟨_, _, _, ht, rfl⟩, ?_⟩
    rw [ht.counted.frameLength, hend]
    rfl
  | avx2 =>
    have ht := longMessage_avx2 (2 ^ 32 - 18)
    obtain ⟨hiff, hindex⟩ := Avx2Scanner.scan_taken (longMessage (2 ^ 32 - 18)) .fresh
    obtain ⟨v, hv⟩ := hiff.2 ⟨_, _, _, ht⟩
    obtain ⟨h, ps, f, ht', -, -, hframe⟩ := hindex v hv
    obtain rfl := Except.ok.inj (ht.readHead_eq.symm.trans ht'.readHead_eq)
    refine ⟨v, hv, ?_⟩
    rw [hframe, ← zeroChecksum_field.size_eq rfl, hend]
    rfl

/-- Both scanners answer `Ok` on a message of exactly 4 GiB, with the length 0. -/
theorem not_untruncated_longMessage :
    (longMessage (2 ^ 32 - 18)).length = 2 ^ 32 ∧
      ¬ Untruncated .scalar (longMessage (2 ^ 32 - 18)) ∧
      ¬ Untruncated .avx2 (longMessage (2 ^ 32 - 18)) := by
  have hnot : ∀ s : Scanner, ¬ Untruncated s (longMessage (2 ^ 32 - 18)) := by
    intro s hexact
    obtain ⟨v, hv, h0⟩ := longMessage_frameLength s
    exact (hexact .fresh v hv).advances h0
  refine ⟨?_, hnot .scalar, hnot .avx2⟩
  have h7 : (longHead (2 ^ 32 - 18)).rest.length = 7 := rfl
  rw [longMessage, List.length_append, (longHead_length _).1, h7]
  omega

end SwiftFIX
