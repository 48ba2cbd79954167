/-
  The frames that the encoder produces.

  A frame is `Normal` if it is written as `render` writes: version `FIX.4.4`,
  numbers without leading zeros, ASCII values and the checksum of its bytes.
  Rendering the pairs that an index spells gives an accepted frame back exactly
  if it is normal, and no other list renders to it (`render_pairsOf`).
-/
import Mathlib.Algebra.Group.Action.Defs
import Mathlib.Algebra.Order.BigOperators.Group.List
import SwiftFIX.Render

namespace SwiftFIX

open Decimal

/-! ## Numbers as they are printed -/

theorem toDigits_first {n : ℕ} (h : 0 < n) : ∃ c s, Nat.toDigits 10 n = c :: s ∧ c ≠ '0' := by
  induction n using Nat.strongRecOn with
  | ind n ih =>
    by_cases hlt : n < 10
    · refine ⟨n.digitChar, [], Nat.toDigits_of_lt_base hlt, fun h0 => ?_⟩
      have hn := Nat.toNat_digitChar_of_lt_ten hlt
      rw [h0, show '0'.toNat = 48 from rfl] at hn
      omega
    · obtain ⟨c, s, hs, hc⟩ := ih (n / 10) (by omega) (by omega)
      exact ⟨c, s ++ [(n % 10).digitChar], by
        rw [Nat.toDigits_of_base_le (by decide) (by omega), hs, List.cons_append], hc⟩

theorem digit_ch {c : Char} (h : c.isDigit) : digit (ch c) = c.toNat - 48 := by
  have hc := toNat_of_isDigit h
  rw [digit, ch_toNat (by omega)]

theorem plain_toDigits {n : ℕ} (h : 0 < n) : Plain (ascii (Nat.toDigits 10 n)) where
  digits := digits_ascii (isDigit_toDigits n)
  first := by
    obtain ⟨c, s, hs, hc⟩ := toDigits_first h
    have hdigit : c.isDigit := isDigit_toDigits n c (hs ▸ List.mem_cons_self)
    refine ⟨ch c, ascii s, by rw [hs, ascii_cons], ?_⟩
    have hrange := toNat_of_isDigit hdigit
    rw [digit_ch hdigit]
    intro h0
    exact hc (Char.toNat_inj.1 (show c.toNat = 48 by omega))

theorem eq_toDigits {ds : List Byte} (h : Plain ds) :
    ascii (Nat.toDigits 10 (Decimal.value ds)) = ds := by
  have hpos : 0 < Decimal.value ds := (Nat.pow_pos (by decide)).trans_le h.bounds.1
  exact (plain_toDigits hpos).eq_of_value h (value_toDigits _)

theorem value_format03d (n : ℕ) : Decimal.value (ascii (format03d n)) = n := by
  rw [Decimal.value, valueFrom_ascii (isDigit_format03d n), format03d, Nat.ofDigitChars_append,
    Nat.ofDigitChars_replicate_zero, Nat.mul_zero, Nat.ofDigitChars_ten_toDigits]

theorem eq_format03d {ds : List Byte} (h3 : ds.length = 3) (hd : ∀ c ∈ ds, IsDigit c) {n : ℕ}
    (hn : n < 256) (hv : Decimal.value ds = n) : ascii (format03d n) = ds := by
  refine value_injective (digits_ascii (isDigit_format03d n)) hd ?_ (by rw [value_format03d, hv])
  rw [ascii, List.length_map, length_format03d hn, h3]

/-! ## ASCII bytes as characters -/

/-- The characters of ASCII bytes. -/
def chars (s : List Byte) : List Char := s.map fun c => Char.ofNat c.toNat

theorem toNat_ofNat (c : Byte) : (Char.ofNat c.toNat).toNat = c.toNat := by
  have hc := c.toNat_lt
  have hvalid : c.toNat.isValidChar := Or.inl (by omega)
  rw [Char.ofNat, dif_pos hvalid]
  rfl

theorem ch_ofNat (c : Byte) : ch (Char.ofNat c.toNat) = c := by
  have hc := c.toNat_lt
  refine UInt8.toNat_inj.1 ?_
  show (Char.ofNat c.toNat).toNat % 256 = c.toNat
  rw [toNat_ofNat]
  omega

theorem ascii_chars (s : List Byte) : ascii (chars s) = s := by
  rw [ascii, chars, List.map_map]
  exact List.map_id'' ch_ofNat s

theorem chars_ascii {s : List Char} (h : ∀ c ∈ s, c.toNat < 128) : chars (ascii s) = s := by
  rw [ascii, chars, List.map_map]
  refine (List.map_congr_left fun c hc => ?_).trans (List.map_id s)
  rw [Function.comp, ch_toNat (h c hc), Char.ofNat_toNat, id]

/-! ## Fields as pairs -/

/-- The pair of a field. -/
def fieldPair (f : Field) : ℤ × List Char := (f.number, chars f.value)

/-- The pairs an index spells between the header and the checksum. -/
def pairsOf (b : Buffer) (v : IndexView) : List (ℤ × List Char) :=
  ((spelled b v).drop 2).dropLast.map fun p => (↑p.1, chars p.2)

theorem pairsOf_index (M : Message) (t : List Byte) :
    pairsOf (M.bytes ++ t) M.index = (M.f35 :: M.body).map fieldPair := by
  have hfields : M.fields.drop 2 = (M.f35 :: M.body) ++ [M.checksum] := rfl
  rw [pairsOf, spelled_index, ← List.map_drop, ← List.map_dropLast, hfields, List.dropLast_concat,
    List.map_map]
  rfl

theorem pairField_fieldPair {f : Field} (h : Plain f.tag) : pairField (fieldPair f) = f := by
  rw [pairField, fieldPair, formatInt_natCast, Field.number, eq_toDigits h, ascii_chars]

theorem pairField_number {p : ℤ × List Char} (h : 1 ≤ p.1) : (pairField p).number = p.1.toNat := by
  rw [Field.number, pairField, formatInt_eq h, value_toDigits]

theorem Renderable.fieldPair_pairField {tags : List (ℤ × List Char)} (h : Renderable tags)
    {p : ℤ × List Char} (hp : p ∈ tags) : fieldPair (pairField p) = p := by
  have hpos := (h.range p hp).1
  have hchars : chars (pairField p).value = p.2 := chars_ascii fun c hc => (h.values p hp c hc).1
  refine Prod.ext ?_ hchars
  show ((pairField p).number : ℤ) = p.1
  rw [h.number_pairField hp]
  omega

theorem plain_tag35 : Plain (ascii ['3', '5']) := ⟨by decide, _, _, rfl, by decide⟩

/-! ## Normal messages -/

/-- **Written as the encoder writes**: the encoder's version, numbers without
    leading zeros, ASCII values, and the checksum of the bytes before it. -/
structure Message.Normal (M : Message) : Prop where
  version : M.beginString = ascii BEGIN_STRING
  length : Plain M.bodyLength
  tags : ∀ f ∈ M.body, Plain f.tag
  values : ∀ f ∈ M.f35 :: M.body, ∀ c ∈ f.value, c.toNat < 128
  canonical : M.Canonical
  sum : Decimal.value M.checksum.value = checksumOf (wire M.fields.dropLast)

namespace Renderable
variable {p : ℤ × List Char} {tags : List (ℤ × List Char)} (h : Renderable (p :: tags))
  (hn : (renderBody (p :: tags)).length ≤ maxNumber)

theorem message_wire : wire (h.message hn).fields.dropLast = ascii (headAndBody (p :: tags)) := by
  have hdrop : (h.message hn).fields.dropLast = ⟨ascii ['8'], ascii BEGIN_STRING⟩ ::
      ⟨ascii ['9'], ascii (Nat.toDigits 10 (renderBody (p :: tags)).length)⟩ ::
        (p :: tags).map pairField := by
    rw [h.message_fields hn, ← List.cons_append, ← List.cons_append, List.dropLast_concat]
  rw [hdrop, wire_cons, wire_cons, ← ascii_renderBody, headAndBody, ascii_append, renderPrefix,
    formatInt_natCast]
  simp only [ascii_cons, ascii_append, Field.bytes, List.append_assoc, List.cons_append]
  rfl

theorem message_pairs : (h.message hn).f35 :: (h.message hn).body = (p :: tags).map pairField := by
  rw [List.map_cons, h.pairField_first]
  rfl

/-- **What is rendered is normal.** -/
theorem message_normal : (h.message hn).Normal where
  version := rfl
  length := by
    refine plain_toDigits ?_
    rw [renderBody, List.flatMap_cons]
    simp only [List.length_append, List.length_cons]
    omega
  tags := by
    intro f hf
    obtain ⟨q, hq, rfl⟩ := List.mem_map.1 hf
    have hpos := (h.range q (List.mem_cons_of_mem _ hq)).1
    rw [pairField, formatInt_eq hpos]
    exact plain_toDigits (by omega)
  values := by
    rw [h.message_pairs hn]
    intro f hf c hc
    obtain ⟨q, hq, rfl⟩ := List.mem_map.1 hf
    obtain ⟨d, hd, rfl⟩ := List.mem_map.1 hc
    have hlt := (h.values q hq d hd).1
    rwa [ch_toNat hlt]
  canonical := h.message_canonical hn
  sum := by
    rw [h.message_wire hn]
    exact value_format03d _

end Renderable

/-- The pairs of a message with ASCII values are a list the encoder is meant
    for. -/
theorem Message.renderable {M : Message} (h : ∀ f ∈ M.f35 :: M.body, ∀ c ∈ f.value, c.toNat < 128) :
    Renderable ((M.f35 :: M.body).map fieldPair) := by
  have hfields : ∀ f ∈ M.f35 :: M.body, (1 ≤ f.number ∧ f.number ≤ maxNumber) ∧ f.number ≠ 95 ∧
      f.number ≠ 96 ∧ SOH ∉ f.value := by
    intro f hf
    rcases List.mem_cons.1 hf with rfl | hf
    · have h35 : M.f35.number = 35 := (by decide : Decimal.value (ascii ['3', '5']) = 35)
      rw [h35]
      exact ⟨by decide, by decide, by decide, M.msgType_open⟩
    · have hb := M.body_fields f hf
      exact ⟨⟨Nat.pos_of_ne_zero hb.tag.2, hb.tag.1.2⟩, hb.notLength, hb.notData, hb.value⟩
  constructor
  · rfl
  · rw [List.forall_mem_map]
    intro f hf
    have hrange := (hfields f hf).1
    rw [maxNumber] at hrange
    show 1 ≤ (f.number : ℤ) ∧ (f.number : ℤ) ≤ 4294967289
    omega
  · rw [List.forall_mem_map]
    intro f hf
    exact fun h95 => (hfields f hf).2.1 (Int.ofNat_inj.1 h95)
  · rw [List.forall_mem_map]
    intro f hf
    exact fun h96 => (hfields f hf).2.2.1 (Int.ofNat_inj.1 h96)
  · rw [List.forall_mem_map]
    intro f hf c hc
    obtain ⟨d, hd, rfl⟩ := List.mem_map.1 hc
    refine ⟨?_, fun hsoh => (hfields f hf).2.2.2 ?_⟩
    · rw [toNat_ofNat]
      exact h f hf d hd
    · have hd' : d = SOH := by
        rw [← ch_ofNat d, hsoh]
        rfl
      rwa [← hd']

theorem Message.dropLast_fields (M : Message) :
    M.fields.dropLast = M.f8 :: M.f9 :: M.f35 :: M.body := by
  have hfields : M.fields = (M.f8 :: M.f9 :: M.f35 :: M.body) ++ [M.checksum] := rfl
  rw [hfields, List.dropLast_concat]

theorem Message.eq_of_dropLast {M N : Message} (h : M.fields.dropLast = N.fields.dropLast)
    (hlast : M.checksum = N.checksum) : M = N := by
  have hsplit : ∀ K : Message, K.fields = K.fields.dropLast ++ [K.checksum] := fun K => by
    rw [K.dropLast_fields]
    rfl
  exact Message.fields_injective (by rw [hsplit M, hsplit N, h, hlast])

namespace Message.Normal
variable {M : Message}

theorem map_pairField (h : M.Normal) :
    ((M.f35 :: M.body).map fieldPair).map pairField = M.f35 :: M.body := by
  rw [List.map_map]
  refine (List.map_congr_left fun f hf => ?_).trans (List.map_id _)
  rcases List.mem_cons.1 hf with rfl | hf
  · exact pairField_fieldPair plain_tag35
  · exact pairField_fieldPair (h.tags f hf)

theorem body_length (h : M.Normal) :
    (renderBody ((M.f35 :: M.body).map fieldPair)).length = Decimal.value M.bodyLength := by
  have hl := congrArg List.length (ascii_renderBody ((M.f35 :: M.body).map fieldPair))
  rw [h.map_pairField, ascii, List.length_map] at hl
  exact hl.trans M.length_eq

theorem message_eq (h : M.Normal) (hr : Renderable (fieldPair M.f35 :: M.body.map fieldPair))
    (hn : (renderBody (fieldPair M.f35 :: M.body.map fieldPair)).length ≤ maxNumber) :
    hr.message hn = M := by
  have hhead : (hr.message hn).fields.dropLast = M.fields.dropLast := by
    have h8 : M.f8 = ⟨ascii ['8'], ascii BEGIN_STRING⟩ := by rw [Message.f8, h.version]
    have h9 : M.f9 = ⟨ascii ['9'], ascii (Nat.toDigits 10 (Decimal.value M.bodyLength))⟩ := by
      rw [Message.f9, eq_toDigits h.length]
    rw [hr.message_fields hn, ← List.map_cons, h.map_pairField, h.body_length, M.dropLast_fields,
      ← h8, ← h9]
    simp only [← List.cons_append, List.dropLast_concat]
  have hsum : ascii (format03d (checksumOf (ascii (headAndBody
      (fieldPair M.f35 :: M.body.map fieldPair))))) = M.checksum.value := by
    rw [← hr.message_wire hn, hhead]
    exact eq_format03d M.checksum_field.length M.checksum_field.digits
      (Nat.mod_lt _ (by decide)) h.sum
  refine Message.eq_of_dropLast hhead ?_
  have htag := h.canonical
  show Field.mk _ _ = _
  rw [hsum, ← htag]

/-- **Rendering the pairs of a normal message** gives the message. -/
theorem render_eq (h : M.Normal) : render ((M.f35 :: M.body).map fieldPair) = some M.bytes := by
  have hr := Message.renderable h.values
  have hn : (renderBody (fieldPair M.f35 :: M.body.map fieldPair)).length ≤ maxNumber :=
    h.body_length.trans_le M.bodyLength_numeral.2
  have hbytes := hr.message_bytes hn
  rwa [h.message_eq hr hn] at hbytes

end Message.Normal

/-! ## Rendering undoes scanning -/

theorem values_of_render {tags : List (ℤ × List Char)} {b : List Byte} (h : render tags = some b) :
    ∀ p ∈ tags, ∀ c ∈ p.2, c.toNat < 128 := by
  obtain ⟨summed, hsummed, -⟩ := Option.bind_eq_some_iff.1 h
  have hascii : ∀ c ∈ headAndBody tags, c.toNat < 128 := by
    by_contra hno
    rw [encodeAscii, if_neg hno] at hsummed
    cases hsummed
  intro p hp c hc
  refine hascii c (List.mem_append_right _ (List.mem_flatMap.2 ⟨p, hp, ?_⟩))
  simp [hc]

/-- The body of a message below 4 GiB has a length that can be declared. -/
theorem Renderable.body_le {tags : List (ℤ × List Char)} {b : List Byte} (h : Renderable tags)
    (hb : render tags = some b) (hlt : b.length < 2 ^ 32) :
    (renderBody tags).length ≤ maxNumber := by
  rw [h.render_eq, Option.some.injEq] at hb
  have hlen : b.length = (renderPrefix (renderBody tags).length).length + (renderBody tags).length +
      (renderTrailer tags).length := by
    rw [← hb, ascii, List.length_map, List.length_append, headAndBody, List.length_append]
  have hpre := le_length_renderPrefix (renderBody tags).length
  rw [maxNumber]
  omega

/-- Few short values make a short frame. -/
theorem Renderable.short {tags : List (ℤ × List Char)} (h : Renderable tags)
    (hlen : tags.length ≤ 253) (hvalues : ∀ p ∈ tags, p.2.length ≤ 440) {b : List Byte}
    (hr : render tags = some b) : b.length < 2 ^ 32 := by
  have hbody : (renderBody tags).length ≤ tags.length * 452 := by
    rw [renderBody, List.length_flatMap, ← smul_eq_mul, ← List.length_map]
    refine List.sum_le_card_nsmul _ 452 (List.forall_mem_map.2 fun p hp => ?_)
    obtain ⟨h1, h2⟩ := h.range p hp
    have htag : (formatInt p.1).length ≤ 10 := by
      rw [formatInt_eq h1]
      exact (Nat.length_toDigits_le_iff (by decide) (by decide)).2 (by omega)
    have hvalue := hvalues p hp
    simp only [List.length_append, List.length_cons, List.length_nil]
    omega
  have hprefix : (renderPrefix (renderBody tags).length).length ≤ 23 := by
    have hdigits : (formatInt (renderBody tags).length).length ≤ 10 := by
      rw [formatInt_natCast]
      exact (Nat.length_toDigits_le_iff (by decide) (by decide)).2 (by omega)
    have h7 : BEGIN_STRING.length = 7 := rfl
    simp only [renderPrefix, List.length_cons, List.length_append, List.length_nil]
    omega
  have htrailer : (renderTrailer tags).length = 7 := by
    have h3 := length_format03d (Nat.mod_lt ((ascii (headAndBody tags)).map (·.toNat)).sum
      (show 256 > 0 by decide))
    simp only [renderTrailer, List.length_cons, List.length_append, List.length_nil, checksumOf, h3]
  rw [h.render_eq, Option.some.injEq] at hr
  rw [← hr, ascii, List.length_map, List.length_append, headAndBody, List.length_append]
  omega

/-- A list that renders to a frame is the list of its pairs, and the frame is
    normal. -/
theorem Renderable.frame_eq {tags : List (ℤ × List Char)} (h : Renderable tags) {F : Frame}
    (hlt : F.bytes.length < 2 ^ 32) (hr : render tags = some F.bytes) :
    F.Normal ∧ tags = (F.f35 :: F.body).map fieldPair := by
  have hn := h.body_le hr hlt
  rcases tags with _ | ⟨p, tags⟩
  · cases h.first
  have hbytes : (h.message hn).bytes = F.bytes :=
    Option.some.inj ((h.message_bytes hn).symm.trans hr)
  have hok := (Scanner.scalar.result_ok hlt .fresh).2 ⟨F, trivial, List.prefix_rfl, rfl⟩
  have hroom : (h.message hn).body.length + 4 ≤ kMaxFields := by
    by_contra hfull
    obtain ⟨v, hv⟩ := (Scanner.scalar.scan_message (h.message_canonical hn) (hbytes ▸ hlt) []
      .fresh).2 (not_le.1 hfull)
    rw [List.append_nil, hbytes, hok] at hv
    cases hv
  obtain rfl : F = ⟨h.message hn, hroom⟩ :=
    Scanner.frame_unique hlt List.prefix_rfl (hbytes ▸ List.prefix_rfl)
  refine ⟨h.message_normal hn, ?_⟩
  show _ = ((h.message hn).f35 :: (h.message hn).body).map fieldPair
  rw [h.message_pairs hn, List.map_map]
  exact ((List.map_congr_left fun q hq => h.fieldPair_pairField hq).trans (List.map_id _)).symm

/-- **Rendering undoes scanning** exactly on the normal frames: the pairs that
    an accepted frame spells render to the frame iff it is normal, and nothing
    else that the encoder is meant for renders to it. -/
theorem render_pairsOf (s : Scanner) (b : Buffer) (hb : b.length < 2 ^ 32) (out : FieldIndex)
    (v : IndexView) (hv : (s.scan b out).result = some (.ok, v)) (hwhole : v.frameLength = b.length) :
    (render (pairsOf b v) = some b ↔ ∃ F : Frame, F.bytes = b ∧ F.Normal) ∧
      ∀ tags, Renderable tags → render tags = some b → tags = pairsOf b v := by
  obtain ⟨F, -, hF, rfl⟩ := (s.result_ok hb out).1 hv
  obtain rfl : F.bytes = b := hF.eq_of_length hwhole
  have hpairs : pairsOf F.bytes F.index = (F.f35 :: F.body).map fieldPair := by
    have h := pairsOf_index F.toMessage []
    rwa [List.append_nil] at h
  rw [hpairs]
  refine ⟨⟨fun hr => ⟨F, rfl, ?_⟩, ?_⟩, fun tags h hr => (h.frame_eq hb hr).2⟩
  · have hascii : ∀ f ∈ F.f35 :: F.body, ∀ c ∈ f.value, c.toNat < 128 := by
      intro f hf c hc
      have hc' := values_of_render hr (fieldPair f) (List.mem_map_of_mem hf) _ (List.mem_map_of_mem hc)
      rwa [toNat_ofNat] at hc'
    exact ((Message.renderable hascii).frame_eq hb hr).1
  · rintro ⟨G, hG, hnormal⟩
    obtain rfl : F = G := Scanner.frame_unique hb List.prefix_rfl (hG ▸ List.prefix_rfl)
    exact hnormal.render_eq

/-! ## The frame of a list -/

/-- The pairs of the message that a list is rendered to. -/
def framePairs (tags : List (ℤ × List Char)) : List (ℤ × List Char) :=
  (8, BEGIN_STRING) :: (9, formatInt (renderBody tags).length) ::
    (tags ++ [(10, format03d (checksumOf (ascii (headAndBody tags))))])

theorem framePairs_tags {tags : List (ℤ × List Char)} {P : ℤ → Prop} (h8 : P 8) (h9 : P 9)
    (h10 : P 10) (h : ∀ p ∈ tags, P p.1) : ∀ p ∈ framePairs tags, P p.1 := by
  intro p hp
  simp only [framePairs, List.mem_cons, List.mem_append, List.not_mem_nil, or_false] at hp
  rcases hp with rfl | rfl | hp | rfl
  · exact h8
  · exact h9
  · exact h p hp
  · exact h10

/-- **A rendered list is a frame** of its pairs, as long as they fit the table. -/
theorem Renderable.exists_frame {tags : List (ℤ × List Char)} (h : Renderable tags)
    (hlen : tags.length ≤ 253) {b : List Byte} (hr : render tags = some b) (hlt : b.length < 2 ^ 32) :
    ∃ F : Frame, F.Canonical ∧ F.bytes = b ∧ F.fields = (framePairs tags).map pairField := by
  have hn := h.body_le hr hlt
  rcases tags with _ | ⟨p, tags⟩
  · cases h.first
  have hroom : (h.message hn).body.length + 4 ≤ kMaxFields := by
    show (tags.map pairField).length + 4 ≤ 256
    rw [List.length_cons] at hlen
    rw [List.length_map]
    omega
  refine ⟨⟨h.message hn, hroom⟩, h.message_canonical hn, ?_, ?_⟩
  · exact Option.some.inj ((h.message_bytes hn).symm.trans hr)
  · have hpairs : (framePairs (p :: tags)).map pairField = pairField (8, BEGIN_STRING) ::
        pairField (9, formatInt (renderBody (p :: tags)).length) :: ((p :: tags).map pairField ++
          [pairField (10, format03d (checksumOf (ascii (headAndBody (p :: tags)))))]) := by
      rw [framePairs, List.map_cons, List.map_cons, List.map_append, List.map_singleton]
    rw [hpairs]
    exact h.message_fields hn

/-- Either scanner accepts a frame whose checksum tag is not padded. -/
theorem Frame.accepts (F : Frame) (h : F.Canonical) (s : Scanner) : s.Accepts F := by
  cases s with
  | scalar => trivial
  | avx2 => exact h

/-- **A rendered list is read back** by either scanner. -/
theorem Renderable.scan_back {tags : List (ℤ × List Char)} (h : Renderable tags)
    (hlen : tags.length ≤ 253) {b : List Byte} (hr : render tags = some b) (hlt : b.length < 2 ^ 32)
    (s : Scanner) (out : FieldIndex) : ∃ v, (s.scan b out).result = some (.ok, v) ∧
      v.frameLength = b.length ∧ pairsOf b v = tags := by
  obtain ⟨F, hc, rfl, -⟩ := h.exists_frame hlen hr hlt
  have hpairs := pairsOf_index F.toMessage []
  rw [List.append_nil, ← (h.frame_eq hlt hr).2] at hpairs
  exact ⟨F.index, (s.result_ok hlt out).2 ⟨F, F.accepts hc s, List.prefix_rfl, rfl⟩, rfl, hpairs⟩

/-- The heartbeat as a frame. -/
def heartbeatFrame : Frame := ⟨heartbeatTags_renderable.message (by decide), by decide⟩

theorem render_pairsOf_heartbeat :
    (render (pairsOf heartbeatFrame.bytes heartbeatFrame.index) = some heartbeatFrame.bytes ↔
        ∃ F : Frame, F.bytes = heartbeatFrame.bytes ∧ F.Normal) ∧
      ∀ tags, Renderable tags → render tags = some heartbeatFrame.bytes →
        tags = pairsOf heartbeatFrame.bytes heartbeatFrame.index := by
  have hb : heartbeatFrame.bytes.length < 2 ^ 32 := by decide
  have hok := (Scanner.avx2.result_ok hb .fresh).2 ⟨heartbeatFrame, rfl, List.prefix_rfl, rfl⟩
  exact render_pairsOf .avx2 heartbeatFrame.bytes hb .fresh _ hok rfl

end SwiftFIX
