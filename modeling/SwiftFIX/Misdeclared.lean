/-
  A wrong declared body length is always caught (`Scanner.scan_misdeclared`).

  A length that is too large makes both scanners wait.  One that is too small
  puts the declared end inside the body: the scalar scanner runs past it or
  finds a body field where the checksum field should be, the AVX2 scanner sees a
  window that ends before the trailer does.
-/
import SwiftFIX.Viability
import SwiftFIX.Render

namespace SwiftFIX

open Decimal Delimited EarlyExit

/-! ## Buffers with a declared length -/

/-- The ASCII digits of a number. -/
def decimal (n : ℕ) : List Byte := ascii (Nat.toDigits 10 n)

/-- The bytes of a list of pairs of a tag and a value. -/
def tagBytes (tags : List (ℕ × List Byte)) : List Byte :=
  tags.flatMap fun p => decimal p.1 ++ ch '=' :: (p.2 ++ [SOH])

/-- The tag lists of a body: tag 35 first, tags within the scanners' range, none
    of them the tag of a checksum or of embedded data, values without an SOH. -/
structure PlainTags (tags : List (ℕ × List Byte)) : Prop where
  first : tags.head?.map Prod.fst = some 35
  range : ∀ p ∈ tags, 1 ≤ p.1 ∧ p.1 ≤ 4294967289
  notChecksum : ∀ p ∈ tags, p.1 ≠ 10
  notLength : ∀ p ∈ tags, p.1 ≠ 95
  notData : ∀ p ∈ tags, p.1 ≠ 96
  values : ∀ p ∈ tags, SOH ∉ p.2

/-- `8=FIX.4.4|9=m|`, the body, and `10=ddd|`. -/
def declaring (m : ℕ) (tags : List (ℕ × List Byte)) (ddd : List Byte) : Buffer :=
  ascii "8=FIX.4.4".toList ++ SOH :: (ascii ['9', '='] ++ decimal m ++ SOH ::
    (tagBytes tags ++ (ascii ['1', '0', '='] ++ ddd ++ [SOH])))

/-- The field of a pair. -/
def tagField (p : ℕ × List Byte) : Field := ⟨decimal p.1, p.2⟩

theorem tagBytes_eq (tags : List (ℕ × List Byte)) : tagBytes tags = wire (tags.map tagField) := by
  rw [wire, List.flatMap_map]
  rfl

theorem declaring_eq (m : ℕ) (tags : List (ℕ × List Byte)) (ddd : List Byte) :
    declaring m tags ddd = wire [⟨ascii ['8'], ascii BEGIN_STRING⟩, ⟨ascii ['9'], decimal m⟩] ++
      (wire (tags.map tagField) ++ Field.bytes ⟨ascii ['1', '0'], ddd⟩) := by
  have h8 : ascii "8=FIX.4.4".toList = ascii ['8'] ++ ch '=' :: ascii BEGIN_STRING := rfl
  have h9 : ascii ['9', '='] = ascii ['9'] ++ [ch '='] := rfl
  have h10 : ascii ['1', '0', '='] = ascii ['1', '0'] ++ [ch '='] := rfl
  rw [declaring, tagBytes_eq, wire_cons, wire_singleton, h8, h9, h10]
  simp only [Field.bytes, List.append_assoc, List.cons_append, List.nil_append]

namespace PlainTags
variable {tags : List (ℕ × List Byte)}

theorem number_tagField (p : ℕ × List Byte) : (tagField p).number = p.1 := value_toDigits p.1

theorem bodyField (h : PlainTags tags) {p : ℕ × List Byte} (hp : p ∈ tags) :
    BodyField (tagField p) := by
  obtain ⟨h1, h2⟩ := h.range p hp
  have hn := number_tagField p
  refine ⟨⟨numeral_toDigits h2, ?_⟩, ?_, ?_, h.values p hp⟩
  · show (tagField p).number ≠ 0
    omega
  · rw [hn]
    exact h.notLength p hp
  · rw [hn]
    exact h.notData p hp

end PlainTags

/-! ## A declared length that is too small -/

/-- The field a position inside the body falls into. -/
theorem exists_field_across {gs : List Field} {left : ℕ} (h : left < (wire gs).length) :
    ∃ gs₁ g gs₂, gs = gs₁ ++ g :: gs₂ ∧ (wire gs₁).length ≤ left ∧
      left < (wire gs₁).length + g.size := by
  have hpre : (wire gs).take left <+: wire gs ++ [] := by
    rw [List.append_nil]
    exact List.take_prefix _ _
  have hlen : ((wire gs).take left).length = left := by
    rw [List.length_take]
    omega
  rcases wire_cut gs hpre with ⟨v, hv, -⟩ | ⟨gs₁, g, gs₂, v, rfl, hv, hin⟩
  · have := congrArg List.length hv
    rw [hlen, List.length_append] at this
    omega
  · refine ⟨gs₁, g, gs₂, rfl, ?_, ?_⟩
    · rw [← hlen, hv, List.length_append]
      omega
    · have hpiece := hin.length_le
      have hsize := congrArg List.length g.bytes_eq
      rw [g.bytes_length, List.length_append, List.length_singleton] at hsize
      rw [← hlen, hv, List.length_append]
      omega

/-- The fields from the message type on, with more bytes than declared, and the
    bytes of a trailer after them. -/
structure Understated (h : Head) (gs : List Field) (t : List Byte) : Prop where
  rest : h.rest = wire gs ++ t
  fields : ∀ g ∈ gs, BodyField g
  notChecksum : ∀ g ∈ gs, g.number ≠ 10
  room : h.fields.length + gs.length ≤ kMaxFields
  short : h.bodyLen < h.f35.size + (wire gs).length

section
variable {b : Buffer} {h : Head} {gs : List Field} {t : List Byte}

/-- The scalar scanner stops at the field the declared end falls into. -/
theorem Understated.scalar (hu : Understated h gs t) (hh : readHead b = .ok h) :
    (ScalarScanner.read b).status = .badBodyLength := by
  have hread : ScalarScanner.read b =
      .ofRead (do let x ← ScalarScanner.readRest h; ScalarScanner.readEnding b x.1 x.2) := by
    rw [ScalarScanner.read, hh]
    rfl
  have hpast : ∀ fs, (Reading.ofRead (ScalarScanner.readEnding b fs none)).status =
      .badBodyLength := fun fs => rfl
  rw [hread, ScalarScanner.readRest]
  by_cases hsize : h.bodyLen < h.f35.size
  · rw [if_pos hsize]
    exact hpast _
  rw [if_neg hsize, hu.rest]
  have hshort := hu.short
  obtain ⟨gs₁, g, gs₂, rfl, hle, hlt⟩ :=
    exists_field_across (show h.bodyLen - h.f35.size < (wire gs).length by omega)
  have hroom := hu.room
  rw [List.length_append, List.length_cons] at hroom
  have hg := hu.fields g (by simp)
  have hnext : readField (g.bytes ++ (wire gs₂ ++ t)) = .field g (wire gs₂ ++ t) :=
    readField_field.2 ⟨rfl, hg.tag, hg.value⟩
  have hskip : ScalarScanner.readBody h.fields _ (wire gs₁ ++ (g.bytes ++ (wire gs₂ ++ t))) = _ :=
    ScalarScanner.readBody_skip (fun f hf => hu.fields f (List.mem_append_left _ hf)) _ (by omega) hle
  rw [wire_append, wire_cons, List.append_assoc, List.append_assoc, hskip]
  by_cases hend : h.bodyLen - h.f35.size - (wire gs₁).length = 0
  · -- the declared end is a field boundary: a body field stands at the trailer
    rw [(ScalarScanner.BodyStop.done hend).readBody_eq, ok_bind]
    simp only [ScalarScanner.readEnding, hnext, hu.notChecksum g (by simp), ne_eq,
      not_false_eq_true, if_true]
    rfl
  · have hfb : ¬ (g.number = 95 ∨ g.number = 96) := not_or.2 ⟨hg.notLength, hg.notData⟩
    have hlong : h.bodyLen - h.f35.size - (wire gs₁).length < g.size := by omega
    have hroom' : (h.fields ++ gs₁).length < kMaxFields := by
      rw [List.length_append]
      omega
    rw [(ScalarScanner.BodyStop.overrun hend hroom' hnext hfb hlong).readBody_eq, ok_bind]
    exact hpast _

/-- The window of the AVX2 scanner ends inside the body or inside the trailer. -/
theorem Understated.exists_pieces (hu : Understated h gs (t ++ [SOH])) (ht : SOH ∉ t)
    (h6 : t.length = 6) :
    ∃ gs₁ gs₂, gs = gs₁ ++ gs₂ ∧ pieces SOH (Avx2Scanner.window h) = gs₁.map Field.piece := by
  have hshort := hu.short
  have hpre : Avx2Scanner.window h <+: wire gs ++ t := by
    refine List.prefix_of_prefix_length_le (List.take_prefix _ _)
      (hu.rest ▸ ⟨[SOH], List.append_assoc _ _ _⟩) ?_
    rw [Avx2Scanner.window, List.length_take, List.length_append]
    omega
  have hopen : ∀ g ∈ gs, SOH ∉ g.piece := fun g hg =>
    (hu.fields g hg).tag.piece_open (hu.fields g hg).value
  rcases wire_cut gs hpre with ⟨v, hv, hin⟩ | ⟨gs₁, g, gs₂, v, rfl, hv, hin⟩
  · refine ⟨gs, [], (List.append_nil _).symm, pieces_eq.2 ⟨v, ?_, fun hm => ht (hin.subset hm), ?_⟩⟩
    · rw [hv, wire_eq]
    · exact List.forall_mem_map.2 hopen
  · refine ⟨gs₁, g :: gs₂, rfl, pieces_eq.2 ⟨v, ?_, fun hm => ?_, ?_⟩⟩
    · rw [hv, wire_eq]
    · exact hopen g (by simp) (hin.subset hm)
    · exact List.forall_mem_map.2 fun f hf => hopen f (List.mem_append_left _ hf)

theorem readTrailer_bodyField {bodyEnd : ℕ} {fs : List Field} {g : Field} (hg : Tag g.tag)
    (h10 : g.number ≠ 10) :
    Avx2Scanner.readTrailer bodyEnd fs g.piece = .error ⟨.badBodyLength, fs⟩ := by
  have hstrip : strip [ch '1', ch '0', ch '='] g.piece = none := by
    rcases hs : strip [ch '1', ch '0', ch '='] g.piece with _ | d
    · rfl
    have hp : g.tag ++ ch '=' :: g.value = ascii ['1', '0'] ++ ch '=' :: d := by
      rw [← Field.piece, strip_some.1 hs]
      rfl
    have htag : g.tag = ascii ['1', '0'] := (cut_unique hg.1.eq_notMem (by decide) hp).1
    refine absurd ?_ h10
    rw [Field.number, htag]
    decide
  unfold Avx2Scanner.readTrailer
  rw [hstrip]
  split
  · rfl
  split
  · rfl
  · rfl

/-- The AVX2 scanner finds no trailer at the end of its window. -/
theorem Understated.avx2 (hu : Understated h gs (t ++ [SOH])) (ht : SOH ∉ t) (h6 : t.length = 6)
    (hh : readHead b = .ok h) : (Avx2Scanner.read b).status = .badBodyLength := by
  have hread : Avx2Scanner.read b = .ofRead (Avx2Scanner.readRest h) := by
    rw [Avx2Scanner.read, hh]
    rfl
  obtain ⟨gs₁, gs₂, rfl, hps⟩ := hu.exists_pieces ht h6
  have hroom := hu.room
  rw [List.length_append] at hroom
  rw [hread, Avx2Scanner.readRest, hps, List.length_map, if_neg (by omega)]
  rcases List.eq_nil_or_concat gs₁ with rfl | ⟨gs₀, g, rfl⟩
  · rfl
  · rw [List.concat_eq_append] at hroom hu ⊢
    rw [List.length_append, List.length_singleton] at hroom
    have hmem : ∀ f, f ∈ gs₀ ++ [g] → f ∈ gs₀ ++ [g] ++ gs₂ := fun f hf =>
      List.mem_append_left _ hf
    have hskip : Avx2Scanner.readPieces h.fields (gs₀.map Field.piece ++ []) = _ :=
      Avx2Scanner.readPieces_skip
        (fun f hf => (hu.fields f (hmem f (List.mem_append_left _ hf))).taken) [] (by omega)
    have hg : g ∈ gs₀ ++ [g] := by simp
    rw [List.append_nil] at hskip
    rw [List.map_append, List.map_singleton, List.getLast?_concat, List.dropLast_concat]
    simp only
    rw [hskip, Avx2Scanner.readPieces, ok_bind,
      readTrailer_bodyField (hu.fields g (hmem g hg)).tag (hu.notChecksum g (hmem g hg))]
    rfl

end

/-! ## Both scanners -/

/-- Short of the declared body and seven more bytes, both scanners wait. -/
theorem Scanner.read_long (s : Scanner) {b : Buffer} {f8 f9 : Field} {y : List Byte}
    (hd : Declared b f8 f9 y) (hlen : y.length < f9.declares + 7) :
    (s.read b).status = .truncated := by
  obtain ⟨fs, hfs⟩ := (headersWait_iff b).2 (.body hd hlen)
  cases s with
  | scalar =>
    rw [read, ScalarScanner.read, hfs]
    rfl
  | avx2 =>
    rw [read, Avx2Scanner.read, hfs]
    rfl

section
variable {tags : List (ℕ × List Byte)} {m : ℕ} {ddd : List Byte}

theorem declared_declaring (hm : m ≤ 4294967289) :
    Declared (declaring m tags ddd) ⟨ascii ['8'], ascii BEGIN_STRING⟩ ⟨ascii ['9'], decimal m⟩
      (wire (tags.map tagField) ++ Field.bytes ⟨ascii ['1', '0'], ddd⟩) where
  bytes := declaring_eq m tags ddd
  tag8 := rfl
  value8 := by decide
  tag9 := rfl
  value9 := numeral_toDigits hm
  value9_ne := fun h0 => Nat.toDigits_ne_nil (List.map_eq_nil_iff.1 h0)

/-- A declared length that is too small, with the trailer `10=ddd`. -/
theorem exists_understated (h : PlainTags tags) (hcount : tags.length ≤ 253)
    (hm : m ≤ 4294967289) (h3 : ddd.length = 3) (hlt : m < (tagBytes tags).length) :
    ∃ hd gs, readHead (declaring m tags ddd) = .ok hd ∧
      Understated hd gs (ascii ['1', '0', '='] ++ ddd ++ [SOH]) := by
  rcases tags with _ | ⟨p, tags⟩
  · cases h.first
  have h35 : p.1 = 35 := by simpa using h.first
  have htag : decimal 35 = [ch '3', ch '5'] := by decide
  have htype : TypeField (tagField p) :=
    ⟨by rw [tagField, h35, htag], h.values p List.mem_cons_self⟩
  have hvalue : Decimal.value (decimal m) = m := value_toDigits m
  have htrailer : Field.bytes ⟨ascii ['1', '0'], ddd⟩ = ascii ['1', '0', '='] ++ ddd ++ [SOH] := by
    simp [Field.bytes, ascii]
  have h7 : (ascii ['1', '0', '='] ++ ddd ++ [SOH]).length = 7 := by
    rw [List.length_append, List.length_append, h3]
    rfl
  have hdecl : Declared (declaring m (p :: tags) ddd) _ _ _ := declared_declaring hm
  rw [List.map_cons, wire_cons, List.append_assoc, htrailer] at hdecl
  rw [tagBytes_eq, List.map_cons, wire_cons_length] at hlt
  have hhead := hdecl.readHead_eq htype (by
    rw [Field.declares, hvalue, List.length_append, List.length_append, Field.bytes_length, h7]
    omega)
  refine ⟨_, tags.map tagField, hhead, rfl, ?_, ?_, ?_, ?_⟩
  · exact List.forall_mem_map.2 fun q hq => h.bodyField (List.mem_cons_of_mem p hq)
  · refine List.forall_mem_map.2 fun q hq => ?_
    rw [PlainTags.number_tagField]
    exact h.notChecksum q (List.mem_cons_of_mem p hq)
  · rw [List.length_cons] at hcount
    rw [List.length_map, kMaxFields]
    show 3 + tags.length ≤ 256
    omega
  · show Decimal.value (decimal m) < _
    rw [hvalue]
    exact hlt

theorem Scanner.read_declaring (s : Scanner) (h : PlainTags tags) (hcount : tags.length ≤ 253)
    (hm : m ≤ 4294967289) (h3 : ddd.length = 3) (hd : ∀ c ∈ ddd, IsDigit c) :
    ((tagBytes tags).length < m → (s.read (declaring m tags ddd)).status = .truncated) ∧
      (m < (tagBytes tags).length → (s.read (declaring m tags ddd)).status = .badBodyLength) := by
  constructor
  · intro hlt
    refine s.read_long (declared_declaring hm) ?_
    have hvalue : Field.declares ⟨ascii ['9'], decimal m⟩ = m := value_toDigits m
    have hcks : (Field.bytes ⟨ascii ['1', '0'], ddd⟩).length = 7 := by
      rw [Field.bytes_length, Field.size, h3]
      rfl
    rw [List.length_append, ← tagBytes_eq, hvalue, hcks]
    omega
  · intro hlt
    obtain ⟨hd', gs, hhead, hu⟩ := exists_understated h hcount hm h3 hlt
    cases s with
    | scalar => exact hu.scalar hhead
    | avx2 =>
      refine hu.avx2 ?_ ?_ hhead
      · rw [List.mem_append, not_or]
        exact ⟨by decide, fun hsoh => digit_ne_soh (hd _ hsoh) rfl⟩
      · rw [List.length_append, h3]
        rfl

/-- **A wrong declared body length is always caught**: both scanners wait when
    it is too large, answer `BadBodyLength` when it is too small, and `Ok` in
    neither case. -/
theorem Scanner.scan_misdeclared (s : Scanner) (out : FieldIndex) (h : PlainTags tags)
    (hcount : tags.length ≤ 253) (hm : m ≤ 4294967289) (h3 : ddd.length = 3)
    (hd : ∀ c ∈ ddd, IsDigit c) (hlt : (declaring m tags ddd).length < 2 ^ 32) :
    ((tagBytes tags).length < m →
        ∃ v, (s.scan (declaring m tags ddd) out).result = some (.truncated, v)) ∧
      (m < (tagBytes tags).length →
        ∃ v, (s.scan (declaring m tags ddd) out).result = some (.badBodyLength, v)) ∧
      (m ≠ (tagBytes tags).length →
        ∀ v, (s.scan (declaring m tags ddd) out).result ≠ some (.ok, v)) := by
  obtain ⟨hlong, hshort⟩ := s.read_declaring h hcount hm h3 hd
  rw [s.scan_result hlt]
  refine ⟨fun hn => ⟨_, by rw [hlong hn]⟩, fun hn => ⟨_, by rw [hshort hn]⟩, fun hne v hv => ?_⟩
  rw [Option.some.injEq, Prod.mk.injEq] at hv
  rcases Nat.lt_or_gt_of_ne hne with hn | hn
  · rw [hshort hn] at hv
    cases hv.1
  · rw [hlong hn] at hv
    cases hv.1

end

/-- A heartbeat of nine bytes, with a second field. -/
def heartbeatPairs : List (ℕ × List Byte) := [(35, ascii ['0']), (7, ascii ['1'])]

theorem heartbeatPairs_plain : PlainTags heartbeatPairs := by
  constructor <;> decide

/-- Declared with five bytes, where its second field begins, and with ten. -/
theorem Scanner.scan_misdeclared_heartbeat :
    (∃ v, (Scanner.avx2.scan (declaring 5 heartbeatPairs (ascii ['0', '0', '0'])) .fresh).result =
        some (.badBodyLength, v)) ∧
      ∃ v, (Scanner.scalar.scan (declaring 10 heartbeatPairs (ascii ['0', '0', '0'])) .fresh).result =
        some (.truncated, v) :=
  ⟨(Scanner.avx2.scan_misdeclared .fresh heartbeatPairs_plain (by decide) (by decide) (by decide)
      (by decide) (by decide)).2.1 (by decide),
    (Scanner.scalar.scan_misdeclared .fresh heartbeatPairs_plain (by decide) (by decide) (by decide)
      (by decide) (by decide)).1 (by decide)⟩

end SwiftFIX
