/-
  The encoder of the corpus generator (`render` in `generate.py`), and that
  scanning undoes it.

  A rendered tag list is a canonical message (`Renderable.message`), so its scan
  is settled by the capacity theorem; `spelled` reads an index back against the
  buffer.
-/
import SwiftFIX.Spans
import SwiftFIX.Capacity

namespace SwiftFIX

open Decimal

/-! ## The encoder -/

/-- `SOH = "\x01"`. -/
def sohChar : Char := '\x01'

/-- `BEGIN_STRING`. -/
def BEGIN_STRING : List Char := "FIX.4.4".toList

/-- `f"{n}"` for an integer. -/
def formatInt : ℤ → List Char
  | .ofNat n => Nat.toDigits 10 n
  | .negSucc n => '-' :: Nat.toDigits 10 (n + 1)

/-- `f"{n:03d}"` for a natural number. -/
def format03d (n : ℕ) : List Char :=
  List.replicate (3 - (Nat.toDigits 10 n).length) '0' ++ Nat.toDigits 10 n

/-- `s.encode("ascii")`, which raises on any other character. -/
def encodeAscii (s : List Char) : Option (List Byte) :=
  if ∀ c ∈ s, c.toNat < 128 then some (ascii s) else none

/-- `"".join(f"{t}={v}{SOH}" for t, v in tags)`. -/
def renderBody (tags : List (ℤ × List Char)) : List Char :=
  tags.flatMap fun p => formatInt p.1 ++ '=' :: (p.2 ++ [sohChar])

/-- `f"8={BEGIN_STRING}{SOH}9={body_length}{SOH}"`. -/
def renderPrefix (bodyLength : ℕ) : List Char :=
  '8' :: '=' :: (BEGIN_STRING ++ sohChar :: '9' :: '=' :: (formatInt bodyLength ++ [sohChar]))

/-- `prefix + body`. -/
def headAndBody (tags : List (ℤ × List Char)) : List Char :=
  renderPrefix (renderBody tags).length ++ renderBody tags

/-- `sum(b) % 256`. -/
def checksumOf (b : List Byte) : ℕ := (b.map (·.toNat)).sum % 256

/-- `render(tags)`; `none` when `encode` raises. -/
def render (tags : List (ℤ × List Char)) : Option (List Byte) := do
  let summed ← encodeAscii (headAndBody tags)
  let trailer := '1' :: '0' :: '=' :: (format03d (checksumOf summed) ++ [sohChar])
  encodeAscii (headAndBody tags ++ trailer)

set_option maxRecDepth 4000 in
example : render [(35, ['0'])] = some (ascii "8=FIX.4.4\x019=5\x0135=0\x0110=163\x01".toList) := by
  decide

/-! ## Decimal printing -/

theorem ch_toNat {c : Char} (h : c.toNat < 128) : (ch c).toNat = c.toNat := by
  have hc : (ch c).toNat = c.toNat % 256 := rfl
  omega

theorem toNat_of_isDigit {c : Char} (h : c.isDigit) : 48 ≤ c.toNat ∧ c.toNat ≤ 57 := by
  simp only [Char.isDigit, Bool.and_eq_true, decide_eq_true_eq, ge_iff_le, UInt32.le_iff_toNat_le] at h
  exact h

theorem isDigit_ch {c : Char} (h : c.isDigit) : IsDigit (ch c) := by
  have hc := toNat_of_isDigit h
  rw [IsDigit, ch_toNat (by omega)]
  exact hc

theorem valueFrom_ascii {l : List Char} (h : ∀ c ∈ l, c.isDigit) :
    ∀ acc, valueFrom 10 acc ((ascii l).map digit) = Nat.ofDigitChars 10 l acc := by
  induction l with
  | nil => intro acc; simp [ascii, valueFrom]
  | cons c l ih =>
    intro acc
    rw [List.forall_mem_cons] at h
    have hc := toNat_of_isDigit h.1
    have hd : digit (ch c) = c.toNat - '0'.toNat := by
      rw [digit, ch_toNat (by omega)]; rfl
    have hcons : (ascii (c :: l)).map digit = digit (ch c) :: (ascii l).map digit := rfl
    rw [hcons, valueFrom_cons, Nat.ofDigitChars_cons, ih h.2, hd, Nat.mul_comm]

theorem isDigit_toDigits (n : ℕ) : ∀ c ∈ Nat.toDigits 10 n, c.isDigit :=
  fun _ hc => Nat.isDigit_of_mem_toDigits (by decide) (by decide) hc

/-- **A printed number reads back as itself.** -/
theorem value_toDigits (n : ℕ) : Decimal.value (ascii (Nat.toDigits 10 n)) = n := by
  rw [Decimal.value, valueFrom_ascii (isDigit_toDigits n), Nat.ofDigitChars_ten_toDigits]

theorem digits_ascii {l : List Char} (h : ∀ c ∈ l, c.isDigit) : ∀ c ∈ ascii l, IsDigit c := by
  intro c hc
  obtain ⟨d, hd, rfl⟩ := List.mem_map.1 hc
  exact isDigit_ch (h d hd)

theorem numeral_toDigits {n : ℕ} (h : n ≤ maxNumber) : Numeral (ascii (Nat.toDigits 10 n)) :=
  ⟨digits_ascii (isDigit_toDigits n), by rwa [value_toDigits]⟩

theorem isDigit_format03d (n : ℕ) : ∀ c ∈ format03d n, c.isDigit := by
  intro c hc
  rcases List.mem_append.1 hc with hc | hc
  · rw [List.eq_of_mem_replicate hc]
    rfl
  · exact isDigit_toDigits n c hc

theorem length_format03d {n : ℕ} (h : n < 256) : (format03d n).length = 3 := by
  have hle : (Nat.toDigits 10 n).length ≤ 3 :=
    (Nat.length_toDigits_le_iff (by decide) (by decide)).2 (by omega)
  rw [format03d, List.length_append, List.length_replicate]
  omega

theorem checksumField_format03d {n : ℕ} (h : n < 256) :
    ChecksumField ⟨ascii ['1', '0'], ascii (format03d n)⟩ := by
  refine .of_digits ?_ (digits_ascii (isDigit_format03d n))
  rw [ascii, List.length_map, length_format03d h]

/-! ## A rendered list as a message -/

/-- The tag lists the generator is meant for: tag 35 first, tags within the
    scanners' range other than 95 and 96, ASCII values without an SOH. -/
structure Renderable (tags : List (ℤ × List Char)) : Prop where
  first : tags.head?.map Prod.fst = some 35
  range : ∀ p ∈ tags, 1 ≤ p.1 ∧ p.1 ≤ 4294967289
  notLength : ∀ p ∈ tags, p.1 ≠ 95
  notData : ∀ p ∈ tags, p.1 ≠ 96
  values : ∀ p ∈ tags, ∀ c ∈ p.2, c.toNat < 128 ∧ c ≠ sohChar

/-- The field a pair is rendered to. -/
def pairField (p : ℤ × List Char) : Field := ⟨ascii (formatInt p.1), ascii p.2⟩

theorem ascii_append (s t : List Char) : ascii (s ++ t) = ascii s ++ ascii t := List.map_append

theorem ascii_cons (c : Char) (s : List Char) : ascii (c :: s) = ch c :: ascii s := rfl

theorem ascii_renderBody (tags : List (ℤ × List Char)) :
    ascii (renderBody tags) = wire (tags.map pairField) := by
  induction tags with
  | nil => rfl
  | cons p tags ih =>
    have hcons : renderBody (p :: tags) =
        formatInt p.1 ++ '=' :: (p.2 ++ [sohChar]) ++ renderBody tags := by
      simp [renderBody]
    rw [hcons, List.map_cons, wire_cons, ascii_append, ih, ascii_append, ascii_cons, ascii_append]
    rfl

/-- The trailer of a rendered list. -/
def renderTrailer (tags : List (ℤ × List Char)) : List Char :=
  '1' :: '0' :: '=' :: (format03d (checksumOf (ascii (headAndBody tags))) ++ [sohChar])

theorem formatInt_eq {t : ℤ} (h : 1 ≤ t) : formatInt t = Nat.toDigits 10 t.toNat := by
  cases t with
  | ofNat n => rfl
  | negSucc n => omega

theorem formatInt_natCast (n : ℕ) : formatInt n = Nat.toDigits 10 n := rfl

theorem le_length_renderPrefix (n : ℕ) : 7 ≤ (renderPrefix n).length := by
  have h7 : BEGIN_STRING.length = 7 := rfl
  rw [renderPrefix, List.length_cons, List.length_cons, List.length_append]
  omega

theorem ascii_of_toDigits (n : ℕ) : ∀ c ∈ Nat.toDigits 10 n, c.toNat < 128 := by
  intro c hc
  have := toNat_of_isDigit (isDigit_toDigits n c hc)
  omega

namespace Renderable
variable {tags : List (ℤ × List Char)}

theorem ascii_body (h : Renderable tags) : ∀ c ∈ renderBody tags, c.toNat < 128 := by
  intro c hc
  obtain ⟨p, hp, hc⟩ := List.mem_flatMap.1 hc
  simp only [List.mem_append, List.mem_cons, List.not_mem_nil, or_false] at hc
  rcases hc with hc | rfl | hc | rfl
  · rw [formatInt_eq (h.range p hp).1] at hc
    exact ascii_of_toDigits _ c hc
  · decide
  · exact (h.values p hp c hc).1
  · decide

theorem ascii_headAndBody (h : Renderable tags) : ∀ c ∈ headAndBody tags, c.toNat < 128 := by
  intro c hc
  rcases List.mem_append.1 hc with hc | hc
  · simp only [renderPrefix, List.mem_cons, List.mem_append, List.not_mem_nil, or_false] at hc
    rcases hc with rfl | rfl | hc | rfl | rfl | rfl | hc | rfl
    · decide
    · decide
    · exact (by decide : ∀ c ∈ BEGIN_STRING, c.toNat < 128) c hc
    · decide
    · decide
    · decide
    · exact ascii_of_toDigits _ c hc
    · decide
  · exact h.ascii_body c hc

/-- **Rendering succeeds** with the ASCII bytes of the whole message. -/
theorem render_eq (h : Renderable tags) :
    render tags = some (ascii (headAndBody tags ++ renderTrailer tags)) := by
  have h1 : encodeAscii (headAndBody tags) = some (ascii (headAndBody tags)) :=
    if_pos h.ascii_headAndBody
  have h2 : ∀ c ∈ headAndBody tags ++ renderTrailer tags, c.toNat < 128 := by
    intro c hc
    rcases List.mem_append.1 hc with hc | hc
    · exact h.ascii_headAndBody c hc
    · simp only [renderTrailer, List.mem_cons, List.mem_append, List.not_mem_nil, or_false] at hc
      rcases hc with rfl | rfl | rfl | hc | rfl
      · decide
      · decide
      · decide
      · have := toNat_of_isDigit (isDigit_format03d _ c hc)
        omega
      · decide
  rw [render, h1]
  exact if_pos h2

theorem soh_notMem_value (h : Renderable tags) {p : ℤ × List Char} (hp : p ∈ tags) :
    SOH ∉ ascii p.2 := by
  intro hm
  obtain ⟨c, hc, he⟩ := List.mem_map.1 hm
  obtain ⟨hlt, hne⟩ := h.values p hp c hc
  have ht := congrArg UInt8.toNat he
  rw [ch_toNat hlt] at ht
  exact hne (Char.ext (UInt32.toNat_inj.1 ht))

theorem number_pairField (h : Renderable tags) {p : ℤ × List Char} (hp : p ∈ tags) :
    (pairField p).number = p.1.toNat := by
  rw [Field.number, pairField, formatInt_eq (h.range p hp).1, value_toDigits]

theorem bodyField (h : Renderable tags) {p : ℤ × List Char} (hp : p ∈ tags) :
    BodyField (pairField p) := by
  obtain ⟨h1, h2⟩ := h.range p hp
  have h95 := h.notLength p hp
  have h96 := h.notData p hp
  have hn := h.number_pairField hp
  refine ⟨⟨?_, ?_⟩, ?_, ?_, h.soh_notMem_value hp⟩
  · rw [pairField, formatInt_eq h1]
    exact numeral_toDigits (by rw [maxNumber]; omega)
  · show (pairField p).number ≠ 0
    rw [hn]; omega
  · rw [hn]; omega
  · rw [hn]; omega

theorem beginString_open : SOH ∉ ascii BEGIN_STRING := by decide

theorem pairField_first {p : ℤ × List Char} {tags : List (ℤ × List Char)}
    (h : Renderable (p :: tags)) : pairField p = ⟨ascii ['3', '5'], ascii p.2⟩ := by
  have h35 : p.1 = 35 := by simpa using h.first
  rw [pairField, h35]
  rfl

/-- **A rendered list is a message**: the first pair is its type, the others
    are its body. -/
def message {p : ℤ × List Char} {tags : List (ℤ × List Char)} (h : Renderable (p :: tags))
    (hn : (renderBody (p :: tags)).length ≤ maxNumber) : Message where
  beginString := ascii BEGIN_STRING
  bodyLength := ascii (Nat.toDigits 10 (renderBody (p :: tags)).length)
  msgType := ascii p.2
  body := tags.map pairField
  checksum := ⟨ascii ['1', '0'], ascii (format03d (checksumOf (ascii (headAndBody (p :: tags)))))⟩
  beginString_open := beginString_open
  bodyLength_numeral := numeral_toDigits hn
  bodyLength_ne := fun h0 => Nat.toDigits_ne_nil (List.map_eq_nil_iff.1 h0)
  msgType_open := h.soh_notMem_value List.mem_cons_self
  body_fields := by
    intro f hf
    obtain ⟨q, hq, rfl⟩ := List.mem_map.1 hf
    exact h.bodyField (List.mem_cons_of_mem p hq)
  checksum_field := checksumField_format03d (Nat.mod_lt _ (by decide))
  length_eq := by
    rw [← h.pairField_first, ← List.map_cons, ← ascii_renderBody, ascii, List.length_map,
      value_toDigits]

section
variable {p : ℤ × List Char} (h : Renderable (p :: tags))
  (hn : (renderBody (p :: tags)).length ≤ maxNumber)

theorem message_canonical : (h.message hn).Canonical := rfl

theorem message_fields :
    (h.message hn).fields = ⟨ascii ['8'], ascii BEGIN_STRING⟩ ::
      ⟨ascii ['9'], ascii (Nat.toDigits 10 (renderBody (p :: tags)).length)⟩ ::
      ((p :: tags).map pairField ++
        [⟨ascii ['1', '0'], ascii (format03d (checksumOf (ascii (headAndBody (p :: tags)))))⟩]) := by
  rw [List.map_cons, h.pairField_first]
  rfl

theorem message_bytes : render (p :: tags) = some (h.message hn).bytes := by
  rw [h.render_eq, Message.bytes, h.message_fields hn, renderTrailer]
  generalize format03d (checksumOf (ascii (headAndBody (p :: tags)))) = cks
  have hnil : ascii [] = [] := rfl
  have hsoh : ch sohChar = SOH := rfl
  rw [wire_cons, wire_cons, wire_append, ← ascii_renderBody, wire_singleton, ascii_append,
    headAndBody, ascii_append, renderPrefix, formatInt_natCast]
  simp only [ascii_cons, ascii_append, hnil, hsoh, Field.bytes, List.append_assoc,
    List.cons_append, List.nil_append]

end

end Renderable

/-! ## Scanning undoes rendering -/

/-- The fields an index spells out of a buffer: the tag number and the value
    bytes of each entry. -/
def spelled (b : Buffer) (v : IndexView) : List (ℕ × List Byte) :=
  v.entries.map fun e => (e.tagNumber, (b.drop e.valueStart).take (e.valueEnd - e.valueStart))

theorem spelled_index (M : Message) (t : List Byte) :
    spelled (M.bytes ++ t) M.index = M.fields.map fun f => (f.number, f.value) := by
  have hspells := spells_of_prefix (List.prefix_append M.bytes t)
  rw [← List.forall₂_eq_eq_eq, spelled, List.forall₂_map_left_iff, List.forall₂_map_right_iff]
  exact hspells.imp fun e f h => Prod.ext h.number h.value

/-- **Scanning undoes rendering.**  A rendered list of at most 253 pairs is
    accepted by both scanners, whatever follows it, and the index spells out
    the list between its header and its checksum; a longer list is answered
    with `TableFull`. -/
theorem scan_render (tags : List (ℤ × List Char)) (h : Renderable tags) :
    ∃ m, render tags = some m ∧
      (m.length < 2 ^ 32 → ∀ (s : Scanner) (rest : Buffer) (out : FieldIndex),
        (tags.length ≤ 253 →
          ∃ v, (s.scan (m ++ rest) out).result = some (.ok, v) ∧ v.frameLength = m.length ∧
            v.declaredBodyLength = (renderBody tags).length ∧ v.fieldCount = tags.length + 3 ∧
            spelled (m ++ rest) v =
              (8, ascii BEGIN_STRING) :: (9, ascii (formatInt (renderBody tags).length)) ::
                (tags.map (fun p => (p.1.toNat, ascii p.2)) ++
                  [(10, ascii (format03d (checksumOf (ascii (headAndBody tags)))))])) ∧
        (254 ≤ tags.length →
          ∃ v, (s.scan (m ++ rest) out).result = some (.tableFull, v))) := by
  refine ⟨_, h.render_eq, fun hlt => ?_⟩
  rcases tags with _ | ⟨p, tags⟩
  · cases h.first
  have hn : (renderBody (p :: tags)).length ≤ maxNumber := by
    have hlen : (ascii (headAndBody (p :: tags) ++ renderTrailer (p :: tags))).length =
        (renderPrefix (renderBody (p :: tags)).length).length + (renderBody (p :: tags)).length +
          (renderTrailer (p :: tags)).length := by
      rw [ascii, List.length_map, List.length_append, headAndBody, List.length_append]
    have hpre := le_length_renderPrefix (renderBody (p :: tags)).length
    rw [maxNumber]
    omega
  have hm := h.message_bytes hn
  rw [h.render_eq, Option.some.injEq] at hm
  rw [hm] at hlt ⊢
  have hbody : (h.message hn).body.length = tags.length := List.length_map _
  intro s rest out
  obtain ⟨hok, hfull⟩ := s.scan_message (h.message_canonical hn) hlt rest out
  constructor
  · intro hle
    rw [List.length_cons] at hle
    refine ⟨_, hok (by rw [hbody, kMaxFields]; omega), rfl, value_toDigits _, ?_, ?_⟩
    · show (h.message hn).fields.length = _
      rw [h.message_fields hn]
      simp
    · have hpairs : ((p :: tags).map pairField).map (fun f => (f.number, f.value)) =
          (p :: tags).map fun p => (p.1.toNat, ascii p.2) := by
        rw [List.map_map]
        exact List.map_congr_left fun q hq => by rw [Function.comp, h.number_pairField hq]; rfl
      have h8 : Decimal.value (ascii ['8']) = 8 := by decide
      have h9 : Decimal.value (ascii ['9']) = 9 := by decide
      have h10 : Decimal.value (ascii ['1', '0']) = 10 := by decide
      rw [spelled_index, h.message_fields hn, List.map_cons, List.map_cons, List.map_append, hpairs,
        List.map_singleton, Field.number, Field.number, Field.number, h8, h9, h10,
        formatInt_natCast]
  · intro hle
    rw [List.length_cons] at hle
    exact hfull (by rw [hbody, kMaxFields]; omega)

/-- A heartbeat with one header field. -/
def heartbeatTags : List (ℤ × List Char) := [(35, ['0']), (49, "SENDER".toList)]

theorem heartbeatTags_renderable : Renderable heartbeatTags := by
  constructor <;> decide

set_option maxRecDepth 4000 in
theorem length_heartbeat : (render heartbeatTags).map List.length = some 37 := by decide

theorem scan_render_heartbeat :
    ∃ m, render heartbeatTags = some m ∧ m.length = 37 ∧
      ∀ (s : Scanner) (rest : Buffer) (out : FieldIndex),
        ∃ v, (s.scan (m ++ rest) out).result = some (.ok, v) ∧ v.frameLength = 37 ∧
          spelled (m ++ rest) v =
            (8, ascii BEGIN_STRING) :: (9, ascii (formatInt (renderBody heartbeatTags).length)) ::
              (heartbeatTags.map (fun p => (p.1.toNat, ascii p.2)) ++
                [(10, ascii (format03d (checksumOf (ascii (headAndBody heartbeatTags)))))]) := by
  obtain ⟨m, hm, hs⟩ := scan_render heartbeatTags heartbeatTags_renderable
  have hlen : m.length = 37 := by
    have := length_heartbeat
    rw [hm] at this
    exact Option.some.inj this
  refine ⟨m, hm, hlen, fun s rest out => ?_⟩
  obtain ⟨v, hv, hfl, -, -, hsp⟩ := (hs (by rw [hlen]; decide) s rest out).1 (by decide)
  exact ⟨v, hv, hfl.trans hlen, hsp⟩

end SwiftFIX
