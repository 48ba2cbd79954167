/-
  The splitting loop of `run_swiftfix_split` on any stream.

  * `Parsed`: a stream as frames, one after the other, and a rest that begins
    with none; below 4 GiB every stream is one in exactly one way, and the loop
    visits its frames (`splitLoop_parses`);
  * `splitLoop_append`: the loop on a stream of which more has come;
  * `splitLoop_hangs`: when the loop does not end, for streams of any length;
  * `splitLoop_scanners`: where the loops of the two scanners part.
-/
import Mathlib.Data.List.TakeWhile
import SwiftFIX.Arrival
import SwiftFIX.Stream
import SwiftFIX.Narrowing
import SwiftFIX.Lib.Splitting

namespace SwiftFIX

open Framing Decimal Delimited EarlyExit

/-! ## Frames of a stream -/

/-- The bytes of a frame with its index, as the loop meets it. -/
def Frame.piece (F : Frame) : Buffer × IndexView := (F.bytes, F.index)

/-- The stream is the frames `Fs`, then a rest that begins with no frame. -/
structure Parsed (s : Scanner) (stream : Buffer) (Fs : List Frame) (rest : Buffer) : Prop where
  bytes : stream = Fs.flatMap (·.bytes) ++ rest
  accepted : ∀ F ∈ Fs, s.Accepts F
  ends : ∀ F : Frame, s.Accepts F → ¬ F.bytes <+: rest

/-- The status that ends the loop at `rest`; `none` is the end of the stream. -/
def stopped (s : Scanner) (rest : Buffer) : Option ScanStatus :=
  if rest = [] then none else some (s.verdict rest).1

namespace Scanner
variable {s : Scanner} {b : Buffer}

theorem answer_frame_iff (hb : b.length < 2 ^ 32) {n : ℕ} {v : IndexView} :
    s.answer b = .frame n v ↔
      ∃ F : Frame, s.Accepts F ∧ F.bytes <+: b ∧ n = F.bytes.length ∧ v = F.index := by
  have hr := s.result_eq b .fresh
  constructor
  · intro h
    unfold answer at h
    split at h
    · rename_i hok
      cases h
      rw [← Prod.eta (s.verdict b), hok] at hr
      obtain ⟨F, hacc, hF, hv⟩ := (s.result_ok hb .fresh).1 hr
      exact ⟨F, hacc, hF, by rw [hv]; rfl, hv⟩
    · cases h
  · rintro ⟨F, hacc, hF, rfl, rfl⟩
    have hok := (s.result_ok hb .fresh).2 ⟨F, hacc, hF, rfl⟩
    rw [hok, Option.some.injEq] at hr
    exact answer_ok hr.symm

theorem answer_stop_iff {x : ScanStatus} :
    s.answer b = .stop x ↔ (s.verdict b).1 = x ∧ x ≠ .ok := by
  refine ⟨fun h => ⟨answer_eq_stop h, ?_⟩, fun h => answer_stop h.1 h.2⟩
  rintro rfl
  have hok := answer_eq_stop h
  rw [answer, if_pos hok] at h
  cases h

theorem ne_nil_of_answer {n : ℕ} {v : IndexView} (h : s.answer b = .frame n v) : b ≠ [] := by
  rintro rfl
  obtain ⟨hpos, hle⟩ := s.answer_sound (by decide) n v h
  exact absurd (hpos.trans_le hle) (by decide)

theorem answer_bytes (F : Frame) (hacc : s.Accepts F) (hlt : F.bytes.length < 2 ^ 32) :
    s.answer F.bytes = .frame F.bytes.length F.index :=
  (answer_frame_iff hlt).2 ⟨F, hacc, List.prefix_rfl, rfl, rfl⟩

theorem bytes_ne_nil (F : Frame) : F.bytes ≠ [] := by
  rw [Message.bytes, Message.fields, wire_cons, Field.bytes]
  simp

/-- Below 4 GiB a scanner's frames are frames by themselves. -/
theorem answer_exact (s : Scanner) : Framing.Exact s.answer (2 ^ 32) where
  pos hb h := (s.answer_sound hb _ _ h).1
  le hb h := (s.answer_sound hb _ _ h).2
  self := by
    intro b n v hb h
    obtain ⟨F, hacc, hF, rfl, rfl⟩ := (answer_frame_iff hb).1 h
    rw [← List.prefix_iff_eq_take.1 hF]
    exact answer_bytes F hacc (lt_of_le_of_lt hF.length_le hb)

end Scanner

namespace Parsed
variable {s : Scanner} {stream rest : Buffer} {Fs : List Frame}

theorem flatten_pieces (Fs : List Frame) :
    ((Fs.map Frame.piece).map (·.1)).flatten = Fs.flatMap (·.bytes) := by
  rw [List.map_map, List.flatMap_def]
  rfl

theorem frame_length_le (h : Parsed s stream Fs rest) {F : Frame} (hF : F ∈ Fs) :
    F.bytes.length ≤ stream.length := by
  have hsub := List.sublist_flatten_of_mem (List.mem_map_of_mem (f := (·.bytes)) hF)
  have hlen := congrArg List.length h.bytes
  rw [List.length_append, List.flatMap_def] at hlen
  exact hsub.length_le.trans (by omega)

theorem rest_length_le (h : Parsed s stream Fs rest) : rest.length ≤ stream.length := by
  rw [h.bytes, List.length_append]
  exact Nat.le_add_left _ _

theorem decomposed (h : Parsed s stream Fs rest) (hb : stream.length < 2 ^ 32) :
    Decomposed s.answer stream (Fs.map Frame.piece) rest := by
  refine ⟨by rw [flatten_pieces]; exact h.bytes, ?_, ?_⟩
  · intro f hf
    obtain ⟨F, hF, rfl⟩ := List.mem_map.1 hf
    have hlt := (h.frame_length_le hF).trans_lt hb
    exact ⟨Scanner.answer_bytes F (h.accepted F hF) hlt, Scanner.bytes_ne_nil F⟩
  · right
    rcases ha : s.answer rest with ⟨n, v⟩ | x
    · obtain ⟨F, hacc, hF, -⟩ := (Scanner.answer_frame_iff (h.rest_length_le.trans_lt hb)).1 ha
      exact absurd hF (h.ends F hacc)
    · exact ⟨x, rfl⟩

theorem stopAt_eq (h : Parsed s stream Fs rest) (hb : stream.length < 2 ^ 32) :
    stopAt s.answer rest = stopped s rest := by
  unfold stopped
  split
  · rename_i hnil
    rw [hnil, stopAt_nil]
  · rename_i hne
    obtain ⟨x, hx⟩ := (h.decomposed hb).ends.resolve_left hne
    rw [stopAt_stop hne hx, (Scanner.answer_stop_iff.1 hx).1]

end Parsed

theorem exists_frames {s : Scanner} (fs : List (Buffer × IndexView)) :
    (∀ f ∈ fs, IsFrame s.answer f.1 f.2 ∧ f.1.length < 2 ^ 32) →
      ∃ Fs : List Frame, Fs.map Frame.piece = fs ∧ ∀ F ∈ Fs, s.Accepts F := by
  induction fs with
  | nil => exact fun _ => ⟨[], rfl, by simp⟩
  | cons f fs ih =>
    intro h
    rw [List.forall_mem_cons] at h
    obtain ⟨⟨hf, hlt⟩, hfs⟩ := h
    obtain ⟨Fs, hmap, hacc⟩ := ih hfs
    obtain ⟨F, hF, hpre, hlen, hv⟩ := (Scanner.answer_frame_iff hlt).1 hf.1
    have hbytes : F.bytes = f.1 := hpre.eq_of_length hlen.symm
    refine ⟨F :: Fs, ?_, List.forall_mem_cons.2 ⟨hF, hacc⟩⟩
    rw [List.map_cons, hmap, Frame.piece, hbytes, ← hv]

theorem parsed_exists (s : Scanner) {stream : Buffer} (hb : stream.length < 2 ^ 32) :
    ∃ Fs rest, Parsed s stream Fs rest := by
  obtain ⟨fs, rest, hd⟩ := (s.answer_exact).decomposed stream.length le_rfl hb
  have hlen := congrArg List.length hd.bytes
  rw [List.length_append] at hlen
  have hfs : ∀ f ∈ fs, IsFrame s.answer f.1 f.2 ∧ f.1.length < 2 ^ 32 := by
    intro f hf
    have hle := (List.sublist_flatten_of_mem (List.mem_map_of_mem (f := (·.1)) hf)).length_le
    exact ⟨hd.frames f hf, by omega⟩
  obtain ⟨Fs, rfl, hacc⟩ := exists_frames fs hfs
  refine ⟨Fs, rest, ?_, hacc, ?_⟩
  · rw [← Parsed.flatten_pieces]
    exact hd.bytes
  · intro F hF hpre
    have ha := (Scanner.answer_frame_iff (b := rest) (by omega)).2 ⟨F, hF, hpre, rfl, rfl⟩
    rcases hd.ends with rfl | ⟨x, hx⟩
    · exact Scanner.bytes_ne_nil F (List.prefix_nil.1 hpre)
    · rw [hx] at ha
      cases ha

theorem Frame.piece_injective {F G : Frame} (hlt : F.bytes.length < 2 ^ 32)
    (h : F.piece = G.piece) : F = G := by
  have hbytes : F.bytes = G.bytes := congrArg Prod.fst h
  exact Scanner.frame_unique hlt List.prefix_rfl (hbytes ▸ List.prefix_rfl)

theorem parsed_unique {s : Scanner} {stream rest rest' : Buffer} {Fs Fs' : List Frame}
    (hb : stream.length < 2 ^ 32) (h : Parsed s stream Fs rest) (h' : Parsed s stream Fs' rest') :
    Fs = Fs' ∧ rest = rest' := by
  obtain ⟨hmap, hrest⟩ := s.answer_final.decomposed_unique _ (h.decomposed hb) (h'.decomposed hb)
  refine ⟨?_, hrest⟩
  have hshort : ∀ F ∈ Fs, F.bytes.length < 2 ^ 32 :=
    fun F hF => (h.frame_length_le hF).trans_lt hb
  clear h h' hrest hb
  induction Fs generalizing Fs' with
  | nil => exact (List.map_eq_nil_iff.1 hmap.symm).symm
  | cons F Fs ih =>
    cases Fs' with
    | nil => cases hmap
    | cons F' Fs' =>
      rw [List.map_cons, List.map_cons, List.cons.injEq] at hmap
      rw [List.forall_mem_cons] at hshort
      rw [Frame.piece_injective hshort.1 hmap.1, ih hmap.2 hshort.2]

/-- On a parsed stream the loop visits the frames and ends at the rest. -/
theorem Parsed.splitLoop_eq {s : Scanner} {stream rest : Buffer} {Fs : List Frame}
    (h : Parsed s stream Fs rest) (hb : stream.length < 2 ^ 32) (idx : FieldIndex) {fuel : ℕ}
    (hfuel : Fs.length < fuel) :
    splitLoop s stream fuel 0 idx =
      some ⟨placed 0 (Fs.map Frame.piece), (Fs.flatMap (·.bytes)).length, stopped s rest⟩ := by
  rw [SwiftFIX.splitLoop_eq, List.drop_zero, s.answer_final.split_eq _ (h.decomposed hb)
    (by rw [List.length_map]; exact hfuel), h.stopAt_eq hb, flatten_pieces, Nat.zero_add]

/-- **The loop parses the stream.**  Below 4 GiB a stream is, in exactly one
    way, a sequence of frames and a rest that begins with none; the loop visits
    each of these frames where it starts, with its index, and ends at the rest:
    at the end of the stream, or with the verdict on the rest. -/
theorem splitLoop_parses (s : Scanner) (stream : Buffer) (hb : stream.length < 2 ^ 32)
    (idx : FieldIndex) :
    (∃! p : List Frame × Buffer, Parsed s stream p.1 p.2) ∧
      ∀ Fs rest, Parsed s stream Fs rest → ∀ fuel > Fs.length,
        splitLoop s stream fuel 0 idx =
          some ⟨placed 0 (Fs.map Frame.piece), (Fs.flatMap (·.bytes)).length, stopped s rest⟩ := by
  constructor
  · obtain ⟨Fs, rest, h⟩ := parsed_exists s hb
    refine ⟨(Fs, rest), h, ?_⟩
    rintro ⟨Fs', rest'⟩ h'
    obtain ⟨rfl, rfl⟩ := parsed_unique hb h h'
    rfl
  · exact fun Fs rest h fuel hfuel => h.splitLoop_eq hb idx hfuel

/-- A stream of two frames, the checksum tag of the second zero-padded, and one
    more byte. -/
def mixedStream : Buffer := plainChecksum ++ paddedChecksum ++ [ch '8']

theorem splitLoop_parses_mixed :
    (∃! p : List Frame × Buffer, Parsed .scalar mixedStream p.1 p.2) ∧
      ∀ Fs rest, Parsed .scalar mixedStream Fs rest → ∀ fuel > Fs.length,
        splitLoop .scalar mixedStream fuel 0 .fresh =
          some ⟨placed 0 (Fs.map Frame.piece), (Fs.flatMap (·.bytes)).length,
            stopped .scalar rest⟩ :=
  splitLoop_parses .scalar mixedStream (by decide) .fresh

/-! ## Messages of any length -/

/-- The scanner takes a message of `L` bytes at the start of the buffer. -/
def Scanner.Takes : Scanner → Buffer → ℕ → Prop
  | scalar, b, L => ∃ h body f, ScalarScanner.Taken b h body f ∧ L = h.bodyEnd + f.size
  | avx2, b, L => ∃ h ps f, Avx2Scanner.Taken b h ps f ∧ L = h.bodyEnd + f.size

namespace Scanner

/-- A scanner answers a frame, with its 32-bit length, exactly where it takes a
    message. -/
theorem exists_answer_iff (s : Scanner) (b : Buffer) (n : ℕ) :
    (∃ v, s.answer b = .frame n v) ↔ ∃ L, s.Takes b L ∧ n = u32 L := by
  have hframe : (∃ v, s.answer b = .frame n v) ↔
      ∃ v, (s.scan b .fresh).result = some (.ok, v) ∧ v.frameLength = n := by
    rw [s.result_eq]
    refine ⟨?_, ?_⟩
    · rintro ⟨v, hv⟩
      unfold answer at hv
      split at hv
      · rename_i hok
        cases hv
        exact ⟨_, by rw [← hok], rfl⟩
      · cases hv
    · rintro ⟨v, hv, rfl⟩
      exact ⟨v, answer_ok (Option.some.inj hv)⟩
  rw [hframe]
  cases s with
  | scalar =>
    constructor
    · rintro ⟨v, hv, rfl⟩
      obtain ⟨h, body, f, ht, rfl⟩ := (ScalarScanner.scan_taken b .fresh).1 hv
      exact ⟨_, ⟨h, body, f, ht, rfl⟩, ht.counted.frameLength⟩
    · rintro ⟨L, ⟨h, body, f, ht, rfl⟩, rfl⟩
      exact ⟨_, (ScalarScanner.scan_taken b .fresh).2 ⟨h, body, f, ht, rfl⟩,
        ht.counted.frameLength⟩
  | avx2 =>
    obtain ⟨hiff, hindex⟩ := Avx2Scanner.scan_taken b .fresh
    constructor
    · rintro ⟨v, hv, rfl⟩
      obtain ⟨h, ps, f, ht, -, -, hlen⟩ := hindex v hv
      exact ⟨_, ⟨h, ps, f, ht, rfl⟩, by rw [hlen, ht.rest_length.2]⟩
    · rintro ⟨L, ⟨h, ps, f, ht, rfl⟩, rfl⟩
      obtain ⟨v, hv⟩ := hiff.2 ⟨h, ps, f, ht⟩
      obtain ⟨h', ps', f', ht', -, -, hlen⟩ := hindex v hv
      obtain rfl := Except.ok.inj (ht.readHead_eq.symm.trans ht'.readHead_eq)
      exact ⟨v, hv, by rw [hlen, ht.rest_length.2]⟩

theorem Takes.length_le {s : Scanner} {b : Buffer} {L : ℕ} (h : s.Takes b L) : L ≤ b.length := by
  cases s with
  | scalar =>
    obtain ⟨h, body, f, ht, rfl⟩ := h
    have hlen := ht.length
    have hrest := ht.rest.length_le
    rw [wire_snoc_length] at hrest
    rw [ht.bytes, List.length_append, h.wire_fields_length, Head.bodyEnd]
    omega
  | avx2 =>
    obtain ⟨h, ps, f, ht, rfl⟩ := h
    have hlen := ht.length
    have hrest := ht.rest.length_le
    rw [List.length_append, f.bytes_length] at hrest
    rw [ht.bytes, List.length_append, h.wire_fields_length, Head.bodyEnd]
    omega

end Scanner

/-! ## More of the stream -/

/-- A round of the loop goes from `pos` on by the 32-bit length of the message
    taken there. -/
def Advances (s : Scanner) (stream : Buffer) (pos pos' : ℕ) : Prop :=
  ∃ L, s.Takes (stream.drop pos) L ∧ pos' = pos + u32 L

/-- A round of the loop on the stream is one on what is left of it. -/
theorem advances_drop {s : Scanner} {stream : Buffer} {pos : ℕ} {y : Buffer} :
    Framing.Advances s.answer (stream.drop pos) y ↔
      ∃ pos', Advances s stream pos pos' ∧ y = stream.drop pos' := by
  constructor
  · rintro ⟨-, n, v, ha, rfl⟩
    obtain ⟨L, hL, rfl⟩ := (s.exists_answer_iff _ n).1 ⟨v, ha⟩
    exact ⟨pos + u32 L, ⟨L, hL, rfl⟩, List.drop_drop⟩
  · rintro ⟨pos', ⟨L, hL, rfl⟩, rfl⟩
    obtain ⟨v, hv⟩ := (s.exists_answer_iff _ _).2 ⟨L, hL, rfl⟩
    exact ⟨Scanner.ne_nil_of_answer hv, _, v, hv, List.drop_drop.symm⟩

theorem reaches_drop {s : Scanner} {stream : Buffer} {pos : ℕ} {y : Buffer} :
    Relation.ReflTransGen (Framing.Advances s.answer) (stream.drop pos) y ↔
      ∃ pos', Relation.ReflTransGen (Advances s stream) pos pos' ∧ y = stream.drop pos' := by
  constructor
  · intro h
    induction h with
    | refl => exact ⟨pos, .refl, rfl⟩
    | tail _ hstep ih =>
      obtain ⟨q, hq, rfl⟩ := ih
      obtain ⟨q', hstep', rfl⟩ := advances_drop.1 hstep
      exact ⟨q', hq.tail hstep', rfl⟩
  · rintro ⟨pos', h, rfl⟩
    induction h with
    | refl => exact .refl
    | tail _ hstep ih => exact ih.tail (advances_drop.2 ⟨_, hstep, rfl⟩)

/-- **The loop does not end** exactly when it comes to a message whose length is
    a multiple of `2^32`: its 32-bit length is 0, and the loop stays there. -/
theorem splitLoop_hangs (s : Scanner) (stream : Buffer) (pos : ℕ) (idx : FieldIndex) :
    (∀ fuel, splitLoop s stream fuel pos idx = none) ↔
      ∃ pos' L, Relation.ReflTransGen (Advances s stream) pos pos' ∧
        s.Takes (stream.drop pos') L ∧ 2 ^ 32 ∣ L := by
  have hzero : ∀ pos', (∃ v, s.answer (stream.drop pos') = .frame 0 v) ↔
      ∃ L, s.Takes (stream.drop pos') L ∧ 2 ^ 32 ∣ L := by
    intro pos'
    rw [s.exists_answer_iff]
    refine exists_congr fun L => and_congr_right fun _ => ?_
    rw [eq_comm, u32, Nat.dvd_iff_mod_eq_zero]
  have hsticks : (∀ fuel, splitLoop s stream fuel pos idx = none) ↔
      Sticks s.answer (stream.drop pos) := by
    refine Iff.trans (forall_congr' fun fuel => ?_) (split_hangs pos)
    rw [splitLoop_eq]
  rw [hsticks]
  constructor
  · rintro ⟨y, v, hreach, -, hv⟩
    obtain ⟨pos', hpos, rfl⟩ := reaches_drop.1 hreach
    obtain ⟨L, hL⟩ := (hzero pos').1 ⟨v, hv⟩
    exact ⟨pos', L, hpos, hL⟩
  · rintro ⟨pos', L, hpos, hL⟩
    obtain ⟨v, hv⟩ := (hzero pos').2 ⟨L, hL⟩
    exact ⟨_, v, reaches_drop.2 ⟨pos', hpos, rfl⟩, Scanner.ne_nil_of_answer hv, hv⟩

/-! ## Two scanners on one stream -/

theorem Tag.eq_ten {tg : List Byte} (ht : Tag tg) (h10 : Decimal.value tg = 10)
    (h2 : tg.length = 2) : tg = ascii ['1', '0'] := by
  match tg, h2 with
  | [c, d], _ =>
    have hc := ht.1.1 c List.mem_cons_self
    have hd := ht.1.1 d (by simp)
    have hv : Decimal.value [c, d] = (0 * 10 + digit c) * 10 + digit d := rfl
    rw [IsDigit] at hc hd
    rw [hv] at h10
    simp only [digit] at h10
    have h1 : c = ch '1' := UInt8.toNat_inj.1 (by show c.toNat = 49; omega)
    have h0 : d = ch '0' := UInt8.toNat_inj.1 (by show d.toNat = 48; omega)
    rw [h1, h0]
    rfl

/-- The checksum field of a message that is not canonical has no seven bytes
    with an SOH among them. -/
theorem Message.soh_notMem_take {M : Message} (hc : ¬ M.Canonical) (t : List Byte) :
    SOH ∉ (M.checksum.bytes ++ t).take 7 := by
  have hcks := M.checksum_field
  have hsize := hcks.size_ge
  have h8 : M.checksum.size ≠ 7 := by
    intro h7
    rw [Field.size, hcks.length] at h7
    exact hc (hcks.tag.eq_ten hcks.number (by omega))
  have hpiece : M.checksum.piece.length + 1 = M.checksum.size := by
    rw [← Field.bytes_length, Field.bytes_eq, List.length_append]
    rfl
  have htake : (M.checksum.bytes ++ t).take 7 = M.checksum.piece.take 7 := by
    rw [Field.bytes_eq, List.append_assoc, List.take_append_of_le_length (by omega)]
  rw [htake]
  exact fun hm => hcks.tag.piece_open hcks.value (List.mem_of_mem_take hm)

/-- On a frame with a zero-padded checksum tag the AVX2 scanner answers
    `BadBodyLength`: the seven bytes after the body hold no field. -/
theorem Avx2Scanner.read_padded {F : Frame} (hc : ¬ F.Canonical) (t : List Byte) :
    (Avx2Scanner.read (F.bytes ++ t)).status = .badBodyLength := by
  have hwin : Avx2Scanner.window (F.head t) = wire F.body ++ (F.checksum.bytes ++ t).take 7 := by
    rw [Avx2Scanner.window, F.head_bodyLen, Message.head, List.take_append]
    congr 1
    · exact List.take_of_length_le (by simp only; omega)
    · congr 1
      simp only
      omega
  have hps : pieces SOH (Avx2Scanner.window (F.head t)) = F.body.map Field.piece := by
    rw [hwin, pieces_wire F.body_fields, pieces_open (Message.soh_notMem_take hc t), List.append_nil]
  have hroom := F.room
  rw [Avx2Scanner.read, F.readHead_eq, ok_bind]
  rcases List.eq_nil_or_concat F.body with hnil | ⟨init, g, hbody⟩
  · rw [Avx2Scanner.readRest, hps, hnil]
    rfl
  · rw [List.concat_eq_append] at hbody
    rw [hbody, List.map_append, List.map_singleton] at hps
    have hlen : F.body.length = init.length + 1 := by rw [hbody]; simp
    have hinit : ∀ f ∈ init, TakenField f := fun f hf =>
      (F.body_fields f (by rw [hbody]; exact List.mem_append_left _ hf)).taken
    have hshort : (wire ((F.head t).fields ++ init)).length ≠ (F.head t).bodyEnd := by
      have hend := F.wire_head_body t
      rw [hbody, ← List.append_assoc, wire_snoc_length] at hend
      have := g.size_pos
      omega
    have hfields : (F.head t).fields.length = 3 := rfl
    have hskip : Avx2Scanner.readPieces (F.head t).fields (init.map Field.piece ++ []) =
        Avx2Scanner.readPieces ((F.head t).fields ++ init) [] :=
      Avx2Scanner.readPieces_skip hinit [] (by omega)
    rw [List.append_nil] at hskip
    have hfew : (init.map Field.piece ++ [g.piece]).length ≤ kMaxFields := by
      rw [List.length_append, List.length_map, List.length_singleton]
      omega
    rw [Avx2Scanner.readRest_eq hps hfew, hskip, Avx2Scanner.readPieces, ok_bind,
      Avx2Scanner.readTrailer, if_pos hshort]
    rfl

/-- The canonical frames at the start of a scalar parse are the AVX2 parse. -/
theorem Parsed.canonical {stream rest : Buffer} {Fs : List Frame}
    (h : Parsed .scalar stream Fs rest) (hb : stream.length < 2 ^ 32) :
    ∃ rest', Parsed .avx2 stream (Fs.takeWhile (·.Canonical)) rest' ∧
      stopped .avx2 rest' =
        if ∀ F ∈ Fs, F.Canonical then stopped .avx2 rest else some .badBodyLength := by
  have hbytes := h.bytes
  by_cases hall : ∀ F ∈ Fs, F.Canonical
  · have htake : Fs.takeWhile (·.Canonical) = Fs :=
      List.takeWhile_eq_self_iff.2 fun F hF => decide_eq_true (hall F hF)
    rw [htake, if_pos hall]
    exact ⟨rest, ⟨hbytes, hall, fun F _ => h.ends F trivial⟩, rfl⟩
  · -- the first frame that is not canonical
    obtain ⟨P, Hs, hdrop⟩ : ∃ P Hs, Fs.dropWhile (·.Canonical) = P :: Hs := by
      refine List.exists_cons_of_ne_nil fun hnil => hall fun F hF => ?_
      exact of_decide_eq_true (List.dropWhile_eq_nil_iff.1 hnil F hF)
    have hP : ¬ P.Canonical := by
      have hhead := List.head_dropWhile_not (fun F : Frame => decide F.Canonical) (l := Fs)
        (by rw [hdrop]; exact List.cons_ne_nil P Hs)
      simpa [hdrop] using hhead
    have hsplit : Fs = Fs.takeWhile (·.Canonical) ++ P :: Hs := by
      rw [← hdrop, List.takeWhile_append_dropWhile]
    have hrest : stream = (Fs.takeWhile (·.Canonical)).flatMap (·.bytes) ++
        (P.bytes ++ (Hs.flatMap (·.bytes) ++ rest)) := by
      conv_lhs => rw [hbytes, hsplit]
      simp
    have hlt : (P.bytes ++ (Hs.flatMap (·.bytes) ++ rest)).length < 2 ^ 32 := by
      have hlen := congrArg List.length hrest
      rw [List.length_append] at hlen
      omega
    have hcanon : ∀ F ∈ Fs.takeWhile (·.Canonical), F.Canonical := fun F hF =>
      of_decide_eq_true (List.mem_takeWhile_imp (p := fun F : Frame => decide F.Canonical) hF)
    refine ⟨_, ⟨hrest, hcanon, ?_⟩, ?_⟩
    · intro F hF hpre
      obtain rfl := Scanner.frame_unique hlt hpre (List.prefix_append _ _)
      exact hP hF
    · have hne : P.bytes ++ (Hs.flatMap (·.bytes) ++ rest) ≠ [] :=
        List.append_ne_nil_of_left_ne_nil (Scanner.bytes_ne_nil P) _
      have hv : (Scanner.avx2.verdict (P.bytes ++ (Hs.flatMap (·.bytes) ++ rest))).1 =
          .badBodyLength := by
        rw [Scanner.avx2.verdict_reads fun _ hd hr => ?_]
        · exact Avx2Scanner.read_padded hP _
        · have := (readHead_ok.1 hr).2.2
          omega
      rw [stopped, if_neg hne, if_neg hall, hv]

/-- **Where the loops of the two scanners part.**  On the same stream the AVX2
    loop visits the frames that the scalar loop visits, up to the first with a
    zero-padded checksum tag, where it stops with `BadBodyLength`; if there is
    none, both end at the same position. -/
theorem splitLoop_scanners (stream : Buffer) (hb : stream.length < 2 ^ 32) (idx idx' : FieldIndex) :
    ∃ Fs rest, Parsed .scalar stream Fs rest ∧ ∀ fuel > Fs.length,
      splitLoop .scalar stream fuel 0 idx =
          some ⟨placed 0 (Fs.map Frame.piece), (Fs.flatMap (·.bytes)).length,
            stopped .scalar rest⟩ ∧
        splitLoop .avx2 stream fuel 0 idx' =
          some ⟨placed 0 ((Fs.takeWhile (·.Canonical)).map Frame.piece),
            ((Fs.takeWhile (·.Canonical)).flatMap (·.bytes)).length,
            if ∀ F ∈ Fs, F.Canonical then stopped .avx2 rest else some .badBodyLength⟩ := by
  obtain ⟨Fs, rest, h⟩ := parsed_exists .scalar hb
  obtain ⟨rest', h', hstop⟩ := h.canonical hb
  refine ⟨Fs, rest, h, fun fuel hfuel => ⟨h.splitLoop_eq hb idx hfuel, ?_⟩⟩
  have hle : (Fs.takeWhile (·.Canonical)).length ≤ Fs.length :=
    (List.takeWhile_sublist _).length_le
  rw [h'.splitLoop_eq hb idx' (hle.trans_lt hfuel), hstop]

theorem splitLoop_scanners_mixed :
    ∃ Fs rest, Parsed .scalar mixedStream Fs rest ∧ ∀ fuel > Fs.length,
      splitLoop .scalar mixedStream fuel 0 .fresh =
          some ⟨placed 0 (Fs.map Frame.piece), (Fs.flatMap (·.bytes)).length,
            stopped .scalar rest⟩ ∧
        splitLoop .avx2 mixedStream fuel 0 .fresh =
          some ⟨placed 0 ((Fs.takeWhile (·.Canonical)).map Frame.piece),
            ((Fs.takeWhile (·.Canonical)).flatMap (·.bytes)).length,
            if ∀ F ∈ Fs, F.Canonical then stopped .avx2 rest else some .badBodyLength⟩ :=
  splitLoop_scanners mixedStream (by decide) .fresh .fresh

end SwiftFIX
