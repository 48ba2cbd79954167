/-
  Every exit of a scanner leaves a coherent index (`Scanner.scan_coherent`).

  `Indexed b fs`: the fields `fs` may stand in the index of a call on `b`.  It
  holds of the fields of every reading, at whichever exit
  (`ScalarScanner.read_indexed`, `Avx2Scanner.read_indexed`); coherence of the
  index that shows them follows.
-/
import SwiftFIX.Spans
import SwiftFIX.Acceptance

namespace SwiftFIX

open Decimal Delimited EarlyExit

/-! ## The fields of an index -/

/-- **Fields of the buffer** from its start on, as many as the table holds, and
    none of embedded data after the headers. -/
structure Indexed (b : Buffer) (fs : List Field) : Prop where
  bytes : wire fs <+: b
  fields : ∀ f ∈ fs, Tag f.tag ∧ SOH ∉ f.value
  room : fs.length ≤ kMaxFields
  data : ∀ f ∈ fs.drop 3, f.number ≠ 95 ∧ f.number ≠ 96

/-- A computation whose exits are no acceptance and leave fields of the buffer. -/
abbrev Leaves {α : Type} (b : Buffer) (R : α → Prop) : Read α → Prop :=
  Run (fun r => r.status ≠ .ok ∧ Indexed b r.fields) R

namespace Indexed
variable {b : Buffer} {fs gs : List Field} {f : Field} {s : List Byte}

theorem nil (b : Buffer) : Indexed b [] := ⟨List.nil_prefix, by simp, Nat.zero_le _, by simp⟩

theorem left (h : Indexed b (fs ++ gs)) : Indexed b fs where
  bytes := by
    have hb := h.bytes
    rw [wire_append] at hb
    exact (List.prefix_append _ _).trans hb
  fields f hf := h.fields f (List.mem_append_left _ hf)
  room := by
    have := h.room
    rw [List.length_append] at this
    omega
  data f hf := h.data f (by
    rw [List.drop_append]
    exact List.mem_append_left _ hf)

theorem append (h : Indexed b fs) (h3 : 3 ≤ fs.length) (hb : wire (fs ++ gs) <+: b)
    (hgs : ∀ g ∈ gs, BodyField g) (hroom : fs.length + gs.length ≤ kMaxFields) :
    Indexed b (fs ++ gs) where
  bytes := hb
  fields := List.forall_mem_append.2 ⟨h.fields, fun g hg => ⟨(hgs g hg).tag, (hgs g hg).value⟩⟩
  room := by rwa [List.length_append]
  data := by
    rw [List.drop_append_of_le_length h3]
    exact List.forall_mem_append.2
      ⟨h.data, fun g hg => ⟨(hgs g hg).notLength, (hgs g hg).notData⟩⟩

theorem snoc (h : Indexed b fs) (h3 : 3 ≤ fs.length) (hb : b = wire fs ++ (f.bytes ++ s))
    (htag : Tag f.tag) (h10 : f.number = 10) (hval : SOH ∉ f.value)
    (hroom : fs.length < kMaxFields) : Indexed b (fs ++ [f]) := by
  refine h.append h3 ⟨s, by rw [hb, wire_append, wire_singleton, List.append_assoc]⟩ ?_ hroom
  rintro g hg
  rw [List.mem_singleton.1 hg]
  exact ⟨htag, by omega, by omega, hval⟩

end Indexed

/-! ## The headers -/

section
variable {b : Buffer} {f8 f9 : Field} {s : List Byte} {r : Reading}

theorem readTag8_fields (h : readTag8 b = .error r) : r.fields = [] := by
  unfold readTag8 at h
  split at h
  · cases h
    rfl
  split at h
  · cases h
    rfl
  · cases h

theorem readTag9_fields (h : readTag9 f8 s = .error r) : r.fields = [f8] := by
  unfold readTag9 at h
  split at h
  · cases h
    rfl
  split at h
  · cases h
    rfl
  split at h
  · cases h
    rfl
  split at h
  · cases h
    rfl
  split at h
  · cases h
    rfl
  · cases h

theorem readBounds_fields (h : readBounds f8 f9 s = .error r) : r.fields = [f8, f9] := by
  unfold readBounds at h
  split at h
  · cases h
    rfl
  · cases h

theorem readTag35_fields (h : readTag35 f8 f9 s = .error r) : r.fields = [f8, f9] := by
  unfold readTag35 at h
  split at h
  · cases h
    rfl
  split at h
  · cases h
    rfl
  · cases h

theorem readHead_fields (b : Buffer) (h : readHead b = .error r) : Indexed b r.fields := by
  have htag8 : Tag [ch '8'] := by decide
  have htag9 : Tag [ch '9'] := by decide
  unfold readHead at h
  split at h
  · cases h
    exact Indexed.nil b
  rcases bind_eq_error.1 h with h' | ⟨⟨f8, s⟩, h8, hrest⟩
  · rw [readTag8_fields h']
    exact Indexed.nil b
  obtain ⟨hb8, t8, v8⟩ := readTag8_ok.1 h8
  rcases bind_eq_error.1 hrest with h' | ⟨⟨f9, t⟩, h9, hbody⟩
  · rw [readTag9_fields h']
    exact ⟨⟨s, by rw [hb8, wire_singleton]⟩, by simpa [t8] using ⟨htag8, v8⟩, by simp [kMaxFields],
      by simp⟩
  obtain ⟨hb9, t9, n9, -⟩ := readTag9_ok.1 h9
  have hi : Indexed b [f8, f9] := by
    refine ⟨⟨t, by rw [hb8, hb9, wire_cons, wire_singleton, List.append_assoc]⟩, ?_,
      by simp [kMaxFields], by simp⟩
    simpa [t8, t9] using ⟨⟨htag8, v8⟩, htag9, n9.soh_notMem⟩
  rcases bind_eq_error.1 hbody with h' | ⟨⟨⟩, -, htype⟩
  · rw [readBounds_fields h']
    exact hi
  rcases bind_eq_error.1 htype with h' | ⟨_, -, hend⟩
  · rw [readTag35_fields h']
    exact hi
  · cases hend

theorem indexed_head {h : Head} (hh : readHead b = .ok h) : Indexed b h.fields := by
  obtain ⟨hw, hb, -⟩ := readHead_ok.1 hh
  have h8 : Tag h.f8.tag := by
    rw [hw.tag8]
    decide
  have h9 : Tag h.f9.tag := by
    rw [hw.tag9]
    decide
  have h35 : Tag h.f35.tag := by
    rw [hw.tag35]
    decide
  refine ⟨⟨h.rest, hb.symm⟩, ?_, h.fields_length_le, by simp [Head.fields]⟩
  simpa [Head.fields] using ⟨⟨h8, hw.value8⟩, ⟨h9, hw.value9.soh_notMem⟩, h35, hw.value35⟩

theorem leaves_readHead {α : Type} {R : α → Prop} {k : Head → Read α}
    (hk : ∀ h, readHead b = .ok h → Leaves b R (k h)) : Leaves b R (readHead b >>= k) := by
  have hfails := readHead_fails b
  rcases hh : readHead b with r | h
  · rw [hh] at hfails
    exact Run.exit ⟨hfails, readHead_fields b hh⟩
  · exact hk h hh

end

/-! ## The scalar scanner -/

namespace ScalarScanner
variable {b : Buffer} {fs : List Field}

/-- The state after the body: the fields so far, and the bytes left if the body
    ends where it should. -/
def Body (b : Buffer) (x : List Field × Option (List Byte)) : Prop :=
  Indexed b x.1 ∧ 3 ≤ x.1.length ∧ ∀ s, x.2 = some s → b = wire x.1 ++ s

theorem readBody_leaves (hi : Indexed b fs) (h3 : 3 ≤ fs.length) {s : List Byte}
    (hb : b = wire fs ++ s) (left : ℕ) : Leaves b (Body b) (readBody fs left s) := by
  obtain ⟨gs, t, rfl, hgs, -, hroom, hstop⟩ := readBody_stops left fs s
  have hbytes : b = wire (fs ++ gs) ++ t := by rw [hb, wire_append, List.append_assoc]
  have hfs : Indexed b (fs ++ gs) := hi.append h3 ⟨t, hbytes.symm⟩ hgs (hroom hi.room)
  have hlen : 3 ≤ (fs ++ gs).length := by
    rw [List.length_append]
    omega
  generalize readBody fs left (wire gs ++ t) = c at hstop ⊢
  cases hstop with
  | done =>
    refine Run.ok ⟨hfs, hlen, ?_⟩
    rintro s ⟨⟩
    exact hbytes
  | full => exact Run.exit ⟨by simp, hfs⟩
  | truncated => exact Run.exit ⟨by simp, hfs⟩
  | malformed => exact Run.exit ⟨by simp, hfs⟩
  | embedded => exact Run.exit ⟨by simp, hfs⟩
  | @overrun f u inside room next number long =>
    obtain ⟨rfl, htag, hval⟩ := readField_field.1 next
    have hf : BodyField f := ⟨htag, fun h => number (Or.inl h), fun h => number (Or.inr h), hval⟩
    refine Run.ok ⟨hfs.append hlen ⟨u, ?_⟩ (by simpa using hf) room, ?_, by simp⟩
    · rw [hbytes, wire_append _ [f], wire_singleton, List.append_assoc]
    · rw [List.length_append]
      omega

theorem readEnding_leaves {x : List Field × Option (List Byte)} (hx : Body b x) :
    Leaves b (fun fs => Indexed b fs ∧ fs ≠ []) (readEnding b x.1 x.2) := by
  obtain ⟨fs, e⟩ := x
  obtain ⟨hi, h3, hb⟩ := hx
  unfold readEnding
  rcases e with _ | s
  · exact Run.exit ⟨by simp, hi⟩
  simp only at hi h3 ⊢
  rcases hr : readField s with ⟨f, t⟩ | _ | _
  · obtain ⟨hs, htag, hval⟩ := readField_field.1 hr
    refine Run.ite (fun _ => Run.exit ⟨by simp, hi⟩) fun h10 => ?_
    refine Run.ite (fun _ => Run.exit ⟨by simp, hi⟩) fun _ => ?_
    refine Run.ite (fun _ => Run.exit ⟨by simp, hi⟩) fun _ => ?_
    refine Run.ite (fun _ => Run.exit ⟨by simp, hi⟩) fun hroom => Run.ok ⟨?_, by simp⟩
    exact hi.snoc h3 (hs ▸ hb s rfl) htag (not_not.1 h10) hval (not_le.1 hroom)
  · exact Run.exit ⟨by simp, hi⟩
  · exact Run.exit ⟨by simp, hi⟩

theorem readMessage_leaves (b : Buffer) : Leaves b (fun fs => Indexed b fs ∧ fs ≠ [])
    (do let h ← readHead b; let x ← readRest h; readEnding b x.1 x.2) := by
  refine leaves_readHead fun h hh => Run.bind (R := Body b) ?_ fun x hx => readEnding_leaves hx
  have hi := indexed_head hh
  obtain ⟨-, hb, -⟩ := readHead_ok.1 hh
  exact Run.ite (fun _ => Run.ok ⟨hi, le_rfl, by simp⟩) fun _ => readBody_leaves hi le_rfl hb _

end ScalarScanner

/-! ## The AVX2 scanner -/

namespace Avx2Scanner
variable {b : Buffer} {fs : List Field}

/-- What pass 2 takes from a string of pieces. -/
theorem readPieces_leaves (hi : Indexed b fs) (h3 : 3 ≤ fs.length) {ps : List (List Byte)}
    {t : List Byte} (hb : b = wire fs ++ (ps.flatMap (· ++ [SOH]) ++ t))
    (hps : ∀ s ∈ ps, SOH ∉ s) :
    Leaves b (fun fs => Indexed b fs ∧ 3 ≤ fs.length ∧ b = wire fs ++ t) (readPieces fs ps) := by
  obtain ⟨gs, qs, rfl, hgs, hroom, hstop⟩ := readPieces_stops ps fs
  have hbytes : b = wire (fs ++ gs) ++ (qs.flatMap (· ++ [SOH]) ++ t) := by
    rw [hb, List.flatMap_append, ← wire_eq, wire_append, List.append_assoc, List.append_assoc]
  have hbody : ∀ g ∈ gs, BodyField g := fun g hg =>
    (hgs g hg).body (hps _ (List.mem_append_left _ (List.mem_map_of_mem hg)))
  have hfs : Indexed b (fs ++ gs) := hi.append h3 ⟨_, hbytes.symm⟩ hbody (hroom hi.room)
  generalize readPieces fs (gs.map Field.piece ++ qs) = c at hstop ⊢
  cases hstop with
  | done =>
    refine Run.ok ⟨hfs, ?_, hbytes⟩
    rw [List.length_append]
    omega
  | full => exact Run.exit ⟨by simp, hfs⟩
  | malformed => exact Run.exit ⟨by simp, hfs⟩
  | embedded => exact Run.exit ⟨by simp, hfs⟩

theorem readTrailer_leaves (hi : Indexed b fs) (h3 : 3 ≤ fs.length) {s t : List Byte}
    (hb : b = wire fs ++ (s ++ SOH :: t)) (bodyEnd : ℕ) :
    Leaves b (fun fs => Indexed b fs ∧ fs ≠ []) (readTrailer bodyEnd fs s) := by
  unfold readTrailer
  refine Run.ite (fun _ => Run.exit ⟨by simp, hi⟩) fun _ => ?_
  refine Run.ite (fun _ => Run.exit ⟨by simp, hi⟩) fun _ => ?_
  rcases hs : strip [ch '1', ch '0', ch '='] s with _ | d
  · exact Run.exit ⟨by simp, hi⟩
  simp only
  refine Run.ite (fun _ => Run.exit ⟨by simp, hi⟩) fun hd => ?_
  refine Run.ite (fun _ => Run.exit ⟨by simp, hi⟩) fun hroom => Run.ok ⟨?_, by simp⟩
  have htag : Tag [ch '1', ch '0'] := by decide
  have h10 : Field.number ⟨[ch '1', ch '0'], d⟩ = 10 := by
    show Decimal.value [ch '1', ch '0'] = 10
    decide
  refine hi.snoc h3 (s := t) ?_ htag h10 (fun hm => digit_ne_soh (not_not.1 hd _ hm) rfl)
    (not_le.1 hroom)
  rw [hb, strip_some.1 hs]
  simp [Field.bytes]

theorem readMessage_leaves (b : Buffer) : Leaves b (fun fs => Indexed b fs ∧ fs ≠ [])
    (do let h ← readHead b; readRest h) := by
  refine leaves_readHead fun h hh => ?_
  have hi := indexed_head hh
  obtain ⟨-, hb, -⟩ := readHead_ok.1 hh
  unfold readRest
  refine Run.ite (fun _ => Run.exit ⟨by simp, hi⟩) fun _ => ?_
  rcases hlast : (pieces SOH (window h)).getLast? with _ | s
  · exact Run.exit ⟨by simp, hi⟩
  obtain ⟨u, hu, -, hopen⟩ := pieces_eq.1 (rfl : pieces SOH (window h) = _)
  have hps : pieces SOH (window h) = (pieces SOH (window h)).dropLast ++ [s] :=
    (List.dropLast_append_getLast? _ hlast).symm
  have hrest := (window_append_drop h).symm
  rw [hps, List.flatMap_append] at hu
  refine Run.bind (readPieces_leaves hi le_rfl
    (t := s ++ SOH :: (u ++ h.rest.drop (h.bodyLen + 7 - h.f35.size))) ?_ ?_) ?_
  · conv_lhs => rw [hb, hrest, hu]
    simp
  · exact fun p hp => hopen p (List.dropLast_subset _ hp)
  · rintro fs ⟨hfs, h3, hbytes⟩
    exact readTrailer_leaves hfs h3 hbytes _

end Avx2Scanner

/-! ## Both scanners -/

theorem Scanner.read_indexed (s : Scanner) (b : Buffer) :
    Indexed b (s.read b).fields ∧ ((s.read b).status = .ok → (s.read b).fields ≠ []) := by
  have hof : ∀ {c : Read (List Field)}, Leaves b (fun fs => Indexed b fs ∧ fs ≠ []) c →
      Indexed b (Reading.ofRead c).fields ∧
        ((Reading.ofRead c).status = .ok → (Reading.ofRead c).fields ≠ []) := by
    intro c hc
    cases c with
    | ok fs => exact ⟨hc.1, fun _ => hc.2⟩
    | error r => exact ⟨hc.2, fun h => absurd h hc.1⟩
  cases s with
  | scalar => exact hof (ScalarScanner.readMessage_leaves b)
  | avx2 => exact hof (Avx2Scanner.readMessage_leaves b)

/-! ## Coherence -/

/-- **A coherent index** of a call on `b` that answered `st`: the populated
    entries are the first fields of the buffer, the slots and the declared length
    are those of the entries that are there, no field of embedded data is among
    them, and only an acceptance shows a checksum field and a length. -/
structure Coherent (b : Buffer) (st : ScanStatus) (v : IndexView) : Prop where
  count : v.fieldCount ≤ kMaxFields
  populated : v.entries.length = v.fieldCount
  tiles : ∃ q, Tiles b 0 (v.entries.map FieldEntry.span) q
  numbers : ∀ e ∈ v.entries, (∀ c ∈ e.span.tagBytes b, IsDigit c) ∧
    e.tagNumber = Decimal.value (e.span.tagBytes b)
  beginString : v.beginStringIdx = if 0 < v.fieldCount then 0 else -1
  bodyLength : v.bodyLengthIdx = if 1 < v.fieldCount then 1 else -1
  msgType : v.msgTypeIdx = if 2 < v.fieldCount then 2 else -1
  declared : v.declaredBodyLength =
    (v.entries[1]?.map fun e => Decimal.value (e.span.valueBytes b)).getD 0
  data : ∀ e ∈ v.entries.drop 3, e.tagNumber ≠ 95 ∧ e.tagNumber ≠ 96
  checksum : v.checksumIdx ≠ -1 ↔ st = .ok
  frameLength : v.frameLength ≠ 0 ↔ st = .ok

section
variable {b : Buffer} {fs : List Field}

theorem Indexed.layout_eq (h : Indexed b fs) (hb : b.length < 2 ^ 32) : layout 0 fs = places 0 fs := by
  refine layout_eq_places fs ?_
  have := h.bytes.length_le
  omega

/-- The declared length is the number the second entry spells. -/
theorem Indexed.declared_eq (h : Indexed b fs) :
    declared fs = ((places 0 fs)[1]?.map fun e => Decimal.value (e.span.valueBytes b)).getD 0 := by
  have hspells := spells_of_prefix h.bytes
  rcases fs with _ | ⟨f, _ | ⟨g, fs⟩⟩
  · rfl
  · rfl
  · simp only [places, List.forall₂_cons] at hspells
    obtain ⟨-, ⟨-, hval, -⟩, -⟩ := hspells
    show Decimal.value g.value = Decimal.value _
    rw [hval]

/-- Only an acceptance completes the index of a reading. -/
theorem Reading.exists_view {st : ScanStatus} (hlt : (wire fs).length < 2 ^ 32)
    (hok : st = .ok → fs ≠ []) :
    ∃ c n, Reading.view ⟨st, fs⟩ = { progress fs with checksumIdx := c, frameLength := n } ∧
      (c ≠ -1 ↔ st = .ok) ∧ (n ≠ 0 ↔ st = .ok) := by
  unfold Reading.view
  by_cases hst : st = .ok
  · rw [if_pos hst]
    refine ⟨_, _, rfl, iff_of_true (by omega) hst, iff_of_true ?_ hst⟩
    rcases fs with _ | ⟨f, fs⟩
    · exact absurd rfl (hok hst)
    have hpos := f.size_pos
    rw [u32_of_lt hlt, wire_cons_length]
    omega
  · rw [if_neg hst]
    exact ⟨-1, 0, rfl, by simpa using hst, by simpa using hst⟩

/-- **The index of a reading** is coherent. -/
theorem Indexed.coherent (h : Indexed b fs) (hb : b.length < 2 ^ 32) {st : ScanStatus}
    (hok : st = .ok → fs ≠ []) : Coherent b st (Reading.view ⟨st, fs⟩) := by
  have hlayout := h.layout_eq hb
  have hspells := spells_of_prefix h.bytes
  obtain ⟨c, n, hview, hc, hn⟩ := Reading.exists_view (lt_of_le_of_lt h.bytes.length_le hb) hok
  have hentries : (Reading.view ⟨st, fs⟩).entries = places 0 fs := by
    rw [hview, ← hlayout]
    rfl
  rw [hview] at hentries ⊢
  refine
    { count := h.room, beginString := rfl, bodyLength := rfl, msgType := rfl, checksum := hc,
      frameLength := hn, populated := ?_, tiles := ?_, numbers := ?_, declared := ?_, data := ?_ }
  · rw [hentries]
    exact hspells.length_eq
  · rw [hentries]
    exact ⟨_, tiles_of_prefix h.fields h.bytes⟩
  · rw [hentries]
    refine forall_of_forall₂ hspells ?_ fun f hf => (h.fields f hf).1
    rintro e f ⟨htag, -, hnum⟩ hf
    rw [htag]
    exact ⟨hf.1.1, hnum⟩
  · rw [hentries]
    exact h.declared_eq
  · rw [hentries]
    refine forall_of_forall₂ (List.forall₂_drop 3 hspells) ?_ h.data
    rintro e f ⟨-, -, hnum⟩ hf
    rw [hnum]
    exact hf

end

namespace Scanner

/-- **Every exit leaves a coherent index**, whatever the index held before. -/
theorem scan_coherent (s : Scanner) (b : Buffer) (hb : b.length < 2 ^ 32) (out : FieldIndex) :
    ∃ st v, (s.scan b out).result = some (st, v) ∧ Coherent b st v := by
  obtain ⟨hi, hok⟩ := s.read_indexed b
  exact ⟨_, _, s.scan_result hb out, hi.coherent hb hok⟩

theorem scan_coherent_plain :
    ∃ st v, (Scanner.scalar.scan plainChecksum .fresh).result = some (st, v) ∧
      Coherent plainChecksum st v :=
  Scanner.scalar.scan_coherent plainChecksum (by decide) .fresh

end Scanner
end SwiftFIX
