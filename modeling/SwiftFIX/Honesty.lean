/-
  When `Truncated` is honest: some continuation of the buffer is accepted or
  left to QuickFIX.

  `Scanner.exists_arrived` and `Scanner.inProgress_of_arrived` say for which
  buffers there is one.  A message that ends beyond the 32-bit offsets is read by
  the AVX2 scanner at narrowed offsets (`Avx2Scanner.Beyond`).
-/
import SwiftFIX.Avx2Arrival

namespace SwiftFIX

open Decimal Delimited EarlyExit

/-! ## The AVX2 scanner -/

namespace Avx2Scanner

/-- The buffer may be the beginning of a message the AVX2 scanner takes: it ends
    before the window of pass 1 is complete, and delimiters can crowd the window,
    or its fields can be completed, which are read at narrowed offsets when the
    message does not end within 32 bits. -/
def InProgress (b : Buffer) : Prop :=
  Opening b ∨ ∃ f8 f9 y, Declared b f8 f9 y ∧ y.length < f9.declares + 7 ∧
    (Crowds f9 y ∨ declaredEnd f8 f9 ≤ 2 ^ 32 ∧ Viable f9 y ∨
      2 ^ 32 < declaredEnd f8 f9 ∧ Beyond b f8 f9)

theorem exists_crowded {b : Buffer} {f8 f9 : Field} {y : List Byte} (hd : Declared b f8 f9 y)
    (hlen : y.length < f9.declares + 7) (h : Crowds f9 y) :
    ∃ e, (Scanner.avx2.verdict (b ++ e)).1.Arrived := by
  obtain ⟨e, f35, w, hy, h35, hw, hmany⟩ := h.completes hlen
  have hd := hd.append e
  rw [hy] at hd
  exact ⟨e, verdict_of_window hd h35 hw (.crowded hmany)⟩

theorem exists_arrived {b : Buffer} (h : InProgress b) :
    ∃ e, (Scanner.avx2.verdict (b ++ e)).1.Arrived := by
  rcases h with hopen | ⟨f8, f9, y, hd, hlen, hcrowds | ⟨hfit, hv⟩ | ⟨-, hv⟩⟩
  · -- the declared length is made large enough for the SOH array to overflow
    obtain ⟨e, f8, f9, hd, hbig⟩ := hopen.exists_declared
    have h4 : emptyType.size = 4 := rfl
    have hmax : kMaxFields = 256 := rfl
    have hcrowds : Crowds f9 [] := .type emptyType_begun.1 List.nil_prefix (by omega)
    obtain ⟨e', he'⟩ := exists_crowded hd (by rw [List.length_nil]; omega) hcrowds
    rw [List.append_assoc] at he'
    exact ⟨_, he'⟩
  · exact exists_crowded hd hlen hcrowds
  · obtain ⟨e, f35, w, hy, h35, hw, ha⟩ := hv.completes hlen
    have hd := hd.append e
    rw [hy] at hd
    refine ⟨e, ?_⟩
    rw [Scanner.avx2.verdict_reads fun _ _ => fits_of_declared hd hfit]
    exact (read_arrived _).2 ⟨f8, f9, f35, w, [], by rwa [List.append_nil], h35, hw, ha⟩
  · have hb := congrArg List.length hd.bytes
    rw [List.length_append] at hb
    obtain ⟨e, f35, w, hbytes, h35, hl, ha⟩ := hv.completes (by rw [declaredEnd]; omega)
    rw [wire_three, List.append_assoc] at hbytes
    have hd : Declared (b ++ e) f8 f9 (f35.bytes ++ w) := { hd with bytes := hbytes }
    refine ⟨e, verdict_of_window hd h35 ?_ ha⟩
    rw [hbytes, List.length_append, List.length_append, f35.bytes_length, declaredEnd] at hl
    omega

/-- While the headers wait, the window is not complete. -/
theorem incomplete_of_wait {b e : Buffer} {f8 f9 f35 : Field} {y x : List Byte}
    (hd : Declared b f8 f9 y) (hwait : HeadersWait b) (hy : y ++ e = f35.bytes ++ x)
    (h35 : TypeField f35) (hsize : f35.size ≤ f9.declares + 7) : y.length < f9.declares + 7 := by
  by_contra hlen
  have hpre : f35.bytes <+: y := by
    refine List.prefix_of_prefix_length_le ⟨x, hy.symm⟩ (List.prefix_append y e) ?_
    rw [f35.bytes_length]
    omega
  obtain ⟨t, rfl⟩ := hpre
  obtain ⟨fs, hfs⟩ := hwait
  rw [hd.readHead_eq h35 (by omega)] at hfs
  cases hfs

/-- A buffer the AVX2 scanner waits on, with a continuation it takes, is in
    progress. -/
theorem inProgress_of_arrived {b e : Buffer} (hwait : HeadersWait b)
    (h : (Scanner.avx2.verdict (b ++ e)).1.Arrived) : InProgress b := by
  obtain ⟨f8, f9, f35, w, t, hd, h35, hw, ha⟩ := (exists_window _).1 h
  rcases hd.cut with hopen | ⟨y, hy, hye⟩
  · exact Or.inl hopen
  have hlen := incomplete_of_wait hy hwait hye.symm h35 (by omega)
  refine Or.inr ⟨f8, f9, y, hy, hlen, ?_⟩
  by_cases hfit : declaredEnd f8 f9 ≤ 2 ^ 32
  · rw [Scanner.avx2.verdict_reads fun _ _ => fits_of_declared hd hfit] at h
    obtain ⟨g8, g9, g35, w', t', hd', h35', hw', ha'⟩ := (read_arrived _).1 h
    obtain ⟨rfl, rfl, hy'⟩ := hy.unique hd'
    exact (viable_of_arrives hlen hy'.symm h35' hw' ha').imp id fun hv => Or.inl ⟨hfit, hv⟩
  · have hbl := congrArg List.length hy.bytes
    rw [List.length_append] at hbl
    have hbytes : b ++ e = wire [f8, f9, f35] ++ (w ++ t) := by
      rw [hy.bytes, List.append_assoc, ← hye, wire_three, List.append_assoc]
    rcases beyond_of_arrivesAt (by rw [declaredEnd]; omega) hbytes h35 hw ha with hmany | hv
    · exact Or.inl (crowds_of_many hlen hye.symm h35 hw hmany)
    · exact Or.inr (Or.inr ⟨not_le.1 hfit, hv⟩)

end Avx2Scanner

/-! ## Both scanners -/

namespace Scanner

/-- The buffers the scanner waits on. -/
def Waits : Scanner → Buffer → Prop
  | .scalar, b => HeadersOpen b ∨ ∃ h gs u, RunsOut b h gs u
  | .avx2, b => HeadersOpen b

/-- The buffers that may be the beginning of a message the scanner takes. -/
def InProgress : Scanner → Buffer → Prop
  | .scalar, b => ScalarScanner.InProgress b
  | .avx2, b => Avx2Scanner.InProgress b

theorem verdict_truncated (s : Scanner) (b : Buffer) :
    (s.verdict b).1 = .truncated ↔ s.Waits b := by
  cases s with
  | scalar => rw [scalar_truncated, headersWait_iff, Waits]
  | avx2 => rw [avx2_truncated, headersWait_iff, Waits]

theorem exists_arrived {s : Scanner} {b : Buffer} (h : s.InProgress b) :
    ∃ e, (s.verdict (b ++ e)).1.Arrived := by
  cases s with
  | scalar =>
    obtain ⟨e, he⟩ := (ScalarScanner.exists_arrived_iff b).2 h
    exact ⟨e, by rw [Scanner.scalar.verdict_reads fun h => by cases h]; exact he⟩
  | avx2 => exact Avx2Scanner.exists_arrived h

/-- A buffer the scanner waits on, with a continuation it takes, is in progress. -/
theorem inProgress_of_arrived {s : Scanner} {b e : Buffer} (hwait : s.Waits b)
    (h : (s.verdict (b ++ e)).1.Arrived) : s.InProgress b := by
  cases s with
  | scalar =>
    rw [Scanner.scalar.verdict_reads fun h => by cases h] at h
    exact (ScalarScanner.exists_arrived_iff b).1 ⟨e, h⟩
  | avx2 => exact Avx2Scanner.inProgress_of_arrived ((headersWait_iff b).2 hwait) h

end Scanner

/-- A `Truncated` answer is honest: there are further bytes with which the call
    ends with `Ok`, `FallbackRequested` or `TableFull`. -/
def Honest (s : Scanner) (b : Buffer) (out out' : FieldIndex) : Prop :=
  (∃ v, (s.scan b out).result = some (.truncated, v)) →
    ∃ e st v, (s.scan (b ++ e) out').result = some (st, v) ∧ st.Arrived

theorem honest_eq (s : Scanner) (b : Buffer) (out out' : FieldIndex) :
    Honest s b out out' ↔ (s.Waits b → ∃ e, (s.verdict (b ++ e)).1.Arrived) := by
  have hwait : (∃ v, (s.scan b out).result = some (.truncated, v)) ↔ s.Waits b := by
    rw [s.result_eq, ← s.verdict_truncated]
    constructor
    · rintro ⟨v, h⟩
      exact congrArg Prod.fst (Option.some.inj h)
    · intro h
      exact ⟨_, by rw [← h]⟩
  have hnext : (∃ e st v, (s.scan (b ++ e) out').result = some (st, v) ∧ st.Arrived) ↔
      ∃ e, (s.verdict (b ++ e)).1.Arrived := by
    constructor
    · rintro ⟨e, st, v, h, ha⟩
      rw [s.result_eq, Option.some.injEq] at h
      exact ⟨e, by rw [h]; exact ha⟩
    · rintro ⟨e, ha⟩
      exact ⟨e, _, _, s.result_eq (b ++ e) out', ha⟩
  rw [Honest, hwait, hnext]

/-- **`Truncated` is honest** on exactly the buffers in progress. -/
theorem honest_iff (s : Scanner) (b : Buffer) (out out' : FieldIndex) :
    Honest s b out out' ↔ (s.Waits b → s.InProgress b) := by
  rw [honest_eq]
  refine forall_congr' fun hwait => ⟨?_, Scanner.exists_arrived⟩
  rintro ⟨e, he⟩
  exact Scanner.inProgress_of_arrived hwait he

/-- No continuation of a message type that runs past the declared body and its
    trailer is taken. -/
theorem Scanner.not_arrived_of_long {s : Scanner} {b e : Buffer} {f8 f9 f35 : Field}
    (hd : Declared b f8 f9 f35.piece) (h35 : TypeField f35)
    (hlong : f9.declares + 7 ≤ f35.piece.length) : ¬ (s.verdict (b ++ e)).1.Arrived := by
  intro h
  -- a message that is taken has a type field that ends in time
  obtain ⟨g, x, hg, hsize⟩ : ∃ (g : Field) (x : List Byte),
      f35.piece ++ e = g.bytes ++ x ∧ g.size ≤ f9.declares + 7 := by
    cases s with
    | scalar =>
      rw [Scanner.scalar.verdict_reads fun h => by cases h] at h
      obtain ⟨g8, g9, fs, t, hd', -, hne, -, ha⟩ := (ScalarScanner.read_arrived _).1 h
      obtain ⟨rfl, rfl, hy⟩ := hd.unique hd'
      rcases fs with _ | ⟨g, gs⟩
      · exact absurd rfl hne
      have hle : (wire (g :: gs)).length ≤ g9.declares := by
        cases ha with
        | full inside _ => exact inside.le
        | embedded inside _ _ => exact inside.le
        | closed inside _ _ => exact inside.le
      rw [wire_cons, List.append_assoc] at hy
      rw [wire_cons_length] at hle
      exact ⟨g, _, hy.symm, by omega⟩
    | avx2 =>
      obtain ⟨g8, g9, g, w, t, hd', -, hw, -⟩ := (Avx2Scanner.exists_window _).1 h
      obtain ⟨rfl, rfl, hy⟩ := hd.unique hd'
      exact ⟨g, _, hy.symm, by omega⟩
  have hpre : g.bytes <+: f35.piece := by
    refine List.prefix_of_prefix_length_le ⟨x, hg.symm⟩ (List.prefix_append _ e) ?_
    rw [g.bytes_length]
    omega
  have htag : Tag f35.tag := by
    rw [h35.tag]
    decide
  exact htag.piece_open h35.value (hpre.subset (by simp [Field.bytes]))

/-- A message whose type field, unended, is longer than the declared body with
    its trailer. -/
def openType : Buffer := ascii "8=F\x019=5\x0135=abcdefghi".toList

set_option maxRecDepth 4000 in
/-- Both scanners wait on the open type field, and no continuation is taken. -/
theorem not_honest_openType :
    ¬ Honest .scalar openType .fresh .fresh ∧ ¬ Honest .avx2 openType .fresh .fresh := by
  have hd : Declared openType ⟨ascii ['8'], ascii ['F']⟩ ⟨ascii ['9'], ascii ['5']⟩
      (Field.piece ⟨ascii ['3', '5'], ascii "abcdefghi".toList⟩) :=
    ⟨by decide, rfl, by decide, rfl, by decide, by decide⟩
  have hdead : ∀ s, ∀ e st v, (Scanner.scan s (openType ++ e) .fresh).result = some (st, v) →
      ¬ st.Arrived := by
    intro s e st v h ha
    rw [s.result_eq, Option.some.injEq] at h
    refine s.not_arrived_of_long hd ⟨rfl, by decide⟩ (by decide) (e := e) ?_
    rw [h]
    exact ha
  have hscalar : (ScalarScanner.scan openType .fresh).result.map (·.1) = some .truncated := by decide
  have havx2 : (Avx2Scanner.scan openType .fresh).result.map (·.1) = some .truncated := by decide
  constructor
  · intro h
    obtain ⟨⟨st, v⟩, hv, rfl⟩ := Option.map_eq_some_iff.1 hscalar
    obtain ⟨e, st, v, hres, ha⟩ := h ⟨v, hv⟩
    exact hdead _ e st v hres ha
  · intro h
    obtain ⟨⟨st, v⟩, hv, rfl⟩ := Option.map_eq_some_iff.1 havx2
    obtain ⟨e, st, v, hres, ha⟩ := h ⟨v, hv⟩
    exact hdead _ e st v hres ha

end SwiftFIX
