/-
  The AVX2 scanner computes its reading (`Avx2Scanner.scan_reads`), for
  messages that fit the 32-bit offsets.

  Pass 1 collects the offsets of every SOH of its window, or finds more than
  the array holds (`pass1_eq`, for buffers of any length).  Pass 2 walks the
  collected offsets; `Window` is its loop invariant.
-/
import SwiftFIX.Avx2
import SwiftFIX.HeadReads
import SwiftFIX.Lib.SetBits

namespace SwiftFIX
namespace Avx2Scanner

open Decimal Delimited EarlyExit SetBits

variable {b : Buffer} {out : FieldIndex}

/-! ## Pass 1 -/

/-- The offsets of the SOHs of `s`, which starts at offset `p`. -/
abbrev sohOffsets (p : ℕ) (s : List Byte) : List ℕ := positions (· = SOH) p s

theorem sohOffsets_append (p : ℕ) (s t : List Byte) :
    sohOffsets p (s ++ t) = sohOffsets p s ++ sohOffsets (p + s.length) t :=
  positions_append _ s t p

/-- Collecting the offsets `offs` one by one into `sohs`. -/
def store (out : FieldIndex) (sohs offs : List ℕ) : Scan (List ℕ) :=
  if sohs.length + offs.length ≤ kMaxFields then .ok (sohs ++ offs)
  else .error (.ret .tableFull out)

theorem store_nil {sohs : List ℕ} (h : sohs.length ≤ kMaxFields) : store out sohs [] = .ok sohs := by
  simp [store, h]

theorem store_append (out : FieldIndex) (sohs offs offs' : List ℕ) :
    (store out sohs offs >>= fun sohs => store out sohs offs') = store out sohs (offs ++ offs') := by
  unfold store
  by_cases h : sohs.length + offs.length ≤ kMaxFields
  · simp [h, Nat.add_assoc]
  · have h' : ¬ sohs.length + (offs.length + offs'.length) ≤ kMaxFields := by omega
    simp [h, h']

theorem length_of_store {sohs offs sohs' : List ℕ} (h : store out sohs offs = .ok sohs') :
    sohs'.length ≤ kMaxFields := by
  unfold store at h
  split at h
  · rename_i hle
    cases h
    simpa using hle
  · cases h

theorem store_cons {sohs : List ℕ} (h : sohs.length ≤ kMaxFields) (off : ℕ) (offs : List ℕ)
    (k : List ℕ → Scan (List ℕ))
    (hk : ∀ s, s.length ≤ kMaxFields → k s = store out s offs) :
    (if sohs.length ≥ kMaxFields then .error (.ret .tableFull out)
      else do let s ← pushSoh sohs off; k s) = store out sohs (off :: offs) := by
  by_cases hfull : sohs.length ≥ kMaxFields
  · have hn : ¬ sohs.length + (off :: offs).length ≤ kMaxFields := by
      rw [List.length_cons]; omega
    rw [if_pos hfull, store, if_neg hn]
  · have hs : store out sohs [off] = .ok (sohs ++ [off]) := by
      rw [store, List.length_singleton, if_pos (by omega)]
    have hp : pushSoh sohs off = .ok (sohs ++ [off]) := by
      rw [pushSoh, if_pos (by omega)]
    have happ := store_append out sohs [off] offs
    rw [hs, ok_bind] at happ
    rw [if_neg hfull, hp, ok_bind, hk _ (length_of_store hs)]
    exact happ

theorem sohBits_testBit (v : List Byte) :
    ∀ i, (sohBits v).testBit i = (v[i]?).any fun c => decide (c = SOH) := by
  induction v with
  | nil => intro i; simp [sohBits]
  | cons c v ih =>
    intro i
    cases i with
    | zero =>
      rw [sohBits, Nat.testBit_zero]
      by_cases hc : c = SOH <;> simp [hc, Nat.add_mod]
    | succ i =>
      have hdiv : ((if c = SOH then 1 else 0) + 2 * sohBits v) / 2 = sohBits v := by
        split <;> omega
      rw [sohBits, Nat.testBit_succ, hdiv, ih]
      simp

/-- **The mask of a window** has the offsets of its SOHs as set bits. -/
theorem setBits_movemask {v : List Byte} (h : v.length = 32) (q : ℕ) :
    (setBits (movemask v)).map (q + ·) = sohOffsets q v := by
  rw [sohOffsets, positions_eq_filter, setBits, h]
  congr 1
  refine List.filter_congr fun i hi => ?_
  have hi' : i < 32 := List.mem_range.1 hi
  rw [movemask, BitVec.getLsbD_ofNat, sohBits_testBit]
  simp [hi']

/-- The bit loop stores the set bits of its mask. -/
theorem maskLoop_eq (baseOff fuel : ℕ) :
    ∀ (m : BitVec 32) {sohs : List ℕ}, (setBits m).length ≤ fuel → sohs.length ≤ kMaxFields →
      maskLoop out baseOff fuel m sohs =
        store out sohs ((setBits m).map fun i => u32 (baseOff + i)) := by
  induction fuel with
  | zero =>
    intro m sohs hf hs
    have hm : m = 0 := by
      by_contra hm
      rw [setBits_of_ne_zero hm] at hf
      simp at hf
    subst hm
    rw [maskLoop, if_pos rfl, setBits_zero, List.map_nil, store_nil hs]
  | succ fuel ih =>
    intro m sohs hf hs
    rw [maskLoop]
    by_cases hm : m = 0
    · subst hm
      rw [if_pos rfl, setBits_zero, List.map_nil, store_nil hs]
    · rw [setBits_of_ne_zero hm] at hf ⊢
      rw [if_neg hm, List.map_cons]
      refine store_cons hs _ _ _ fun s hs' => ?_
      exact ih _ (by simpa using hf) hs'

theorem tailLoop_eq (n : ℕ) :
    ∀ (q : ℕ) {sohs : List ℕ}, q + n ≤ b.length → sohs.length ≤ kMaxFields →
      tailLoop b out n q sohs = store out sohs ((sohOffsets q ((b.drop q).take n)).map u32) := by
  induction n with
  | zero =>
    intro q sohs _ hs
    rw [tailLoop, List.take_zero, sohOffsets, positions, List.map_nil, store_nil hs]
  | succ n ih =>
    intro q sohs hq hs
    have hlt : q < b.length := by omega
    have hd : b.drop q = b[q] :: b.drop (q + 1) := List.drop_eq_getElem_cons hlt
    rw [tailLoop, byteAt_eq (List.getElem?_eq_getElem hlt), ok_bind, hd, List.take_succ_cons,
      sohOffsets, positions]
    by_cases hc : b[q] = SOH
    · simp only [hc, if_true, decide_true, List.map_cons]
      refine store_cons hs _ _ _ fun s hs' => ?_
      exact ih (q + 1) (by omega) hs'
    · simp only [hc, if_false, decide_false, Bool.false_eq_true]
      exact ih (q + 1) (by omega) hs

theorem loadWindow_eq {q : ℕ} (h : q + 32 ≤ b.length) :
    loadWindow b q = .ok ((b.drop q).take 32) := if_pos h

theorem setBits_length_le (m : BitVec 32) : (setBits m).length ≤ 32 := by
  have h := List.length_filter_le (fun i => m.getLsbD i) (List.range 32)
  simpa [setBits] using h

/-- The windows and the tail together store what is left of `[q, E)`. -/
theorem windowLoop_eq {E : ℕ} (hE : E ≤ b.length) (fuel : ℕ) :
    ∀ (q : ℕ) {sohs : List ℕ}, E - q < fuel → sohs.length ≤ kMaxFields →
      (windowLoop b out E fuel q sohs >>= fun r => tailLoop b out (E - r.1) r.1 r.2) =
        store out sohs ((sohOffsets q ((b.drop q).take (E - q))).map u32) := by
  induction fuel with
  | zero => intro q sohs h; omega
  | succ fuel ih =>
    intro q sohs hf hs
    rw [windowLoop]
    by_cases hw : E - q ≥ 32
    · have hlen : ((b.drop q).take 32).length = 32 := by
        rw [List.length_take, List.length_drop]; omega
      have hsplit : sohOffsets q ((b.drop q).take (E - q)) =
          sohOffsets q ((b.drop q).take 32) ++
            sohOffsets (q + 32) ((b.drop (q + 32)).take (E - (q + 32))) := by
        rw [show E - q = 32 + (E - (q + 32)) by omega, List.take_add, List.drop_drop,
          sohOffsets_append, hlen]
      have hmask : (setBits (movemask ((b.drop q).take 32))).map (fun i => u32 (u32 q + i)) =
          (sohOffsets q ((b.drop q).take 32)).map u32 := by
        rw [← setBits_movemask hlen, List.map_map]
        exact List.map_congr_left fun i _ => u32_add q i
      rw [if_pos hw, loadWindow_eq (by omega), ok_bind,
        maskLoop_eq _ _ _ (setBits_length_le _) hs, hmask, hsplit, List.map_append, ← store_append]
      rcases hst : store out sohs ((sohOffsets q ((b.drop q).take 32)).map u32) with e | s
      · rfl
      · rw [ok_bind, ok_bind]
        exact ih (q + 32) (by omega) (length_of_store hst)
    · rw [if_neg hw, ok_bind]
      by_cases hq : q + (E - q) ≤ b.length
      · exact tailLoop_eq _ _ hq hs
      · have h0 : E - q = 0 := by omega
        rw [h0, tailLoop, List.take_zero, sohOffsets, positions, List.map_nil, store_nil hs]

/-- **Pass 1** collects the offsets of exactly the SOHs in `[p, E)`, in order,
    or reports a full table when they are more than the array holds. -/
theorem pass1_eq {E : ℕ} (hE : E ≤ b.length) (p : ℕ) :
    pass1 b out p E = store out [] ((sohOffsets p ((b.drop p).take (E - p))).map u32) :=
  windowLoop_eq hE _ p (Nat.lt_succ_self _) (Nat.zero_le _)

/-! ## One field -/

theorem tagLoop_eq {s : List Byte} :
    ∀ {tp : ℕ} {t : List Byte} (tag : ℕ), b.drop tp = s ++ t →
      tagLoop b out s.length tp tag =
        match digitLoop (ch '=') tp tag s with
        | some r => .ok r
        | none => .error (.ret .malformed out) := by
  induction s with
  | nil => exact fun _ _ => rfl
  | cons c s ih =>
    intro tp t tag hd
    have hc : b[tp]? = some c := by
      have := congrArg (·[0]?) hd; simpa using this
    have hd' : b.drop (tp + 1) = s ++ t := by
      rw [← List.drop_drop, hd]; rfl
    simp only [List.length_cons, tagLoop, digitLoop, byteAt_eq hc, ok_bind]
    split
    · rfl
    · split
      · rfl
      · split
        · rfl
        · exact ih _ hd'

/-- **The body of pass 2's loop** reads one piece of the window. -/
theorem scanField_eq {s t : List Byte} {p : ℕ} (hd : b.drop p = s ++ t)
    (hfit : p + s.length < 2 ^ 32) :
    scanField b p (p + s.length) out =
      match readPiece s with
      | none => .error (.ret .malformed out)
      | some f =>
        if f.number = 95 ∨ f.number = 96 then .error (.ret .fallbackRequested out)
        else out.push (f.entry p) := by
  unfold scanField
  rw [Nat.add_sub_cancel_left, tagLoop_eq 0 hd, digitLoop_eq]
  rcases heq : cut (ch '=') s with _ | ⟨tg, v⟩
  · -- no `=`: the tag loop runs up to `se`
    rw [upTo_open (cut_none.1 heq)]
    by_cases hn : Numeral s <;> simp [readPiece, heq, hn]
  · obtain ⟨rfl, htg⟩ := cut_some.1 heq
    rw [upTo_append htg]
    rw [List.length_append, List.length_cons] at hfit
    by_cases ht : Tag tg
    · have hse : p + tg.length ≠ p + (tg ++ ch '=' :: v).length := by
        rw [List.length_append, List.length_cons]; omega
      have hfs : p + tg.length ≠ p := by
        have := List.length_pos_iff.2 ht.ne_nil; omega
      have he : (⟨p, u32 (u32 (p + tg.length) + 1), p + (tg ++ ch '=' :: v).length,
          Decimal.value tg⟩ : FieldEntry) = Field.entry p ⟨tg, v⟩ := by
        rw [Field.entry, u32_of_lt (show p + tg.length < 2 ^ 32 by omega),
          u32_of_lt (show p < 2 ^ 32 by omega),
          u32_of_lt (show p + tg.length + 1 + v.length < 2 ^ 32 by omega)]
        simp only [FieldEntry.mk.injEq, true_and]
        refine ⟨?_, rfl⟩
        rw [List.length_append, List.length_cons]; omega
      simp only [readPiece, heq, ht, ht.1, if_true, ok_bind, hse, hfs, ht.2, if_false, he]
      rfl
    · by_cases hn : Numeral tg
      · have hz : Decimal.value tg = 0 := by
          by_contra hz
          exact ht ⟨hn, hz⟩
        simp only [readPiece, heq, ht, hn, hz, if_true, if_false, ok_bind, ite_self]
      · simp [readPiece, heq, ht, hn]

/-! ## Pass 2 -/

/-- The loop invariant of pass 2: the fields `fs` are read, `w` is what is left
    of the window, and the offsets from round `i` on are those of its SOHs. -/
structure Window (b : Buffer) (sohs : List ℕ) (i : ℕ) (fs : List Field) (w z : List Byte) (p : ℕ)
    (out : FieldIndex) : Prop where
  here : At b fs (w ++ z) p out
  offs : sohs.drop i = sohOffsets p w
  count : 3 ≤ fs.length
  fits : p + w.length ≤ 2 ^ 32

theorem Window.sohAt_eq {sohs : List ℕ} {i p : ℕ} {fs : List Field} {w z s t : List Byte}
    (h : Window b sohs i fs w z p out) (hc : cut SOH w = some (s, t)) :
    sohAt sohs i = .ok (p + s.length) := by
  have ho := h.offs
  rw [sohOffsets, positions_of_cut hc] at ho
  have hi : sohs[i]? = some (p + s.length) := by
    have := congrArg (·[0]?) ho
    simpa using this
  rw [sohAt, hi]

theorem fieldLoop_reads {sohs : List ℕ} {z s : List Byte} (n : ℕ) :
    ∀ {i : ℕ} {fs : List Field} {w : List Byte} {p : ℕ} {out : FieldIndex},
      Window b sohs i fs w z p out → (pieces SOH w).length = n + 1 →
      (pieces SOH w).getLast? = some s →
      Reads (fun fs y => ∃ i w, Window b sohs i fs w z y.1 y.2 ∧ pieces SOH w = [s])
        (readPieces fs (pieces SOH w).dropLast) (fieldLoop b sohs n i p out) := by
  induction n with
  | zero =>
    intro i fs w p out h hn hs
    obtain ⟨s', hs'⟩ := List.length_eq_one_iff.1 hn
    rw [hs'] at hs ⊢
    cases hs
    exact Sim.ok ⟨i, w, h, hs'⟩
  | succ n ih =>
    intro i fs w p out h hn hs
    rcases hc : cut SOH w with _ | ⟨s₁, t⟩
    · rw [pieces_open (cut_none.1 hc)] at hn
      cases hn
    have hps := pieces_of_cut hc
    obtain ⟨rfl, hs₁⟩ := cut_some.1 hc
    rw [hps] at hn hs ⊢
    have hne : pieces SOH t ≠ [] := by
      intro h0
      rw [h0] at hn
      simp at hn
    have htpos : 0 < t.length := by
      refine List.length_pos_iff.2 fun h0 => hne ?_
      rw [h0]; rfl
    have hfits := h.fits
    rw [List.length_append, List.length_cons] at hfits
    rw [List.dropLast_cons_of_ne_nil hne, readPieces, fieldLoop, h.here.count]
    refine Sim.ite (fun _ => Reads.error h.here.view) fun hroom => ?_
    have hd : b.drop p = s₁ ++ (SOH :: t ++ z) := by
      rw [h.here.drop, List.append_assoc]
    rw [h.sohAt_eq hc, ok_bind, scanField_eq hd (by omega)]
    rcases hp : readPiece s₁ with _ | f
    · exact Reads.error h.here.view
    · obtain ⟨rfl, -⟩ := readPiece_some.1 hp
      have hsize : p + (f.tag ++ ch '=' :: f.value).length + 1 = p + f.size := by
        rw [List.length_append, List.length_cons, Field.size]; omega
      have hbytes : f.tag ++ ch '=' :: f.value ++ SOH :: t = f.bytes ++ t := by
        simp [Field.bytes]
      by_cases hfb : f.number = 95 ∨ f.number = 96
      · simp only [hfb, if_true]
        exact Reads.error h.here.view
      obtain ⟨out', h1, h2⟩ := progress_push h.here.view h.count (by omega) f
      rw [← h.here.off] at h1
      simp only [hfb, if_false, h1, ok_bind]
      rw [hsize, u32_of_lt (by rw [← hsize]; omega)]
      have hnext : Window b sohs (i + 1) (fs ++ [f]) t z (p + f.size) out' := by
        refine ⟨h.here.snoc ?_ h2, ?_, ?_, ?_⟩
        · rw [hbytes, List.append_assoc]
        · have ho := h.offs
          rw [sohOffsets, positions_of_cut hc] at ho
          rw [← List.drop_drop, ho, ← hsize]
          rfl
        · rw [List.length_append]; have := h.count; omega
        · rw [← hsize]; omega
      refine ih hnext (by simpa using hn) ?_
      rwa [List.getLast?_cons_of_ne_nil hne] at hs

/-! ## The trailer -/

theorem checkTrailer_reads {sohs : List ℕ} {i n p bodyEnd : ℕ} {fs : List Field}
    {w z s : List Byte} (h : Window b sohs i fs w z p out) (hs : pieces SOH w = [s])
    (hn : sohs.length = n + 1) (hend : bodyEnd + 7 ≤ 2 ^ 32) :
    Reads (fun fs o => o.view = Reading.view ⟨.ok, fs⟩) (readTrailer bodyEnd fs s)
      (do let c ← sohAt sohs n; checkTrailer b bodyEnd p c out) := by
  rcases hc : cut SOH w with _ | ⟨s', t⟩
  · rw [pieces_open (cut_none.1 hc)] at hs
    cases hs
  obtain ⟨hw, -⟩ := cut_some.1 hc
  rw [pieces_of_cut hc, List.cons.injEq] at hs
  obtain ⟨rfl, hopen⟩ := hs
  -- the offset of the next SOH is the last one collected
  have hlast : n = i := by
    have hl := congrArg List.length h.offs
    rw [List.length_drop, length_positions, pieces_of_cut hc, hopen, List.length_singleton] at hl
    omega
  have hlt : p + s'.length < 2 ^ 32 := by
    have := h.fits
    rw [hw, List.length_append, List.length_cons] at this
    omega
  rw [hlast, h.sohAt_eq hc, ok_bind]
  unfold readTrailer checkTrailer
  rw [u32_of_lt (show bodyEnd < 2 ^ 32 by omega), u32_of_lt (show bodyEnd + 6 < 2 ^ 32 by omega),
    ← h.here.off]
  refine Sim.ite (fun _ => Reads.error h.here.view) fun hp => ?_
  have hp : p = bodyEnd := not_not.1 hp
  subst hp
  refine Sim.ite_iff (by omega) (fun _ => Reads.error h.here.view) fun h6 => ?_
  have h6 : s'.length = 6 := not_not.1 h6
  have hd : b.drop p = s' ++ (SOH :: t ++ z) := by
    rw [h.here.drop, hw, List.append_assoc]
  rw [matchesAt_eq _ hd (by rw [List.length_append, h6]; simp; omega),
    strip_append (by rw [h6]; decide), Option.isSome_map, ok_bind]
  rcases hst : strip [ch '1', ch '0', ch '='] s' with _ | d
  · exact Reads.error h.here.view
  · have hs' := strip_some.1 hst
    have hd3 : d.length = 3 := by
      rw [hs', List.length_append] at h6
      simp at h6
      omega
    have hdrop : b.drop (p + 3) = d ++ (SOH :: t ++ z) := by
      rw [← List.drop_drop, hd, hs']; rfl
    have hdig : DigitsAt b (p + 3) ↔ ∀ c ∈ d, IsDigit c := by
      rw [DigitsAt, hdrop, List.take_append_of_le_length hd3.ge, ← hd3, List.take_length]
    have hlen : p + 3 + 3 ≤ b.length := by
      have := congrArg List.length hdrop
      rw [List.length_drop, List.length_append, List.length_append, List.length_cons] at this
      omega
    rw [threeDigitsAt_eq hlen, ok_bind]
    simp only [hdig, Option.isSome_some, Bool.not_true, Bool.false_eq_true, if_false]
    refine Sim.ite_iff (by simp) (fun _ => Reads.error h.here.view) fun _ => ?_
    refine Sim.ite_iff (by rw [h.here.count]) (fun _ => Reads.error h.here.view) fun hroom => ?_
    obtain ⟨out', h1, h2⟩ := progress_finish h.here.view h.count (by omega) ⟨[ch '1', ch '0'], d⟩
    have he : (⟨p, u32 (p + 3), p + s'.length, 10⟩ : FieldEntry) =
        Field.entry (wire fs).length ⟨[ch '1', ch '0'], d⟩ := by
      rw [← h.here.off, Field.entry, u32_of_lt (show p < 2 ^ 32 by omega), h6]
      simp only [List.length_cons, List.length_nil, hd3, Nat.zero_add, Nat.add_assoc]
      rw [u32_of_lt (show p + (2 + (1 + 3)) < 2 ^ 32 by omega)]
      rfl
    have hsize : p + s'.length + 1 = (wire fs).length + Field.size ⟨[ch '1', ch '0'], d⟩ := by
      rw [← h.here.off, h6]; simp [Field.size, hd3]
    rw [he, h1, ok_bind, hsize]
    exact Sim.ok h2

/-! ## The scan -/

theorem window_eq {h : Head} {p : ℕ} (hat : At b h.fields h.rest p out) :
    (b.drop p).take (h.bodyEnd + 7 - p) = window h := by
  have hoff : p = h.bodyStart + h.f35.size := hat.off.trans h.wire_fields_length
  have hE : h.bodyEnd + 7 - p = h.bodyLen + 7 - h.f35.size := by
    rw [hoff, Head.bodyEnd]
    omega
  rw [hat.drop, hE, window]

/-- Both passes compute the reading of the message after the headers. -/
theorem scanPasses_reads {h : Head} {p : ℕ} (hat : At b h.fields h.rest p out)
    (hlen : h.bodyEnd + 7 ≤ b.length) (hfit : h.bodyEnd + 7 ≤ 2 ^ 32) :
    Reads (fun fs o => o.view = Reading.view ⟨.ok, fs⟩) (readRest h)
      (scanPasses b p h.bodyEnd out) := by
  have hwin := window_eq hat
  have hcount : (sohOffsets p (window h)).length = (pieces SOH (window h)).length :=
    length_positions SOH _ p
  rw [scanPasses, pass1_eq hlen, hwin, store, List.length_nil, Nat.zero_add, List.nil_append,
    List.length_map, hcount]
  unfold readRest
  by_cases hmany : (pieces SOH (window h)).length > kMaxFields
  · simp only [hmany, if_true]
    rw [if_neg (by omega)]
    exact Reads.error hat.view
  · simp only [hmany, if_false]
    rw [if_pos (by omega), ok_bind, List.length_map, hcount]
    rcases hlast : (pieces SOH (window h)).getLast? with _ | s
    · rw [List.getLast?_eq_none_iff.1 hlast, List.length_nil, if_pos rfl]
      exact Reads.error hat.view
    · obtain ⟨n, hn⟩ : ∃ n, (pieces SOH (window h)).length = n + 1 := by
        refine Nat.exists_eq_succ_of_ne_zero fun h0 => ?_
        rw [List.length_eq_zero_iff.1 h0] at hlast
        cases hlast
      have hw0 : window h ≠ [] := by
        intro h0
        rw [h0] at hn
        cases hn
      have hlen' : (window h).length = h.bodyEnd + 7 - p := by
        rw [← hwin, List.length_take, List.length_drop]; omega
      have hpos := List.length_pos_iff.2 hw0
      have hfits : p + (window h).length ≤ 2 ^ 32 := by omega
      have hnarrow : (sohOffsets p (window h)).map u32 = sohOffsets p (window h) :=
        map_u32_of_lt fun k hk => (positions_lt hk).trans_le hfits
      have hstart : Window b (sohOffsets p (window h)) 0 h.fields (window h)
          (h.rest.drop (h.bodyLen + 7 - h.f35.size)) p out := by
        refine ⟨?_, rfl, le_rfl, hfits⟩
        rw [window_append_drop]
        exact hat
      rw [hnarrow, hn, if_neg (by omega), Nat.add_sub_cancel, u32_of_lt (by omega)]
      refine Sim.bind (fieldLoop_reads n hstart hn hlast) ?_
      rintro fs ⟨q, o⟩ ⟨i, w, hw, hps⟩
      exact checkTrailer_reads hw hps (hcount.trans hn) hfit

/-- **The AVX2 scanner computes its reading**: whatever the index held before,
    the status is that of the reading and the index shows its fields, unless
    the declared end of the message lies beyond the 32-bit offsets. -/
theorem scan_reads (b : Buffer) (out : FieldIndex)
    (hfit : ∀ h, readHead b = .ok h → h.bodyEnd + 7 ≤ 2 ^ 32) : Ends (read b) (scan b out) := by
  have hbody : Reads (fun fs o => o.view = Reading.view ⟨.ok, fs⟩)
      (do let h ← readHead b; readRest h) (scanBody b out) := by
    refine Sim.bind (Sim.remember (scanHeaders_reads b out)) fun h ⟨p, e, o⟩ ⟨hr, hat, he, hlen⟩ => ?_
    simp only at hat he
    subst he
    exact scanPasses_reads hat hlen (hfit h hr)
  exact hbody.ends

end Avx2Scanner
end SwiftFIX
