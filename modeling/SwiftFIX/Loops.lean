/-
  The inner loops of the scanners.

  * `accumulators_exact`: the digit loops compute the number that the digits
    spell, or reject it, and never wrap;
  * `Avx2Scanner.pass1_delimiters`: pass 1 collects the delimiters of its window,
    or reports a full table.
-/
import SwiftFIX.ScalarReads
import SwiftFIX.Avx2Reads

namespace SwiftFIX

open Decimal Delimited EarlyExit

/-! ## The digit loops -/

/-- A loop that rejects with `none`, as a computation that leaves through `r`. -/
def orReject {ε α : Type} (r : ε) : Option α → Except ε α
  | none => .error r
  | some x => .ok x

/-- **A digit loop is exact** on the digits `ds` at offset `p`: it ends behind
    them with the number they spell, or rejects when that is out of range; and
    when it multiplies and adds at one of them, the accumulator is the number
    spelled so far and the result fits 32 bits. -/
structure Accumulates {ε : Type} (p : ℕ) (ds : List Byte) (rejected : ε)
    (loop : ℕ → ℕ → Except ε (ℕ × ℕ)) : Prop where
  exact : Decimal.value ds ≤ 4294967289 → loop p 0 = .ok (p + ds.length, Decimal.value ds)
  rejects : loop p 0 = .error rejected ↔ 4294967289 < Decimal.value ds
  inRange : ∀ u c w, ds = u ++ c :: w → Decimal.value u ≤ guardMax →
    loop p 0 = loop (p + u.length) (Decimal.value u) ∧
      Decimal.value u * 10 + (c.toNat - 48) ≤ UINT32_MAX

/-- As long as the number is in range, the loop goes on with it. -/
theorem digitLoop_reaches {stop : Byte} {u : List Byte} (hu : ∀ c ∈ u, IsDigit c) (hs : stop ∉ u)
    (w : List Byte) : ∀ (p : ℕ) {acc : ℕ}, extend acc u ≤ maxNumber →
      digitLoop stop p acc (u ++ w) = digitLoop stop (p + u.length) (extend acc u) w := by
  induction u with
  | nil => exact fun p acc _ => rfl
  | cons c u ih =>
    intro p acc hmax
    rw [List.forall_mem_cons] at hu
    rw [List.mem_cons, not_or] at hs
    rw [extend_cons] at hmax ⊢
    have hle := le_extend (acc * 10 + digit c) u
    rw [maxNumber_eq] at hmax
    have hguard : ¬ acc > (UINT32_MAX - 9) / 10 := by
      show ¬ guardMax < acc
      omega
    have hsum : u32 (acc * 10 + (c.toNat - 48)) = acc * 10 + digit c := by
      refine u32_of_lt (lt_of_le_of_lt (hle.trans hmax) ?_)
      decide
    have hdig : ¬ (!isDigit c) = true := by
      rw [isDigit_iff.2 hu.1]
      decide
    rw [List.cons_append, digitLoop, if_neg (Ne.symm hs.1), if_neg hdig, if_neg hguard, hsum,
      ih hu.2 hs.2 (p + 1) (by rw [maxNumber_eq]; exact hmax), List.length_cons, Nat.add_assoc,
      Nat.add_comm 1]

/-- A loop that is `digitLoop` on the digits and what follows them. -/
theorem accumulates_of_digitLoop {ε : Type} {stop : Byte} {p : ℕ} {ds t : List Byte} {r : ε}
    {loop : ℕ → ℕ → Except ε (ℕ × ℕ)} (hstop : ¬ IsDigit stop) (hds : ∀ c ∈ ds, IsDigit c)
    (ht : t = [] ∨ ∃ t', t = stop :: t')
    (hloop : ∀ u w, ds = u ++ w → ∀ acc,
      loop (p + u.length) acc = orReject r (digitLoop stop (p + u.length) acc (w ++ t))) :
    Accumulates p ds r loop := by
  have hne : stop ∉ ds := fun hm => hstop (hds stop hm)
  have hup : upTo stop (ds ++ t) = ds := by
    rcases ht with rfl | ⟨t', rfl⟩
    · rw [List.append_nil, upTo_open hne]
    · exact upTo_append hne t'
  have hwhole : loop p 0 = orReject r (if Decimal.value ds ≤ maxNumber then
      some (p + ds.length, Decimal.value ds) else none) := by
    have h := hloop [] ds rfl 0
    rw [List.length_nil, Nat.add_zero, digitLoop_eq, hup] at h
    rw [h]
    congr 1
    exact if_congr (and_iff_right hds) rfl rfl
  refine ⟨?_, ?_, ?_⟩
  · intro hle
    rw [hwhole, if_pos (show _ ≤ maxNumber from hle)]
    rfl
  · rw [hwhole]
    constructor
    · intro h
      by_contra hle
      rw [if_pos (show _ ≤ maxNumber from not_lt.1 hle)] at h
      cases h
    · intro hlt
      rw [if_neg (show ¬ _ ≤ maxNumber from not_le.2 hlt)]
      rfl
  · rintro u c w rfl hguard
    rw [List.forall_mem_append, List.forall_mem_cons] at hds
    have hlt := digit_lt hds.2.1
    have hmax : extend 0 u ≤ maxNumber := by
      rw [maxNumber_eq]
      exact hguard.trans (by omega)
    refine ⟨?_, ?_⟩
    · have hstart := hloop [] (u ++ c :: w) rfl 0
      rw [List.length_nil, Nat.add_zero, List.append_assoc,
        digitLoop_reaches hds.1 (fun hm => hne (List.mem_append_left _ hm)) _ p hmax] at hstart
      exact hstart.trans (hloop u (c :: w) rfl _).symm
    · have hsum : Decimal.value u * 10 + digit c ≤ maxNumber := by
        rw [maxNumber_eq]
        omega
      exact hsum.trans (by decide)

/-- **The accumulators are exact and never wrap**: the tag 9 loop of both
    scanners, the tag loop of `scan_one_field` and the tag loop of pass 2, on
    digits that end at the loop's bound or at its delimiter. -/
theorem accumulators_exact (b : Buffer) (out : FieldIndex) (p : ℕ) (ds t : List Byte)
    (hb : b.drop p = ds ++ t) (hds : ∀ c ∈ ds, IsDigit c) :
    ((t = [] ∨ ∃ t', t = SOH :: t') →
        Accumulates p ds (Outcome.ret .malformed out) fun q acc =>
          orReject (Outcome.ret .malformed out) (digitLoop SOH q acc (b.drop q))) ∧
      ((t = [] ∨ ∃ t', t = ch '=' :: t') →
        Accumulates p ds ScalarScanner.FieldScan.malformed fun q tag =>
          orReject ScalarScanner.FieldScan.malformed (ScalarScanner.tagLoop q tag (b.drop q))) ∧
      ∀ se ≤ b.length, (se = p + ds.length ∨ p + ds.length < se ∧ ∃ t', t = ch '=' :: t') →
        Accumulates p ds (Outcome.ret .malformed out) fun q tag =>
          Avx2Scanner.tagLoop b out (se - q) q tag := by
  have hdrop : ∀ u w, ds = u ++ w → b.drop (p + u.length) = w ++ t := by
    rintro u w rfl
    rw [← List.drop_drop, hb, List.append_assoc, List.drop_left]
  refine ⟨?_, ?_, ?_⟩
  · intro ht
    refine accumulates_of_digitLoop (by decide) hds ht fun u w hu acc => ?_
    rw [hdrop u w hu]
  · intro ht
    refine accumulates_of_digitLoop (by decide) hds ht fun u w hu acc => ?_
    rw [hdrop u w hu, ScalarScanner.tagLoop_eq]
  · intro se hse hends
    have hlen := congrArg List.length hb
    rw [List.length_drop, List.length_append] at hlen
    -- what the loop sees behind the digits
    have ht : t.take (se - (p + ds.length)) = [] ∨
        ∃ t', t.take (se - (p + ds.length)) = ch '=' :: t' := by
      rcases hends with rfl | ⟨hlt, t', rfl⟩
      · rw [Nat.sub_self]
        exact Or.inl rfl
      · obtain ⟨n, hn⟩ := Nat.exists_eq_add_of_lt hlt
        rw [show se - (p + ds.length) = n + 1 by omega, List.take_succ_cons]
        exact Or.inr ⟨_, rfl⟩
    refine accumulates_of_digitLoop (by decide) hds ht fun u w hu acc => ?_
    have hsplit : b.drop (p + u.length) =
        (w ++ t.take (se - (p + ds.length))) ++ t.drop (se - (p + ds.length)) := by
      rw [hdrop u w hu, List.append_assoc, List.take_append_drop]
    have hcount : (w ++ t.take (se - (p + ds.length))).length = se - (p + u.length) := by
      rw [hu, List.length_append] at hlen hends ⊢
      rw [List.length_append, List.length_take]
      omega
    rw [← hcount, Avx2Scanner.tagLoop_eq acc hsplit]
    cases digitLoop (ch '=') (p + u.length) acc (w ++ t.take (se - (p + ds.length))) <;> rfl

/-- The digits `0429` before a `=`, in pass 2. -/
theorem accumulators_exact_padded :
    Accumulates 0 (ascii "0429".toList) (Outcome.ret .malformed .fresh) fun q tag =>
      Avx2Scanner.tagLoop (ascii "0429=".toList) .fresh (5 - q) q tag := by
  have hexact := accumulators_exact (ascii "0429=".toList) .fresh 0 (ascii "0429".toList)
    (ascii "=".toList) rfl (by decide)
  exact hexact.2.2 5 (by decide) (Or.inr ⟨by decide, [], rfl⟩)

/-! ## Pass 1 -/

namespace Avx2Scanner

theorem mem_sohOffsets {b : Buffer} {p E k : ℕ} :
    k ∈ sohOffsets p ((b.drop p).take (E - p)) ↔ p ≤ k ∧ k < E ∧ b[k]? = some SOH := by
  rw [mem_positions]
  constructor
  · rintro ⟨i, c, hi, hc, rfl⟩
    obtain rfl : c = SOH := of_decide_eq_true hc
    rw [List.getElem?_take] at hi
    split at hi
    · rw [List.getElem?_drop] at hi
      exact ⟨Nat.le_add_right p i, by omega, hi⟩
    · cases hi
  · rintro ⟨hp, hE, hk⟩
    refine ⟨k - p, SOH, ?_, rfl, by omega⟩
    rw [List.getElem?_take, if_pos (by omega), List.getElem?_drop, Nat.add_sub_cancel' hp]
    exact hk

/-- **Pass 1 enumerates the delimiters** of `[p, E)`, in order and each once, or
    reports a full table when they are more than it holds. -/
theorem pass1_delimiters (b : Buffer) (hb : b.length < 2 ^ 32) (p E : ℕ) (hE : E ≤ b.length)
    (out : FieldIndex) :
    ∃ offs : List ℕ, offs.Pairwise (· < ·) ∧
      (∀ k, k ∈ offs ↔ p ≤ k ∧ k < E ∧ b[k]? = some SOH) ∧
      (offs.length ≤ kMaxFields → pass1 b out p E = .ok offs) ∧
      (kMaxFields < offs.length → pass1 b out p E = .error (.ret .tableFull out)) := by
  have hnarrow : (sohOffsets p ((b.drop p).take (E - p))).map u32 =
      sohOffsets p ((b.drop p).take (E - p)) :=
    map_u32_of_lt fun k hk => (mem_sohOffsets.1 hk).2.1.trans (hE.trans_lt hb)
  refine ⟨sohOffsets p ((b.drop p).take (E - p)), positions_pairwise _ _ p,
    fun k => mem_sohOffsets, ?_, ?_⟩
  · intro hle
    rw [pass1_eq hE, hnarrow, store, List.length_nil, Nat.zero_add, if_pos hle, List.nil_append]
  · intro hlt
    rw [pass1_eq hE, hnarrow, store, List.length_nil, Nat.zero_add, if_neg (not_le.2 hlt)]

/-- A window of more than 32 bytes with a delimiter at the edge of the first. -/
def edgeBytes : Buffer := List.replicate 31 (ch 'a') ++ [SOH, ch 'b', SOH]

theorem pass1_delimiters_edge :
    ∃ offs : List ℕ, offs.Pairwise (· < ·) ∧
      (∀ k, k ∈ offs ↔ 0 ≤ k ∧ k < 34 ∧ edgeBytes[k]? = some SOH) ∧
      (offs.length ≤ kMaxFields → pass1 edgeBytes .fresh 0 34 = .ok offs) ∧
      (kMaxFields < offs.length → pass1 edgeBytes .fresh 0 34 = .error (.ret .tableFull .fresh)) :=
  pass1_delimiters edgeBytes (by decide) 0 34 (by decide) .fresh

end Avx2Scanner

end SwiftFIX
