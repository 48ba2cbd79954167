/-
  Enumerating the set bits of a word from the lowest up: take the number of
  trailing zeros, then clear that bit with `m &&& (m - 1)`.

  `setBits m` lists the positions of the set bits in increasing order;
  `setBits_of_ne_zero` says that one round of the loop takes its head.
-/
import Mathlib.Tactic.Common
import Mathlib.Data.List.Basic
import Mathlib.Data.Nat.Bitwise

namespace SetBits

variable {w : ℕ}

/-- The positions of the set bits, lowest first. -/
def setBits (m : BitVec w) : List ℕ := (List.range w).filter fun i => m.getLsbD i

theorem setBits_zero : setBits (0 : BitVec w) = [] := by simp [setBits]

theorem mod_two_pow_pos {m : BitVec w} (h : m ≠ 0#w) (i : ℕ) :
    0 < m.toNat % 2 ^ i ↔ m.ctz.toNat < i := by
  constructor
  · intro hpos
    by_contra hi
    have hz : m.toNat % 2 ^ i = 0 := by
      refine Nat.eq_of_testBit_eq fun j => ?_
      rw [Nat.testBit_mod_two_pow, Nat.zero_testBit]
      by_cases hj : j < i
      · have := BitVec.getLsbD_false_of_lt_ctz (show j < m.ctz.toNat by omega)
        simp [BitVec.testBit_toNat, this]
      · simp [hj]
    omega
  · intro hi
    have ht : (m.toNat % 2 ^ i).testBit m.ctz.toNat = true := by
      rw [Nat.testBit_mod_two_pow, BitVec.testBit_toNat, BitVec.getLsbD_true_ctz_of_ne_zero h]
      simp [hi]
    by_contra hz
    rw [show m.toNat % 2 ^ i = 0 by omega, Nat.zero_testBit] at ht
    cases ht

/-- The bits of `n - 1`: those of `n` above its lowest set bit, flipped from
    there down. -/
theorem testBit_pred {n : ℕ} (h : 0 < n) (i : ℕ) :
    (n - 1).testBit i = if 0 < n % 2 ^ i then n.testBit i else !n.testBit i := by
  have hpow : 0 < 2 ^ i := Nat.two_pow_pos i
  have hn : 2 ^ i * (n / 2 ^ i) + n % 2 ^ i = n := Nat.div_add_mod n (2 ^ i)
  have hr : n % 2 ^ i < 2 ^ i := Nat.mod_lt _ hpow
  rw [Nat.testBit_eq_decide_div_mod_eq, Nat.testBit_eq_decide_div_mod_eq]
  by_cases hpos : 0 < n % 2 ^ i
  · have hq : (n - 1) / 2 ^ i = n / 2 ^ i := by
      refine Nat.div_eq_of_lt_le ?_ ?_
      · rw [Nat.mul_comm]; omega
      · rw [Nat.add_mul, Nat.mul_comm (n / 2 ^ i)]; omega
    rw [if_pos hpos, hq]
  · -- `n` is a multiple of `2 ^ i`, and the quotient drops by one
    have hq : (n - 1) / 2 ^ i = n / 2 ^ i - 1 := by
      have hq1 : 0 < n / 2 ^ i := Nat.pos_of_ne_zero fun h0 => by rw [h0] at hn; omega
      obtain ⟨q, hq⟩ : ∃ q, n / 2 ^ i = q + 1 := ⟨n / 2 ^ i - 1, by omega⟩
      rw [hq, Nat.mul_add] at hn
      refine Nat.div_eq_of_lt_le ?_ ?_
      · rw [hq, Nat.add_sub_cancel, Nat.mul_comm]; omega
      · rw [hq, Nat.add_sub_cancel, Nat.mul_comm, Nat.mul_add]; omega
    have hq1 : 0 < n / 2 ^ i := Nat.pos_of_ne_zero fun h0 => by rw [h0] at hn; omega
    rw [if_neg hpos, hq, ← decide_not]
    exact decide_eq_decide.2 (by omega)

/-- **Clearing the lowest set bit** clears that bit and no other. -/
theorem getLsbD_clear {m : BitVec w} (h : m ≠ 0#w) (i : ℕ) :
    (m &&& (m - 1#w)).getLsbD i = (m.getLsbD i && decide (i ≠ m.ctz.toNat)) := by
  have hpos : 0 < m.toNat := Nat.pos_of_ne_zero fun h0 => h (BitVec.eq_of_toNat_eq h0)
  have hw : 0 < w := Nat.pos_of_ne_zero fun h0 => by subst h0; exact h (Subsingleton.elim _ _)
  have hsub : (m - 1#w).toNat = m.toNat - 1 := by
    have h1 : (1#w).toNat = 1 := by simp; omega
    rw [BitVec.toNat_sub_of_le (by rw [BitVec.le_def]; omega), h1]
  rw [BitVec.getLsbD_and, ← BitVec.testBit_toNat (m - 1#w), hsub, testBit_pred hpos,
    BitVec.testBit_toNat]
  rcases Nat.lt_trichotomy i m.ctz.toNat with hi | hi | hi
  · simp [BitVec.getLsbD_false_of_lt_ctz hi]
  · have hz : ¬ 0 < m.toNat % 2 ^ i := by rw [mod_two_pow_pos h]; omega
    rw [if_neg hz, hi, BitVec.getLsbD_true_ctz_of_ne_zero h]
    simp
  · have hz : 0 < m.toNat % 2 ^ i := (mod_two_pow_pos h i).2 hi
    have hne : i ≠ m.ctz.toNat := by omega
    rw [if_pos hz]
    simp [hne]

/-- **One round of the loop**: the lowest set bit first, then the others. -/
theorem setBits_of_ne_zero {m : BitVec w} (h : m ≠ 0#w) :
    setBits m = m.ctz.toNat :: setBits (m &&& (m - 1#w)) := by
  have hc := BitVec.getLsbD_true_ctz_of_ne_zero h
  have hcw : m.ctz.toNat < w := BitVec.lt_of_getLsbD hc
  have hsplit : List.range w =
      List.range m.ctz.toNat ++ m.ctz.toNat ::
        (List.range (w - (m.ctz.toNat + 1))).map (m.ctz.toNat + 1 + ·) := by
    have h1 : w = (m.ctz.toNat + 1) + (w - (m.ctz.toNat + 1)) := by omega
    conv_lhs => rw [h1, List.range_add, List.range_succ]
    simp
  have hlow : (List.range m.ctz.toNat).filter (fun i => m.getLsbD i) = [] := by
    refine List.filter_eq_nil_iff.2 fun i hi => ?_
    simp [BitVec.getLsbD_false_of_lt_ctz (List.mem_range.1 hi)]
  have hlow' : (List.range m.ctz.toNat).filter
      (fun i => (m &&& (m - 1#w)).getLsbD i) = [] := by
    refine List.filter_eq_nil_iff.2 fun i hi => ?_
    simp [getLsbD_clear h, BitVec.getLsbD_false_of_lt_ctz (List.mem_range.1 hi)]
  have hhigh : ∀ i ∈ (List.range (w - (m.ctz.toNat + 1))).map (m.ctz.toNat + 1 + ·),
      m.getLsbD i = (m &&& (m - 1#w)).getLsbD i := by
    intro i hi
    obtain ⟨j, -, rfl⟩ := List.mem_map.1 hi
    have hne : m.ctz.toNat + 1 + j ≠ m.ctz.toNat := by omega
    rw [getLsbD_clear h]; simp [hne]
  unfold setBits
  rw [hsplit, List.filter_append, List.filter_append, hlow, hlow', List.nil_append,
    List.nil_append, List.filter_cons_of_pos (by exact hc),
    List.filter_cons_of_neg (by simp [getLsbD_clear h]), List.filter_congr hhigh]

end SetBits
