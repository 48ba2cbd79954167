/-
  Positional numerals read most significant digit first, and ASCII decimal
  numerals over bytes.

  `valueFrom B acc ds` continues the value `acc` with the digits `ds`;
  `guarded B G` is the same accumulation with the overflow guard "reject
  before a further digit once the accumulator exceeds `G`".  `guarded_eq`
  gives its exact range: everything up to `G * B + (B - 1)` and nothing above.
-/
import Mathlib.Tactic.Common
import Mathlib.Data.List.Basic
import Mathlib.Algebra.Order.Ring.Nat

namespace Decimal

/-! ## Numerals in base `B` -/

/-- The value of the digits `ds` read after a prefix of value `acc`. -/
def valueFrom (B acc : ℕ) (ds : List ℕ) : ℕ := ds.foldl (fun a d => a * B + d) acc

theorem valueFrom_cons (B acc d : ℕ) (ds : List ℕ) :
    valueFrom B acc (d :: ds) = valueFrom B (acc * B + d) ds := rfl

theorem valueFrom_append (B acc : ℕ) (ds es : List ℕ) :
    valueFrom B acc (ds ++ es) = valueFrom B (valueFrom B acc ds) es := List.foldl_append ..

theorem le_valueFrom {B : ℕ} (hB : 1 ≤ B) (ds : List ℕ) : ∀ acc, acc ≤ valueFrom B acc ds := by
  induction ds with
  | nil => exact fun acc => le_rfl
  | cons d ds ih =>
    intro acc
    have h1 : acc ≤ acc * B := Nat.le_mul_of_pos_right acc hB
    exact (h1.trans (Nat.le_add_right _ d)).trans (ih _)

/-- Accumulate digits, rejecting a further digit once the accumulator exceeds
    the guard `G`. -/
def guarded (B G : ℕ) : ℕ → List ℕ → Option ℕ
  | acc, [] => some acc
  | acc, d :: ds => if G < acc then none else guarded B G (acc * B + d) ds

/-- **The guard accepts exactly the values up to `G * B + (B - 1)`**, and
    then the accumulator is the value. -/
theorem guarded_eq {B G : ℕ} {ds : List ℕ} (hd : ∀ d ∈ ds, d < B) :
    ∀ {acc : ℕ}, acc ≤ G * B + (B - 1) →
      guarded B G acc ds =
        if valueFrom B acc ds ≤ G * B + (B - 1) then some (valueFrom B acc ds) else none := by
  induction ds with
  | nil => intro acc h; simp [guarded, valueFrom, h]
  | cons d ds ih =>
    intro acc h
    have hdB : d < B := hd d (by simp)
    rw [guarded, valueFrom_cons]
    by_cases hG : G < acc
    · -- the value only grows from here, so it passes the bound
      have h1 : (G + 1) * B ≤ acc * B := Nat.mul_le_mul_right B hG
      have h2 := le_valueFrom (by omega : 1 ≤ B) ds (acc * B + d)
      rw [Nat.add_mul] at h1
      rw [if_pos hG, if_neg (by omega)]
    · have h1 : acc * B ≤ G * B := Nat.mul_le_mul_right B (by omega)
      rw [if_neg hG, ih (fun e he => hd e (by simp [he])) (by omega)]

/-! ## ASCII decimal numerals -/

/-- The byte is an ASCII digit. -/
def IsDigit (c : UInt8) : Prop := 48 ≤ c.toNat ∧ c.toNat ≤ 57

instance : DecidablePred IsDigit := fun _ => inferInstanceAs (Decidable (_ ∧ _))

/-- The value of an ASCII digit. -/
def digit (c : UInt8) : ℕ := c.toNat - 48

theorem digit_lt {c : UInt8} (h : IsDigit c) : digit c < 10 := by
  have := h.2; simp only [digit]; omega

/-- The number spelled by a string of ASCII digits. -/
def value (ds : List UInt8) : ℕ := valueFrom 10 0 (ds.map digit)

/-- The number spelled by `ds` after a prefix of value `acc`. -/
def extend (acc : ℕ) (ds : List UInt8) : ℕ := valueFrom 10 acc (ds.map digit)

theorem extend_nil (acc : ℕ) : extend acc [] = acc := rfl

theorem extend_cons (acc : ℕ) (c : UInt8) (ds : List UInt8) :
    extend acc (c :: ds) = extend (acc * 10 + digit c) ds := by
  simp only [extend, List.map_cons, valueFrom_cons]

theorem value_append (ds es : List UInt8) : value (ds ++ es) = extend (value ds) es := by
  simp [value, extend, valueFrom_append]

theorem le_extend (acc : ℕ) (ds : List UInt8) : acc ≤ extend acc ds :=
  le_valueFrom (by omega) _ acc

/-! ## Numerals without leading zeros -/

theorem valueFrom_lt {B : ℕ} {ds : List ℕ} (hd : ∀ d ∈ ds, d < B) :
    ∀ acc, valueFrom B acc ds < (acc + 1) * B ^ ds.length := by
  induction ds with
  | nil =>
    intro acc
    simp [valueFrom]
  | cons d ds ih =>
    intro acc
    rw [List.forall_mem_cons] at hd
    have hstep : (acc * B + d + 1) ≤ (acc + 1) * B := by
      rw [Nat.add_mul]
      omega
    calc valueFrom B acc (d :: ds) = valueFrom B (acc * B + d) ds := valueFrom_cons ..
      _ < (acc * B + d + 1) * B ^ ds.length := ih hd.2 _
      _ ≤ (acc + 1) * B * B ^ ds.length := Nat.mul_le_mul_right _ hstep
      _ = (acc + 1) * B ^ (d :: ds).length := by rw [List.length_cons, pow_succ', mul_assoc]

/-- Equally many digits of the same value are the same digits. -/
theorem valueFrom_injective {B : ℕ} {ds : List ℕ} (hd : ∀ d ∈ ds, d < B) :
    ∀ {es : List ℕ} {a b : ℕ}, (∀ e ∈ es, e < B) → ds.length = es.length →
      valueFrom B a ds = valueFrom B b es → a = b ∧ ds = es := by
  induction ds with
  | nil =>
    intro es a b _ hl hv
    obtain rfl := List.length_eq_zero_iff.1 hl.symm
    exact ⟨hv, rfl⟩
  | cons d ds ih =>
    intro es a b he hl hv
    obtain ⟨e, es, rfl⟩ := List.exists_cons_of_length_eq_add_one hl.symm
    rw [List.forall_mem_cons] at hd he
    obtain ⟨hacc, rfl⟩ := ih hd.2 he.2 (Nat.succ.inj hl) hv
    -- the last digit is the remainder of the accumulator
    have hdiv := congrArg (· / B) hacc
    have hmod := congrArg (· % B) hacc
    simp only [Nat.mul_comm _ B, Nat.mul_add_mod, Nat.mod_eq_of_lt hd.1, Nat.mod_eq_of_lt he.1,
      Nat.mul_add_div (show B > 0 by omega), Nat.div_eq_of_lt hd.1, Nat.div_eq_of_lt he.1,
      Nat.add_zero] at hdiv hmod
    exact ⟨hdiv, by rw [hmod]⟩

/-- A decimal numeral that does not begin with a zero. -/
structure Plain (ds : List UInt8) : Prop where
  digits : ∀ c ∈ ds, IsDigit c
  first : ∃ c s, ds = c :: s ∧ digit c ≠ 0

theorem digit_injective {c d : UInt8} (hc : IsDigit c) (hd : IsDigit d) (h : digit c = digit d) :
    c = d := by
  have h1 := hc.1
  have h2 := hd.1
  rw [digit, digit] at h
  exact UInt8.toNat_inj.1 (by omega)

theorem digits_lt {ds : List UInt8} (h : ∀ c ∈ ds, IsDigit c) : ∀ d ∈ ds.map digit, d < 10 :=
  List.forall_mem_map.2 fun c hc => digit_lt (h c hc)

/-- Numerals of the same length and value are equal. -/
theorem value_injective {ds es : List UInt8} (hd : ∀ c ∈ ds, IsDigit c) (he : ∀ c ∈ es, IsDigit c)
    (hl : ds.length = es.length) (hv : value ds = value es) : ds = es := by
  have hmap := (valueFrom_injective (digits_lt hd) (digits_lt he) (by simpa using hl) hv).2
  refine List.ext_getElem hl fun i h1 h2 => ?_
  refine digit_injective (hd _ (List.getElem_mem h1)) (he _ (List.getElem_mem h2)) ?_
  have hi := congrArg (·[i]?) hmap
  simpa [h1, h2] using hi

namespace Plain
variable {ds es : List UInt8}

/-- The value of a plain numeral tells its length. -/
theorem bounds (h : Plain ds) : 10 ^ (ds.length - 1) ≤ value ds ∧ value ds < 10 ^ ds.length := by
  constructor
  · obtain ⟨c, s, rfl, hc⟩ := h.first
    have hlow : ∀ (s : List UInt8) (acc : ℕ), acc * 10 ^ s.length ≤ extend acc s := by
      intro s
      induction s with
      | nil => exact fun acc => by simp [extend_nil]
      | cons d s ih =>
        intro acc
        rw [extend_cons, List.length_cons, pow_succ', ← mul_assoc]
        exact (Nat.mul_le_mul_right _ (Nat.le_add_right _ _)).trans (ih _)
    have hv : value (c :: s) = extend (0 * 10 + digit c) s := extend_cons 0 c s
    have hs := hlow s (0 * 10 + digit c)
    rw [hv, List.length_cons, Nat.add_sub_cancel]
    exact (Nat.le_mul_of_pos_left _ (by omega)).trans hs
  · have hlt := valueFrom_lt (digits_lt h.digits) 0
    rwa [List.length_map, Nat.zero_add, Nat.one_mul] at hlt

theorem ne_nil (h : Plain ds) : ds ≠ [] := by
  obtain ⟨c, s, rfl, -⟩ := h.first
  exact List.cons_ne_nil _ _

/-- **A number has one plain numeral.** -/
theorem eq_of_value (hd : Plain ds) (he : Plain es) (hv : value ds = value es) : ds = es := by
  refine value_injective hd.digits he.digits ?_ hv
  have h1 := hd.bounds
  have h2 := he.bounds
  have hd0 := List.length_pos_of_ne_nil hd.ne_nil
  have he0 := List.length_pos_of_ne_nil he.ne_nil
  have hlt := (Nat.pow_lt_pow_iff_right (by decide : 1 < 10)).1 (h1.1.trans_lt (hv ▸ h2.2))
  have hgt := (Nat.pow_lt_pow_iff_right (by decide : 1 < 10)).1 (h2.1.trans_lt (hv ▸ h1.2))
  omega

end Plain

end Decimal
