/-
  The proleptic Gregorian calendar, its days numbered from 1 January of the
  year 1.

  `fromOrdinal` finds the date of a day by divisions: cycles of 400, 100, 4
  years and one year, then a guess at the month that is off by one at most.
  `toOrdinal` counts the days before a date.  They are inverse
  (`toOrdinal_fromOrdinal`), and later days have later dates (`fromOrdinal_before`).
-/
import Mathlib.Data.Nat.Notation
import Mathlib.Tactic.Common

namespace Calendar

/-! ## Dates -/

/-- A date of the proleptic Gregorian calendar. -/
structure Date where
  year : ℕ
  month : ℕ
  day : ℕ
  deriving DecidableEq, Repr

/-- A leap year. -/
def isLeap (year : ℕ) : Bool := year % 4 = 0 ∧ (year % 100 ≠ 0 ∨ year % 400 = 0)

/-- The days of a month, in a leap year or in a common one. -/
def daysInMonth (leap : Bool) (month : ℕ) : ℕ :=
  ([0, 31, 28, 31, 30, 31, 30, 31, 31, 30, 31, 30, 31][month]?.getD 0) +
    if month = 2 ∧ leap then 1 else 0

/-- The days of the year before a month. -/
def daysBeforeMonth (leap : Bool) (month : ℕ) : ℕ :=
  ([0, 0, 31, 59, 90, 120, 151, 181, 212, 243, 273, 304, 334][month]?.getD 0) +
    if 2 < month ∧ leap then 1 else 0

/-- The days before a year. -/
def daysBeforeYear (year : ℕ) : ℕ :=
  (year - 1) * 365 + (year - 1) / 4 - (year - 1) / 100 + (year - 1) / 400

/-- The number of a date: January 1st of year 1 is day 1. -/
def toOrdinal (d : Date) : ℕ :=
  daysBeforeYear d.year + daysBeforeMonth (isLeap d.year) d.month + d.day

theorem toOrdinal_mk (y m d : ℕ) :
    toOrdinal ⟨y, m, d⟩ = daysBeforeYear y + daysBeforeMonth (isLeap y) m + d := rfl

/-- Month and day of the `n`-th day of a year, from 0. -/
def monthDay (leap : Bool) (n : ℕ) : ℕ × ℕ :=
  let month := (n + 50) / 32
  if n < daysBeforeMonth leap month then
    (month - 1, n - (daysBeforeMonth leap month - daysInMonth leap (month - 1)) + 1)
  else (month, n - daysBeforeMonth leap month + 1)

/-- The date of a number: cycles of 400, 100, 4 years and of one. -/
def fromOrdinal (n : ℕ) : Date :=
  let n := n - 1
  let n400 := n / 146097
  let n := n % 146097
  let n100 := n / 36524
  let n := n % 36524
  let n4 := n / 1461
  let n := n % 1461
  let n1 := n / 365
  let n := n % 365
  let year := n400 * 400 + 1 + n100 * 100 + n4 * 4 + n1
  -- the last day of a leap year that ends a cycle of 400 or of 4 years
  if n1 = 4 ∨ n100 = 4 then ⟨year - 1, 12, 31⟩
  else
    let leap : Bool := n1 = 3 ∧ (n4 ≠ 24 ∨ n100 = 3)
    ⟨year, (monthDay leap n).1, (monthDay leap n).2⟩

example : fromOrdinal 738945 = ⟨2024, 2, 29⟩ := by decide

/-- A date of the calendar. -/
structure Date.Valid (d : Date) : Prop where
  year : 1 ≤ d.year
  month : 1 ≤ d.month ∧ d.month ≤ 12
  day : 1 ≤ d.day ∧ d.day ≤ daysInMonth (isLeap d.year) d.month

/-- `d` is an earlier date than `e`. -/
def Before (d e : Date) : Prop :=
  d.year < e.year ∨
    d.year = e.year ∧ (d.month < e.month ∨ d.month = e.month ∧ d.day < e.day)

/-! ## Years -/

section
variable {q r s t : ℕ}

theorem isLeap_eq (hr : r ≤ 3) (hs : s ≤ 24) (ht : t ≤ 3) :
    isLeap (q * 400 + 1 + r * 100 + s * 4 + t) = decide (t = 3 ∧ (s ≠ 24 ∨ r = 3)) := by
  rw [isLeap, decide_eq_decide]
  omega

theorem daysBeforeYear_eq (hr : r ≤ 3) (hs : s ≤ 24) (ht : t ≤ 3) :
    daysBeforeYear (q * 400 + 1 + r * 100 + s * 4 + t) =
      q * 146097 + r * 36524 + s * 1461 + t * 365 := by
  rw [daysBeforeYear]
  omega

end

theorem daysBeforeYear_succ {y : ℕ} (h : 1 ≤ y) :
    daysBeforeYear (y + 1) = daysBeforeYear y + 365 + (isLeap y).toNat := by
  obtain ⟨z, rfl⟩ := Nat.exists_eq_add_of_le' h
  have hle := Nat.div_le_self z 100
  have hle' := Nat.div_le_self (z + 1) 100
  have hleap : (isLeap (z + 1)).toNat + (if 100 ∣ z + 1 then 1 else 0) =
      (if 4 ∣ z + 1 then 1 else 0) + if 400 ∣ z + 1 then 1 else 0 := by
    have h4 : 100 ∣ z + 1 → 4 ∣ z + 1 := Nat.dvd_trans (by decide)
    have h100 : 400 ∣ z + 1 → 100 ∣ z + 1 := Nat.dvd_trans (by decide)
    simp only [isLeap, ← Nat.dvd_iff_mod_eq_zero, ne_eq]
    by_cases a : 4 ∣ z + 1 <;> by_cases b : 100 ∣ z + 1 <;> by_cases c : 400 ∣ z + 1 <;>
      simp_all
  rw [Nat.succ_div] at hle'
  rw [daysBeforeYear, daysBeforeYear, Nat.add_sub_cancel, Nat.add_sub_cancel, Nat.succ_div,
    Nat.succ_div, Nat.succ_div]
  omega

theorem daysBeforeYear_mono {y z : ℕ} (hy : 1 ≤ y) (h : y ≤ z) :
    daysBeforeYear y ≤ daysBeforeYear z := by
  induction h with
  | refl => exact Nat.le_refl _
  | @step z hz ih =>
    exact Nat.le_trans ih (by rw [daysBeforeYear_succ (Nat.le_trans hy hz)]; omega)

/-! ## Months -/

set_option maxRecDepth 8000 in
theorem monthDay_spec : ∀ (leap : Bool), ∀ n < 365 + leap.toNat,
    daysBeforeMonth leap (monthDay leap n).1 + (monthDay leap n).2 = n + 1 ∧
      (1 ≤ (monthDay leap n).1 ∧ (monthDay leap n).1 ≤ 12) ∧
      1 ≤ (monthDay leap n).2 ∧ (monthDay leap n).2 ≤ daysInMonth leap (monthDay leap n).1 := by
  decide +kernel

theorem daysBeforeMonth_year : ∀ (leap : Bool), ∀ m ≤ 12,
    daysBeforeMonth leap m + daysInMonth leap m ≤ 365 + leap.toNat := by decide

theorem daysBeforeMonth_month : ∀ (leap : Bool), ∀ m' ≤ 12, ∀ m < m',
    daysBeforeMonth leap m + daysInMonth leap m ≤ daysBeforeMonth leap m' := by decide

/-! ## Days and dates -/

/-- **The date of a day** is a date, and the days before it are counted right. -/
theorem fromOrdinal_spec {n : ℕ} (hn : 1 ≤ n) :
    (fromOrdinal n).Valid ∧ toOrdinal (fromOrdinal n) = n := by
  obtain ⟨m, rfl⟩ := Nat.exists_eq_add_of_le' hn
  unfold fromOrdinal
  simp only [Nat.add_sub_cancel]
  generalize hq : m / 146097 = q
  generalize hr : m % 146097 / 36524 = r
  generalize hs : m % 146097 % 36524 / 1461 = s
  generalize ht : m % 146097 % 36524 % 1461 / 365 = t
  generalize hd : m % 146097 % 36524 % 1461 % 365 = d
  have hm : m = q * 146097 + r * 36524 + s * 1461 + t * 365 + d := by omega
  have hs24 : s ≤ 24 := by omega
  split
  · rename_i hlast
    -- the year before ends its cycle: it is `q * 400 + 400`, or `s * 4 + 4` in its century
    have hcycle : ∃ r' s', r' ≤ 3 ∧ s' ≤ 24 ∧ (s' ≠ 24 ∨ r' = 3) ∧
        q * 400 + 1 + r * 100 + s * 4 + t - 1 = q * 400 + 1 + r' * 100 + s' * 4 + 3 ∧
        m = q * 146097 + r' * 36524 + s' * 1461 + 1460 := by
      by_cases hr4 : r = 4
      · exact ⟨3, 24, by omega⟩
      · exact ⟨r, s, by omega⟩
    obtain ⟨r', s', hr', hs', hlong, hyear, hm'⟩ := hcycle
    have hleap : isLeap (q * 400 + 1 + r' * 100 + s' * 4 + 3) = true := by
      rw [isLeap_eq hr' hs' (Nat.le_refl 3), decide_eq_true_eq]
      exact ⟨rfl, hlong⟩
    rw [hyear]
    refine ⟨⟨?_, ⟨(by decide : 1 ≤ 12), (by decide : 12 ≤ 12)⟩, ?_⟩, ?_⟩
    · show 1 ≤ q * 400 + 1 + r' * 100 + s' * 4 + 3
      omega
    · rw [hleap]
      exact ⟨(by decide : 1 ≤ 31), (by decide : 31 ≤ 31)⟩
    · rw [toOrdinal_mk, hleap, daysBeforeYear_eq hr' hs' (Nat.le_refl 3)]
      have hdays : daysBeforeMonth true 12 = 335 := rfl
      omega
  · rename_i hlast
    have hr3 : r ≤ 3 := by omega
    have ht3 : t ≤ 3 := by omega
    have hleap := isLeap_eq (q := q) hr3 hs24 ht3
    obtain ⟨hday, hmonth, hvalid⟩ := monthDay_spec (decide (t = 3 ∧ (s ≠ 24 ∨ r = 3))) d (by omega)
    refine ⟨⟨?_, hmonth, ?_⟩, ?_⟩
    · show 1 ≤ q * 400 + 1 + r * 100 + s * 4 + t
      omega
    · rw [hleap]
      exact hvalid
    · rw [toOrdinal_mk, hleap, daysBeforeYear_eq hr3 hs24 ht3]
      omega

theorem toOrdinal_fromOrdinal {n : ℕ} (hn : 1 ≤ n) : toOrdinal (fromOrdinal n) = n :=
  (fromOrdinal_spec hn).2

theorem toOrdinal_le {d e : Date} (hd : d.Valid) (he : e.Valid) (h : ¬ Before d e) :
    toOrdinal e ≤ toOrdinal d := by
  have hyear := daysBeforeMonth_year (isLeap e.year) e.month he.month.2
  have hday := he.day.2
  rw [toOrdinal, toOrdinal]
  rw [Before, not_or, Nat.not_lt] at h
  obtain ⟨hle, h⟩ := h
  rcases Nat.lt_or_eq_of_le hle with hlt | heq
  · have hsucc := daysBeforeYear_succ he.year
    have hmono : daysBeforeYear (e.year + 1) ≤ daysBeforeYear d.year :=
      daysBeforeYear_mono (Nat.succ_pos e.year) hlt
    omega
  · have hmd : ¬ (d.month < e.month ∨ d.month = e.month ∧ d.day < e.day) := fun hb => h ⟨heq.symm, hb⟩
    rw [heq] at hday ⊢
    by_cases hm : e.month < d.month
    · have hmonth := daysBeforeMonth_month (isLeap d.year) d.month hd.month.2 e.month hm
      omega
    · obtain hm : e.month = d.month := by omega
      rw [hm]
      omega

/-- **Later days have later dates.** -/
theorem fromOrdinal_before {m n : ℕ} (hm : 1 ≤ m) (h : m < n) :
    Before (fromOrdinal m) (fromOrdinal n) := by
  have hn : 1 ≤ n := by omega
  by_contra hnot
  have hle := toOrdinal_le (fromOrdinal_spec hm).1 (fromOrdinal_spec hn).1 hnot
  rw [toOrdinal_fromOrdinal hm, toOrdinal_fromOrdinal hn] at hle
  omega

end Calendar
