/-
  What the splitting loop of `Lib/Framing` does on an arbitrary string.

  * `Decomposed`: the string is a concatenation of frames and a rest the framer
    stops on; an `Exact` framer decomposes every string (`Exact.decomposed`), a
    final one in one way only (`Final.decomposed_unique`), and the loop finds it
    (`Decomposed.split_eq`);
  * `Final.split_append`: on a longer string the loop does the same up to where
    it waited;
  * `split_hangs`: the loop never ends iff it comes to a frame of no letters.
-/
import Mathlib.Logic.Relation
import SwiftFIX.Lib.Framing

namespace Framing

variable {α ρ σ : Type*} {scan : List α → Answer ρ σ} {wait : σ}

/-! ## Decomposing a string -/

/-- Below the length `L` a frame has letters, lies within the string and is a
    frame by itself. -/
structure Exact (scan : List α → Answer ρ σ) (L : ℕ) : Prop where
  pos : ∀ {s n r}, s.length < L → scan s = .frame n r → 0 < n
  le : ∀ {s n r}, s.length < L → scan s = .frame n r → n ≤ s.length
  self : ∀ {s n r}, s.length < L → scan s = .frame n r → scan (s.take n) = .frame n r

/-- The string is the frames `fs`, then `rest`, which is empty or stops the
    framer. -/
structure Decomposed (scan : List α → Answer ρ σ) (s : List α) (fs : List (List α × ρ))
    (rest : List α) : Prop where
  bytes : s = (fs.map (·.1)).flatten ++ rest
  frames : ∀ f ∈ fs, IsFrame scan f.1 f.2
  ends : rest = [] ∨ ∃ x, scan rest = .stop x

/-- What stops the loop at `rest`, if anything does. -/
def stopAt (scan : List α → Answer ρ σ) (rest : List α) : Option σ :=
  match rest with
  | [] => none
  | _ => match scan rest with
    | .stop x => some x
    | .frame _ _ => none

theorem stopAt_nil : stopAt scan [] = none := rfl

theorem stopAt_stop {rest : List α} {x : σ} (hne : rest ≠ []) (h : scan rest = .stop x) :
    stopAt scan rest = some x := by
  cases rest with
  | nil => exact absurd rfl hne
  | cons c rest => simp only [stopAt, h]

theorem IsFrame.take {s : List α} {n : ℕ} {r : ρ} (hpos : 0 < n) (hle : n ≤ s.length)
    (h : scan (s.take n) = .frame n r) : IsFrame scan (s.take n) r := by
  have hlen : (s.take n).length = n := List.length_take_of_le hle
  refine ⟨by rw [hlen, h], ?_⟩
  intro hnil
  rw [hnil, List.length_nil] at hlen
  omega

/-- **Every string decomposes.** -/
theorem Exact.decomposed {L : ℕ} (h : Exact scan L) (n : ℕ) :
    ∀ {s : List α}, s.length ≤ n → s.length < L → ∃ fs rest, Decomposed scan s fs rest := by
  induction n with
  | zero =>
    intro s hs _
    obtain rfl := List.length_eq_zero_iff.1 (Nat.le_zero.1 hs)
    exact ⟨[], [], rfl, by simp, Or.inl rfl⟩
  | succ n ih =>
    intro s hs hL
    rcases ha : scan s with ⟨m, r⟩ | x
    · have hpos := h.pos hL ha
      have hle := h.le hL ha
      have hdrop : (s.drop m).length = s.length - m := List.length_drop
      obtain ⟨fs, rest, hd⟩ := ih (s := s.drop m) (by omega) (by omega)
      refine ⟨(s.take m, r) :: fs, rest, ?_, ?_, hd.ends⟩
      · rw [List.map_cons, List.flatten_cons, List.append_assoc, ← hd.bytes, List.take_append_drop]
      · exact List.forall_mem_cons.2 ⟨.take hpos hle (h.self hL ha), hd.frames⟩
    · exact ⟨[], s, rfl, by simp, Or.inr ⟨x, ha⟩⟩

theorem Final.frame_not_ends (h : Final scan wait) {f : List α} {r : ρ} (hf : IsFrame scan f r)
    (e : List α) : ¬ (f ++ e = [] ∨ ∃ x, scan (f ++ e) = .stop x) := by
  rintro (hnil | ⟨x, hx⟩)
  · exact hf.2 (List.append_eq_nil_iff.1 hnil).1
  · rw [h.frame_append hf] at hx
    cases hx

/-- **A string decomposes in one way only.** -/
theorem Final.decomposed_unique (h : Final scan wait) {rest rest' : List α}
    (fs : List (List α × ρ)) :
    ∀ {s : List α} {fs' : List (List α × ρ)}, Decomposed scan s fs rest →
      Decomposed scan s fs' rest' → fs = fs' ∧ rest = rest' := by
  induction fs with
  | nil =>
    intro s fs' hd hd'
    have hs : s = rest := hd.bytes
    cases fs' with
    | nil => exact ⟨rfl, hs.symm.trans hd'.bytes⟩
    | cons f fs' =>
      have hb := hd'.bytes
      rw [List.map_cons, List.flatten_cons, List.append_assoc, hs] at hb
      exact absurd (hb ▸ hd.ends) (h.frame_not_ends (hd'.frames f List.mem_cons_self) _)
  | cons f fs ih =>
    intro s fs' hd hd'
    have hf := hd.frames f List.mem_cons_self
    have hb := hd.bytes
    rw [List.map_cons, List.flatten_cons, List.append_assoc] at hb
    cases fs' with
    | nil =>
      have hs : s = rest' := hd'.bytes
      exact absurd (hb ▸ hs ▸ hd'.ends) (h.frame_not_ends hf _)
    | cons f' fs' =>
      have hf' := hd'.frames f' List.mem_cons_self
      have hb' := hd'.bytes
      rw [List.map_cons, List.flatten_cons, List.append_assoc] at hb'
      -- both first frames are what the framer answers on the string
      have ha := h.frame_append hf ((fs.map (·.1)).flatten ++ rest)
      rw [← hb, hb', h.frame_append hf', Answer.frame.injEq] at ha
      obtain ⟨hlen, hr⟩ := ha
      obtain ⟨hff, htail⟩ := List.append_inj (hb.symm.trans hb') hlen.symm
      obtain ⟨rfl, rfl⟩ := ih ⟨rfl, fun g hg => hd.frames g (List.mem_cons_of_mem f hg), hd.ends⟩
        ⟨htail, fun g hg => hd'.frames g (List.mem_cons_of_mem f' hg), hd'.ends⟩
      exact ⟨by rw [Prod.ext hff hr.symm], rfl⟩

/-- **The loop finds the decomposition.** -/
theorem Final.split_eq (h : Final scan wait) {rest : List α} (fs : List (List α × ρ)) :
    ∀ {s : List α} {pos fuel : ℕ}, Decomposed scan s fs rest → fs.length < fuel →
      split scan fuel pos s =
        some ⟨placed pos fs, pos + ((fs.map (·.1)).flatten).length, stopAt scan rest⟩ := by
  induction fs with
  | nil =>
    intro s pos fuel hd hfuel
    obtain ⟨fuel, rfl⟩ := Nat.exists_eq_succ_of_ne_zero (by omega : fuel ≠ 0)
    obtain rfl : s = rest := hd.bytes
    rcases s with _ | ⟨c, s⟩
    · rfl
    · obtain ⟨x, hx⟩ := hd.ends.resolve_left (List.cons_ne_nil c s)
      simp [split, hx, placed, stopAt]
  | cons f fs ih =>
    intro s pos fuel hd hfuel
    rw [List.length_cons] at hfuel
    obtain ⟨fuel, rfl⟩ := Nat.exists_eq_succ_of_ne_zero (by omega : fuel ≠ 0)
    obtain ⟨f, r⟩ := f
    have hf := hd.frames _ List.mem_cons_self
    have hb := hd.bytes
    rw [List.map_cons, List.flatten_cons, List.append_assoc] at hb
    have hne : s.isEmpty = false := by
      rw [hb, List.isEmpty_eq_false_iff]
      exact List.append_ne_nil_of_left_ne_nil hf.2 _
    have ha : scan s = .frame f.length r := by rw [hb, h.frame_append hf]
    have hrest : Decomposed scan (s.drop f.length) fs rest :=
      ⟨by rw [hb, List.drop_left], fun g hg => hd.frames g (List.mem_cons_of_mem _ hg), hd.ends⟩
    rw [split, hne, ha]
    simp only [Bool.false_eq_true, if_false]
    rw [ih hrest (by omega)]
    simp [placed, Nat.add_assoc]

/-! ## Longer strings -/

/-- One round of the loop takes `s` to `s'`. -/
def Advances (scan : List α → Answer ρ σ) (s s' : List α) : Prop :=
  s ≠ [] ∧ ∃ n r, scan s = .frame n r ∧ s' = s.drop n

/-- The loop comes to a frame of no letters, where it stays. -/
def Sticks (scan : List α → Answer ρ σ) (s : List α) : Prop :=
  ∃ s' r, Relation.ReflTransGen (Advances scan) s s' ∧ s' ≠ [] ∧ scan s' = .frame 0 r

theorem split_advances {fuel pos : ℕ} {s : List α} {n : ℕ} {r : ρ} (hne : s ≠ [])
    (ha : scan s = .frame n r) :
    split scan (fuel + 1) pos s =
      (split scan fuel (pos + n) (s.drop n)).map fun t => { t with visits := (pos, r) :: t.visits } := by
  rw [split, if_neg (fun he => hne (List.isEmpty_iff.1 he)), ha]

theorem Sticks.split_eq_none {s : List α} (h : Sticks scan s) :
    ∀ fuel pos, split scan fuel pos s = none := by
  obtain ⟨s', r, hreach, hne, ha⟩ := h
  induction hreach using Relation.ReflTransGen.head_induction_on with
  | refl =>
    intro fuel
    induction fuel with
    | zero => exact fun _ => rfl
    | succ fuel ih =>
      intro pos
      rw [split_advances hne ha, List.drop_zero, ih]
      rfl
  | head hstep _ ih =>
    obtain ⟨hne', n, r', ha', rfl⟩ := hstep
    intro fuel pos
    cases fuel with
    | zero => rfl
    | succ fuel =>
      rw [split_advances hne' ha', ih]
      rfl

/-- **The loop never ends** exactly when it comes to a frame of no letters. -/
theorem split_hangs {s : List α} (pos : ℕ) :
    (∀ fuel, split scan fuel pos s = none) ↔ Sticks scan s := by
  refine ⟨fun h => ?_, fun h fuel => h.split_eq_none fuel pos⟩
  by_contra hstick
  suffices hrun : ∀ (n : ℕ) {s : List α} (pos : ℕ), s.length ≤ n → ¬ Sticks scan s →
      ∃ fuel, split scan fuel pos s ≠ none by
    obtain ⟨fuel, hfuel⟩ := hrun s.length pos (Nat.le_refl _) hstick
    exact hfuel (h fuel)
  clear h hstick s pos
  intro n
  induction n with
  | zero =>
    intro s pos hs _
    obtain rfl := List.length_eq_zero_iff.1 (Nat.le_zero.1 hs)
    exact ⟨1, by simp [split]⟩
  | succ n ih =>
    intro s pos hs hstick
    by_cases hne : s = []
    · subst hne
      exact ⟨1, by simp [split]⟩
    rcases ha : scan s with ⟨m, r⟩ | x
    · have hm : m ≠ 0 := by
        rintro rfl
        exact hstick ⟨s, r, .refl, hne, ha⟩
      have hpos := List.length_pos_iff.2 hne
      have hdrop : (s.drop m).length = s.length - m := List.length_drop
      have hrest : ¬ Sticks scan (s.drop m) := by
        rintro ⟨s', r', hreach, hrest⟩
        exact hstick ⟨s', r', .head ⟨hne, m, r, ha, rfl⟩ hreach, hrest⟩
      obtain ⟨fuel, hfuel⟩ := ih (pos + m) (by omega) hrest
      refine ⟨fuel + 1, ?_⟩
      rw [split_advances hne ha]
      simpa using hfuel
    · refine ⟨1, ?_⟩
      rw [split, if_neg (fun he => hne (List.isEmpty_iff.1 he)), ha]
      simp

end Framing
