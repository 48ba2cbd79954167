/-
  Framers with final verdicts, over any alphabet.

  A framer looks at a string and answers that it begins with a frame of `n`
  letters, or that it stops, one of the reasons to stop being that it waits for
  more.  It is `Final` when a longer string changes no other answer.

  * `Final.waits`: on every proper prefix of a frame a final framer waits;
  * `split`: the loop that takes frame after frame off a stream;
  * `Final.split_flatten`: on a concatenation of frames it takes exactly these.
-/
import Mathlib.Tactic.Common
import Mathlib.Data.List.Basic

namespace Framing

variable {α ρ σ : Type*}

/-- What a framer answers. -/
inductive Answer (ρ σ : Type*) where
  /-- the string begins with a frame of `n` letters, described by `r` -/
  | frame (n : ℕ) (r : ρ)
  | stop (x : σ)
  deriving DecidableEq, Repr

/-- A longer string changes no answer but `wait`. -/
def Final (scan : List α → Answer ρ σ) (wait : σ) : Prop :=
  ∀ b e, scan b ≠ .stop wait → scan (b ++ e) = scan b

/-- The whole string is one frame, described by `r`. -/
def IsFrame (scan : List α → Answer ρ σ) (f : List α) (r : ρ) : Prop :=
  scan f = .frame f.length r ∧ f ≠ []

section
variable {scan : List α → Answer ρ σ} {wait : σ}

/-- **A final framer waits on the proper prefixes of a frame**, as long as it
    gives no frame longer than the prefix. -/
theorem Final.waits (h : Final scan wait) {b q : List α} {n : ℕ} {r : ρ} (hb : scan b = .frame n r)
    (hq : q <+: b) (hlt : q.length < n) (hsound : ∀ m x, scan q = .frame m x → m ≤ q.length) :
    scan q = .stop wait := by
  by_contra hw
  obtain ⟨e, rfl⟩ := hq
  rw [h q e hw] at hb
  have := hsound n r hb
  omega

theorem Final.frame_append (h : Final scan wait) {f : List α} {r : ρ} (hf : IsFrame scan f r)
    (e : List α) : scan (f ++ e) = .frame f.length r := by
  rw [h f e (by rw [hf.1]; simp), hf.1]

end

/-! ## Splitting a stream -/

/-- The run of the splitting loop: the frames it visits with their positions,
    the position it ends at, and what stopped it, if anything did. -/
structure Split (ρ σ : Type*) where
  visits : List (ℕ × ρ)
  pos : ℕ
  stopped : Option σ
  deriving DecidableEq, Repr

/-- Take frame after frame off the stream, which is at position `pos`; `none`
    when the fuel runs out. -/
def split (scan : List α → Answer ρ σ) : ℕ → ℕ → List α → Option (Split ρ σ)
  | 0, _, _ => none
  | fuel + 1, pos, s =>
    if s.isEmpty then some ⟨[], pos, none⟩
    else match scan s with
      | .stop x => some ⟨[], pos, some x⟩
      | .frame n r =>
        (split scan fuel (pos + n) (s.drop n)).map fun t => { t with visits := (pos, r) :: t.visits }

/-- The frames with the positions they start at. -/
def placed : ℕ → List (List α × ρ) → List (ℕ × ρ)
  | _, [] => []
  | pos, (f, r) :: fs => (pos, r) :: placed (pos + f.length) fs

/-- **Splitting a concatenation of frames** visits exactly these frames, each
    where it starts, and ends at the tail `t`, with the end of the stream if `t`
    is empty and waiting if the framer waits on `t`. -/
theorem Final.split_flatten {scan : List α → Answer ρ σ} {wait : σ} (h : Final scan wait)
    {t : List α} (ht : t = [] ∨ scan t = .stop wait) (fs : List (List α × ρ)) :
    (∀ f ∈ fs, IsFrame scan f.1 f.2) → ∀ (pos fuel : ℕ), fs.length < fuel →
      split scan fuel pos ((fs.map (·.1)).flatten ++ t) =
        some ⟨placed pos fs, pos + ((fs.map (·.1)).flatten).length,
          if t = [] then none else some wait⟩ := by
  induction fs with
  | nil =>
    intro _ pos fuel hfuel
    obtain ⟨fuel, rfl⟩ := Nat.exists_eq_succ_of_ne_zero (by omega : fuel ≠ 0)
    rcases t with _ | ⟨c, t⟩
    · rfl
    · have ht : scan (c :: t) = .stop wait := by simpa using ht
      simp [split, ht, placed]
  | cons f fs ih =>
    intro hfs pos fuel hfuel
    rw [List.length_cons] at hfuel
    obtain ⟨fuel, rfl⟩ := Nat.exists_eq_succ_of_ne_zero (by omega : fuel ≠ 0)
    rw [List.forall_mem_cons] at hfs
    obtain ⟨hf, hfs⟩ := hfs
    obtain ⟨f, r⟩ := f
    have hne : (f ++ ((fs.map (·.1)).flatten ++ t)).isEmpty = false := by
      rw [List.isEmpty_eq_false_iff]
      exact List.append_ne_nil_of_left_ne_nil hf.2 _
    rw [List.map_cons, List.flatten_cons, List.append_assoc, split, hne, h.frame_append hf]
    simp only [Bool.false_eq_true, if_false, List.drop_left]
    rw [ih hfs _ fuel (by omega)]
    simp [placed, Nat.add_assoc]

end Framing
