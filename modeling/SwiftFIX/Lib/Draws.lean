/-
  Programs that draw from a source of random numbers and may raise.

  A program is a `StateT σ Option`: the source is part of its state, and an
  exception is `none`.  `Steps I J P m` is total correctness: from every state
  with `I` the program returns a value with `P`, in a state with `J`; a draw
  keeps its invariant (`Yields`).  `Guarded c I J P m` is exact: the program
  steps if `c` holds and raises if not.
-/
import Mathlib.Data.List.Forall2

namespace Draws

variable {σ α β : Type} {c : Prop} {I J K : σ → Prop} {P : α → Prop} {R : β → Prop}
  {m : StateT σ Option α} {k : α → StateT σ Option β}

theorem run_bind (m : StateT σ Option α) (k : α → StateT σ Option β) (s : σ) :
    (m >>= k) s = (m s).bind fun r => k r.1 r.2 := rfl

theorem bind_eq_none {s : σ} (h : m s = none) : (m >>= k) s = none := by
  rw [run_bind, h]
  rfl

/-! ## Programs that return -/

/-- From every state with `I` the program returns a value with `P`, in a state
    with `J`. -/
def Steps (I J : σ → Prop) (P : α → Prop) (m : StateT σ Option α) : Prop :=
  ∀ s, I s → ∃ a s', m s = some (a, s') ∧ J s' ∧ P a

/-- The program returns a value with `P` and keeps `I`. -/
abbrev Yields (I : σ → Prop) (P : α → Prop) (m : StateT σ Option α) : Prop := Steps I I P m

namespace Steps

theorem pure {a : α} (h : P a) : Yields I P (pure a) := fun s hs => ⟨a, s, rfl, hs, h⟩

theorem bind (hm : Steps I J P m) (hk : ∀ a, P a → Steps J K R (k a)) : Steps I K R (m >>= k) := by
  intro s hs
  obtain ⟨a, s₁, ha, hJ, hP⟩ := hm s hs
  obtain ⟨b, s₂, hb, hK, hR⟩ := hk a hP s₁ hJ
  exact ⟨b, s₂, by rw [run_bind, ha]; exact hb, hK, hR⟩

theorem mono {P' : α → Prop} (h : Steps I J P m) (hP : ∀ a, P a → P' a) : Steps I J P' m := by
  intro s hs
  obtain ⟨a, s', ha, hJ, hPa⟩ := h s hs
  exact ⟨a, s', ha, hJ, hP a hPa⟩

end Steps

/-! ## Programs that raise -/

/-- The program steps if `c` holds, and raises in every state with `I` if not. -/
structure Guarded (c : Prop) (I J : σ → Prop) (P : α → Prop) (m : StateT σ Option α) : Prop where
  steps : c → Steps I J P m
  raises : ¬ c → ∀ s, I s → m s = none

namespace Guarded

/-- What follows a guarded program may rely on the guard. -/
theorem bind (hm : Guarded c I J P m) (hk : c → ∀ a, P a → Steps J K R (k a)) :
    Guarded c I K R (m >>= k) where
  steps h := (hm.steps h).bind (hk h)
  raises h s hs := bind_eq_none (hm.raises h s hs)

/-- Draws before a guarded program do not change when it raises. -/
theorem after (hm : Steps I J P m) (hk : ∀ a, P a → Guarded c J K R (k a)) :
    Guarded c I K R (m >>= k) where
  steps h := hm.bind fun a ha => (hk a ha).steps h
  raises h s hs := by
    obtain ⟨a, s', ha, hJ, hP⟩ := hm s hs
    rw [run_bind, ha]
    exact (hk a hP).raises h s' hJ

theorem mono {P' : α → Prop} (h : Guarded c I J P m) (hP : ∀ a, P a → P' a) :
    Guarded c I J P' m where
  steps hc := (h.steps hc).mono hP
  raises := h.raises

end Guarded

/-! ## Loops -/

/-- The program `n` times. -/
def times : ℕ → StateT σ Option α → StateT σ Option (List α)
  | 0, _ => pure []
  | n + 1, m => do
    let a ← m
    let as ← times n m
    return a :: as

theorem Yields.times (h : Yields I P m) :
    ∀ n, Yields I (fun as => as.length = n ∧ ∀ a ∈ as, P a) (times n m)
  | 0 => Steps.pure ⟨rfl, by simp⟩
  | n + 1 => h.bind fun a ha => (Yields.times h n).bind fun as has =>
      Steps.pure ⟨congrArg Nat.succ has.1, List.forall_mem_cons.2 ⟨ha, has.2⟩⟩

/-- **A program that counts up to `L`, repeated**: it returns its values in
    order, or raises if it would count past `L`. -/
theorem Guarded.times {I : ℕ → σ → Prop} {P : ℕ → α → Prop} {L : ℕ}
    (h : ∀ n, Guarded (n < L) (I n) (I (n + 1)) (P n) m) (count : ℕ) :
    ∀ n, n ≤ L → Guarded (n + count ≤ L) (I n) (I (n + count))
      (List.Forall₂ P (List.range' n count)) (times count m) := by
  induction count with
  | zero => exact fun n hn => ⟨fun _ => Steps.pure .nil, fun hnot => absurd hn hnot⟩
  | succ count ih =>
    intro n hn
    have hcount : n + 1 + count = n + (count + 1) := by omega
    by_cases hlt : n < L
    · refine .after ((h n).steps hlt) fun a ha => ?_
      rw [← hcount]
      exact (ih (n + 1) hlt).bind fun _ as has => Steps.pure (.cons ha has)
    · exact ⟨fun hle => absurd hle (by omega), fun _ s hs => bind_eq_none ((h n).raises hlt s hs)⟩

end Draws
