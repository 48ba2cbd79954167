/-
  Computations with early exits: `Except ε α` read as a program that either
  leaves through an exit `ε` or goes on with a value `α`.

  * `Run E R c`: every exit of `c` satisfies `E`, every value `R` (a Hoare
    triple without a precondition);
  * `Sim free E R c c'`: whatever `c` does, `c'` does, up to `E` on exits and
    `R` on values, unless `c` leaves through a `free` exit, which promises
    nothing of `c'`.

  Both come with the rules for values, exits, conditionals and sequencing.
-/
import Mathlib.Tactic.Common

namespace EarlyExit

universe u v
variable {ε ε' : Type*} {α β : Type u} {α' β' : Type v}

@[simp] theorem ok_bind (x : α) (f : α → Except ε β) : (Except.ok x >>= f) = f x := rfl

@[simp] theorem error_bind (e : ε) (f : α → Except ε β) : (Except.error e >>= f) = .error e := rfl

theorem bind_eq_ok {c : Except ε α} {f : α → Except ε β} {y : β} :
    (c >>= f) = .ok y ↔ ∃ x, c = .ok x ∧ f x = .ok y := by
  cases c with
  | ok x => exact ⟨fun h => ⟨x, rfl, h⟩, fun ⟨_, hx, h⟩ => by cases hx; exact h⟩
  | error e => exact ⟨fun h => (by cases h), fun ⟨_, hx, _⟩ => by cases hx⟩

theorem bind_eq_error {c : Except ε α} {f : α → Except ε β} {e : ε} :
    (c >>= f) = .error e ↔ c = .error e ∨ ∃ x, c = .ok x ∧ f x = .error e := by
  cases c with
  | ok x =>
    constructor
    · exact fun h => Or.inr ⟨x, rfl, h⟩
    · rintro (h | ⟨_, hx, h⟩)
      · cases h
      · cases hx
        exact h
  | error e' =>
    rw [error_bind]
    constructor
    · intro h
      cases h
      exact Or.inl rfl
    · rintro (h | ⟨_, hx, -⟩)
      · cases h
        rfl
      · cases hx

/-! ## Unary rules -/

/-- Every exit of `c` satisfies `E` and every value of `c` satisfies `R`. -/
def Run (E : ε → Prop) (R : α → Prop) : Except ε α → Prop
  | .ok x => R x
  | .error e => E e

theorem Run.ok {E : ε → Prop} {R : α → Prop} {x : α} (h : R x) : Run E R (.ok x) := h

theorem Run.exit {E : ε → Prop} {R : α → Prop} {e : ε} (h : E e) :
    Run E R (.error e : Except ε α) := h

theorem Run.mono {E E' : ε → Prop} {R R' : α → Prop} {c : Except ε α} (h : Run E R c)
    (hE : ∀ e, E e → E' e) (hR : ∀ x, R x → R' x) : Run E' R' c := by
  cases c with
  | ok x => exact hR x h
  | error e => exact hE e h

theorem Run.bind {E : ε → Prop} {R : α → Prop} {S : β → Prop} {c : Except ε α}
    {f : α → Except ε β} (h : Run E R c) (hf : ∀ x, R x → Run E S (f x)) :
    Run E S (c >>= f) := by
  cases c with
  | ok x => exact hf x h
  | error e => exact h

theorem Run.ite {E : ε → Prop} {R : α → Prop} {p : Prop} [Decidable p] {c d : Except ε α}
    (hc : p → Run E R c) (hd : ¬ p → Run E R d) : Run E R (if p then c else d) := by
  by_cases hp : p
  · rw [if_pos hp]; exact hc hp
  · rw [if_neg hp]; exact hd hp

/-! ## Relational rules -/

/-- The computation `c'` does what `c` does, unless `c` leaves through a
    `free` exit. -/
def Sim (free : ε → Prop) (E : ε → ε' → Prop) (R : α → α' → Prop) :
    Except ε α → Except ε' α' → Prop
  | .ok x, c' => ∃ x', c' = .ok x' ∧ R x x'
  | .error e, c' => free e ∨ ∃ e', c' = .error e' ∧ E e e'

section
variable {free : ε → Prop} {E : ε → ε' → Prop} {R : α → α' → Prop} {S : β → β' → Prop}

theorem Sim.ok {x : α} {x' : α'} (h : R x x') : Sim free E R (.ok x) (.ok x') := ⟨x', rfl, h⟩

theorem Sim.exit {e : ε} {e' : ε'} (h : E e e') :
    Sim free E R (.error e : Except ε α) (.error e' : Except ε' α') := Or.inr ⟨e', rfl, h⟩

theorem Sim.leave {e : ε} {c' : Except ε' α'} (h : free e) :
    Sim free E R (.error e : Except ε α) c' := Or.inl h

theorem Sim.bind {c : Except ε α} {c' : Except ε' α'} {f : α → Except ε β}
    {f' : α' → Except ε' β'} (h : Sim free E R c c')
    (hf : ∀ x x', R x x' → Sim free E S (f x) (f' x')) :
    Sim free E S (c >>= f) (c' >>= f') := by
  cases c with
  | ok x =>
    obtain ⟨x', rfl, hx⟩ := h
    exact hf x x' hx
  | error e =>
    rcases h with h | ⟨e', rfl, he⟩
    · exact Or.inl h
    · exact Or.inr ⟨e', rfl, he⟩

/-- The value of the first computation may be remembered. -/
theorem Sim.remember {c : Except ε α} {c' : Except ε' α'} (h : Sim free E R c c') :
    Sim free E (fun x x' => c = .ok x ∧ R x x') c c' := by
  cases c with
  | ok x =>
    obtain ⟨x', hc, hx⟩ := h
    exact ⟨x', hc, rfl, hx⟩
  | error e => exact h

theorem Sim.ite {p : Prop} [Decidable p] {c d : Except ε α} {c' d' : Except ε' α'}
    (hc : p → Sim free E R c c') (hd : ¬ p → Sim free E R d d') :
    Sim free E R (if p then c else d) (if p then c' else d') := by
  by_cases hp : p
  · rw [if_pos hp, if_pos hp]; exact hc hp
  · rw [if_neg hp, if_neg hp]; exact hd hp

/-- A conditional over two tests with the same outcome. -/
theorem Sim.ite_iff {p p' : Prop} [Decidable p] [Decidable p'] (hp : p ↔ p')
    {c d : Except ε α} {c' d' : Except ε' α'} (hc : p → Sim free E R c c')
    (hd : ¬ p → Sim free E R d d') :
    Sim free E R (if p then c else d) (if p' then c' else d') := by
  by_cases h : p
  · rw [if_pos h, if_pos (hp.1 h)]; exact hc h
  · rw [if_neg h, if_neg (fun h' => h (hp.2 h'))]; exact hd h

end

end EarlyExit
