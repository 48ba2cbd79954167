/-
  Words whose letters come in phases, over any alphabet ranked in a linear
  order.

  A word is in order when no letter ranks below one before it.

  * `highest rank l`: the highest rank so far, all a left-to-right pass has to
    remember (`inOrder_concat`);
  * `Breaks rank l x`: `x` is the first letter out of order, the last of the
    shortest prefix that is not in order;
  * `breaks_concat`: a pass finds it at the first letter below the highest rank.
-/
import Mathlib.Tactic.Common
import Mathlib.Data.List.Induction
import Mathlib.Order.BoundedOrder.Basic
import Mathlib.Order.MinMax

namespace Phases

variable {α β γ : Type*} [LinearOrder β] {rank : α → β} {l : List α} {x : α}

/-- No letter ranks below one before it. -/
def InOrder (rank : α → β) (l : List α) : Prop := l.Pairwise fun x y => rank x ≤ rank y

theorem InOrder.nil : InOrder rank ([] : List α) := List.Pairwise.nil

theorem InOrder.mono {l' : List α} (h : InOrder rank l) (hp : l' <+: l) : InOrder rank l' :=
  h.sublist hp.sublist

theorem inOrder_map {f : γ → α} {l : List γ} :
    InOrder rank (l.map f) ↔ InOrder (fun x => rank (f x)) l :=
  List.pairwise_map

section
variable [OrderBot β]

/-- The highest rank of a word. -/
def highest (rank : α → β) (l : List α) : β := l.foldl (fun m x => max m (rank x)) ⊥

theorem highest_concat (l : List α) (x : α) :
    highest rank (l ++ [x]) = max (highest rank l) (rank x) := by
  rw [highest, List.foldl_append]
  rfl

theorem highest_le {m : β} : highest rank l ≤ m ↔ ∀ x ∈ l, rank x ≤ m := by
  induction l using List.reverseRecOn with
  | nil => simp [highest]
  | append_singleton l x ih =>
    rw [highest_concat, max_le_iff, ih, List.forall_mem_append, List.forall_mem_singleton]

/-- **One letter more** keeps a word in order iff it does not rank below the
    highest so far. -/
theorem inOrder_concat : InOrder rank (l ++ [x]) ↔ InOrder rank l ∧ highest rank l ≤ rank x := by
  rw [InOrder, List.pairwise_append, highest_le]
  simp [InOrder]

end

/-- The first letter out of order. -/
def Breaks (rank : α → β) (l : List α) (x : α) : Prop :=
  ∃ pre post, l = pre ++ x :: post ∧ InOrder rank pre ∧ ¬ InOrder rank (pre ++ [x])

/-- A word that is broken stays broken at the same letter. -/
theorem Breaks.concat (h : Breaks rank l x) (y : α) : Breaks rank (l ++ [y]) x := by
  obtain ⟨pre, post, rfl, hpre, hx⟩ := h
  exact ⟨pre, post ++ [y], by rw [List.append_assoc]; rfl, hpre, hx⟩

/-- A word in order is broken by a letter that ranks below the highest. -/
theorem breaks_concat [OrderBot β] (h : InOrder rank l) (hx : ¬ highest rank l ≤ rank x) :
    Breaks rank (l ++ [x]) x :=
  ⟨l, [], rfl, h, fun hl => hx (inOrder_concat.1 hl).2⟩

end Phases
