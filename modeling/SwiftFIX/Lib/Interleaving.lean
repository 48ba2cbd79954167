/-
  Components that share one register, in any interleaving.

  Each component serves its own requests, one at a time, on its own state.  A
  request reads the register when it begins and keeps the value until it
  finishes; meanwhile other components begin and finish, and the register is
  written.

  * `run`: the worlds an interleaving leads through;
  * `own i`: the writes and the requests of the component `i`, each where it
    began, and `alone`: the component on its own, one of these after the other;
  * `run_alone`: in every interleaving a component answers as it does alone, and
    is left in the same state.
-/
import Mathlib.Logic.Function.Basic

namespace Interleaving

variable {ι V Q A σ : Type} [DecidableEq ι]

/-- What a request does to the state of a component, given the value it has
    read; `none` is undefined behaviour. -/
abbrev Serve (V Q A σ : Type) := V → Q → σ → Option (List A × σ)

/-- One atomic action. -/
inductive Act (ι V Q : Type) where
  | write (v : V)
  | start (i : ι) (q : Q)
  | finish (i : ι)

/-- The register, and each component with its request under way and the answers
    it has given. -/
structure World (ι V Q A σ : Type) where
  register : V
  states : ι → σ
  pending : ι → Option (V × Q)
  answers : ι → List A

/-- No request is under way and none has been answered. -/
def World.initial (v : V) (states : ι → σ) : World ι V Q A σ := ⟨v, states, fun _ => none, fun _ => []⟩

/-- One action; `none` if it is not enabled, or undefined. -/
def step (serve : Serve V Q A σ) (w : World ι V Q A σ) : Act ι V Q → Option (World ι V Q A σ)
  | .write v => some { w with register := v }
  | .start i q =>
    match w.pending i with
    | none => some { w with pending := Function.update w.pending i (some (w.register, q)) }
    | some _ => none
  | .finish i =>
    match w.pending i with
    | none => none
    | some (v, q) => (serve v q (w.states i)).map fun r =>
      { w with
        states := Function.update w.states i r.2
        pending := Function.update w.pending i none
        answers := Function.update w.answers i (w.answers i ++ r.1) }

/-- A sequence of actions. -/
def run (serve : Serve V Q A σ) (w : World ι V Q A σ) (acts : List (Act ι V Q)) :
    Option (World ι V Q A σ) := acts.foldlM (step serve) w

/-! ## A component alone -/

/-- A write of the register or a whole request. -/
inductive Own (V Q : Type) where
  | write (v : V)
  | call (q : Q)

/-- What concerns the component `i`. -/
def own (i : ι) : List (Act ι V Q) → List (Own V Q)
  | [] => []
  | .write v :: acts => .write v :: own i acts
  | .start j q :: acts => if j = i then .call q :: own i acts else own i acts
  | .finish _ :: acts => own i acts

theorem own_append (i : ι) (acts acts' : List (Act ι V Q)) :
    own i (acts ++ acts') = own i acts ++ own i acts' := by
  induction acts with
  | nil => rfl
  | cons a acts ih =>
    cases a with
    | write v => exact congrArg _ ih
    | start j q =>
      rw [List.cons_append, own, own, ih]
      split <;> rfl
    | finish j => exact ih

/-- The component on its own: the answers, the register and the state. -/
def alone (serve : Serve V Q A σ) : V → σ → List (Own V Q) → Option (List A × V × σ)
  | v, s, [] => some ([], v, s)
  | _, s, .write v :: os => alone serve v s os
  | v, s, .call q :: os => (serve v q s).bind fun r =>
    (alone serve v r.2 os).map fun r' => (r.1 ++ r'.1, r'.2)

variable {serve : Serve V Q A σ} {v : V} {s : σ}

theorem alone_write (os : List (Own V Q)) (v' : V) :
    alone serve v s (os ++ [.write v']) = (alone serve v s os).map fun r => (r.1, v', r.2.2) := by
  induction os generalizing v s with
  | nil => rfl
  | cons o os ih =>
    cases o with
    | write u => exact ih
    | call q =>
      rw [List.cons_append, alone, alone]
      cases serve v q s with
      | none => rfl
      | some r =>
        rw [Option.bind_some, Option.bind_some, ih, Option.map_map, Option.map_map]
        rfl

theorem alone_call (os : List (Own V Q)) (q : Q) :
    alone serve v s (os ++ [.call q]) = (alone serve v s os).bind fun r =>
      (serve r.2.1 q r.2.2).map fun r' => (r.1 ++ r'.1, r.2.1, r'.2) := by
  induction os generalizing v s with
  | nil =>
    rw [List.nil_append, alone, alone, Option.bind_some]
    cases serve v q s <;> simp [alone]
  | cons o os ih =>
    cases o with
    | write u => exact ih
    | call q' =>
      rw [List.cons_append, alone, alone]
      cases serve v q' s with
      | none => rfl
      | some r =>
        rw [Option.bind_some, Option.bind_some, ih]
        cases alone serve v r.2 os with
        | none => rfl
        | some r' =>
          rw [Option.bind_some, Option.map_some, Option.bind_some]
          cases serve r'.2.1 q r'.2.2 <;> simp

/-! ## Interleavings -/

/-- **The invariant** of a component along an interleaving: what it has answered
    is what it answers alone, but for the request under way, which it will serve
    with the value read. -/
def Tracks (serve : Serve V Q A σ) (v : V) (s : σ) (os : List (Own V Q)) (w : World ι V Q A σ)
    (i : ι) : Prop :=
  alone serve v s os =
    match w.pending i with
    | none => some (w.answers i, w.register, w.states i)
    | some (u, q) => (serve u q (w.states i)).map fun r => (w.answers i ++ r.1, w.register, r.2)

theorem Tracks.step {os : List (Own V Q)} {w w' : World ι V Q A σ} {i : ι} {a : Act ι V Q}
    (h : Tracks serve v s os w i) (ha : step serve w a = some w') :
    Tracks serve v s (os ++ own i [a]) w' i := by
  unfold Tracks at h ⊢
  cases a with
  | write u =>
    cases ha
    rw [own, own, alone_write, h]
    cases w.pending i with
    | none => rfl
    | some p =>
      simp only [Option.map_map]
      rfl
  | start j q =>
    rw [Interleaving.step] at ha
    split at ha
    · rename_i hj
      cases ha
      by_cases hij : j = i
      · -- the request begins: alone it is served at once
        subst hij
        rw [own, if_pos rfl, own, alone_call, h, hj]
        simp only [Function.update_self, Option.bind_some]
      · rw [own, if_neg hij, own, List.append_nil, h]
        simp only [Function.update_of_ne (Ne.symm hij)]
    · cases ha
  | finish j =>
    rw [Interleaving.step] at ha
    split at ha
    · cases ha
    · rename_i u q hj
      obtain ⟨r, hr, rfl⟩ := Option.map_eq_some_iff.1 ha
      rw [own, own, List.append_nil, h]
      by_cases hij : j = i
      · subst hij
        simp only [hj, hr, Function.update_self, Option.map_some]
      · simp only [Function.update_of_ne (Ne.symm hij)]

theorem Tracks.run {i : ι} (acts : List (Act ι V Q)) :
    ∀ {os : List (Own V Q)} {w w' : World ι V Q A σ}, Tracks serve v s os w i →
      run serve w acts = some w' → Tracks serve v s (os ++ own i acts) w' i := by
  induction acts with
  | nil =>
    intro os w w' h hr
    cases hr
    rwa [own, List.append_nil]
  | cons a acts ih =>
    intro os w w' h hr
    rw [Interleaving.run, List.foldlM_cons] at hr
    obtain ⟨w₁, ha, hr⟩ := Option.bind_eq_some_iff.1 hr
    have hsplit : os ++ own i (a :: acts) = os ++ own i [a] ++ own i acts := by
      rw [List.append_assoc, ← own_append]
      rfl
    rw [hsplit]
    exact ih (h.step ha) hr

section
variable {states : ι → σ} {acts : List (Act ι V Q)} {w : World ι V Q A σ} {i : ι}

theorem run_tracks (h : run serve (.initial v states) acts = some w) (i : ι) :
    Tracks serve v (states i) (own i acts) w i := by
  have hinit : Tracks serve v (states i) [] (.initial v states : World ι V Q A σ) i := rfl
  exact hinit.run acts h

/-- **Every interleaving serializes**: a component with no request under way has
    answered as it does alone, and is in the state it is in alone. -/
theorem run_alone (h : run serve (.initial v states) acts = some w) (hi : w.pending i = none) :
    alone serve v (states i) (own i acts) = some (w.answers i, w.register, w.states i) := by
  have hw := run_tracks h i
  rwa [Tracks, hi] at hw

/-- A request under way can finish, if the component alone is defined. -/
theorem finish_enabled (h : run serve (.initial v states) acts = some w)
    (hi : w.pending i ≠ none) (hdefined : (alone serve v (states i) (own i acts)).isSome) :
    (step serve w (.finish i)).isSome := by
  obtain ⟨⟨u, q⟩, hq⟩ := Option.ne_none_iff_exists'.1 hi
  have hw := run_tracks h i
  rw [Tracks, hq] at hw
  rw [hw, Option.isSome_map] at hdefined
  rw [step, hq]
  simp only [Option.isSome_map]
  exact hdefined

end

end Interleaving
