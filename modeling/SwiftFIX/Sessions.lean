/-
  Sessions of several threads, which share the flag `g_preparse_enabled`.

  A session belongs to one thread.  A call of `parse_into` loads the atomic flag
  once, when it begins; from then on it works on what its thread owns, while
  other threads call their sessions or store the flag.

  * `sessions_serialize`: in every interleaving each session answers as the
    stateless parser, every call with the one value of the flag it has loaded,
    its tallies are exact, and no call that has begun gets stuck;
  * `sessions_aggregate`: the tallies of all sessions add up to the calls.
-/
import Mathlib.Algebra.BigOperators.Group.Finset.Piecewise
import Mathlib.Data.Fintype.Basic
import SwiftFIX.Delivery
import SwiftFIX.Lib.Interleaving

namespace SwiftFIX
namespace Shim

open FIX
open Interleaving (Act Own Serve World own alone)

/-! ## Calls -/

/-- A call of the thread that owns a session. -/
inductive Request where
  | parseInto (b : Buffer) (out : FIX.Message)
  | resetStats

section
variable (E : Engine) (host : Host)

/-- What a call does to its session, with the flag it has loaded; `reset_stats`
    does not look at the flag. -/
def serve : Serve Bool Request (Bool × FIX.Message) SessionShim
  | on, .parseInto b out, shim =>
    (parseInto E host on shim b out).map fun r => ([(r.1, r.2.1)], r.2.2)
  | _, .resetStats, shim => some ([], { shim with stats := {} })

end

/-- A write of the flag or a call, as an operation of a run. -/
def opOf : Own Bool Request → Op
  | .write on => .setPreparseEnabled on
  | .call (.parseInto b out) => .parseInto b out
  | .call .resetStats => .resetStats

variable {ι : Type} [DecidableEq ι]

/-- What a session sees of an interleaving. -/
def opsOf (i : ι) (acts : List (Act ι Bool Request)) : List Op := (own i acts).map opOf

section
variable {E : Engine} {host : Host}

theorem alone_eq_run (os : List (Own Bool Request)) :
    ∀ (on : Bool) (shim : SessionShim), alone (serve E host) on shim os =
      (run E host ⟨on, shim⟩ (os.map opOf)).map fun r => (r.1, r.2.enabled, r.2.shim) := by
  induction os with
  | nil => exact fun _ _ => rfl
  | cons o os ih =>
    intro on shim
    cases o with
    | write on' => exact ih on' shim
    | call q =>
      cases q with
      | resetStats =>
        rw [alone, List.map_cons, opOf, run, serve, Option.bind_some, ih]
        simp only [Option.map_map, List.nil_append]
        rfl
      | parseInto b out =>
        rw [alone, List.map_cons, opOf, run, serve]
        rcases parseInto E host on shim b out with _ | ⟨ok, m, shim'⟩
        · rfl
        · rw [Option.map_some, Option.bind_some, ih]
          simp only [Option.map_map]
          rfl

variable {on : Bool} {shims : ι → SessionShim} {acts : List (Act ι Bool Request)}
  {w : World ι Bool Request (Bool × FIX.Message) SessionShim} {i : ι}

/-- **A session of an interleaving runs alone.** -/
theorem sessions_run (h : Interleaving.run (serve E host) (.initial on shims) acts = some w)
    (hi : w.pending i = none) :
    run E host ⟨on, shims i⟩ (opsOf i acts) = some (w.answers i, ⟨w.register, w.states i⟩) := by
  have halone := Interleaving.run_alone h hi
  rw [alone_eq_run] at halone
  obtain ⟨⟨rs, p⟩, hr, he⟩ := Option.map_eq_some_iff.1 halone
  simp only [Prod.mk.injEq] at he
  obtain ⟨rfl, hon, hshim⟩ := he
  rw [opsOf, hr, ← hon, ← hshim]

end

/-- **Every interleaving of the sessions serializes.**  From any flag, and from
    sessions with cleared tallies: a call that has begun on a buffer below 4 GiB
    can finish; and a session with no call under way has answered its calls as
    the stateless parser does with the flag as each call loaded it, and counts
    exactly these calls since its last reset. -/
theorem sessions_serialize (E : Engine) (host : Host) (on : Bool) (shims : ι → SessionShim)
    (hstats : ∀ i, (shims i).stats = {}) (acts : List (Act ι Bool Request))
    (hshort : ∀ i, ∀ op ∈ opsOf i acts, op.Short)
    (w : World ι Bool Request (Bool × FIX.Message) SessionShim)
    (h : Interleaving.run (serve E host) (.initial on shims) acts = some w) :
    (∀ i, w.pending i ≠ none → (Interleaving.step (serve E host) w (.finish i)).isSome) ∧
    ∀ i, w.pending i = none →
      answers E host on (opsOf i acts) = some ((w.answers i).map seen) ∧
        Tallied E host (w.states i).stats (callsSinceReset on [] (opsOf i acts)) := by
  constructor
  · intro i hi
    refine Interleaving.finish_enabled h hi ?_
    rw [alone_eq_run, Option.isSome_map]
    exact run_isSome E host ⟨on, shims i⟩ _ (hshort i)
  · intro i hi
    have hrun := sessions_run h hi
    have hanswers := @run_answers E host (opsOf i acts) ⟨on, shims i⟩
    rw [hrun] at hanswers
    exact ⟨hanswers.symm,
      run_tallied (p := ⟨on, shims i⟩) _ (tallied_cleared E host (hstats i)) hrun⟩

/-- A session with nothing in it. -/
def plainShim : SessionShim := ⟨.fresh, .replicate _ default, {}⟩

/-- Two sessions; the flag is set while a call of the first is under way. -/
def plainActs : List (Act (Fin 2) Bool Request) :=
  [.start 0 (.parseInto (ascii "8=F\x01".toList) .fresh), .write true,
    .start 1 (.parseInto (ascii "8=F\x01".toList) .fresh), .finish 0,
    .start 0 (.parseInto (ascii "8=F".toList) .fresh), .finish 1, .finish 0]

set_option maxRecDepth 8000 in
theorem plainActs_run : (Interleaving.run (serve (plainRules.engine plainConvertor) plainHost)
    (.initial false fun _ => plainShim) plainActs).any (fun w => ∀ i, (w.pending i).isNone) := by
  decide

theorem sessions_serialize_plain :
    ∃ w, Interleaving.run (serve (plainRules.engine plainConvertor) plainHost)
        (.initial false fun _ => plainShim) plainActs = some w ∧
      ∀ i, w.pending i = none →
        answers (plainRules.engine plainConvertor) plainHost false (opsOf i plainActs) =
            some ((w.answers i).map seen) ∧
          Tallied (plainRules.engine plainConvertor) plainHost (w.states i).stats
            (callsSinceReset false [] (opsOf i plainActs)) := by
  obtain ⟨w, hw, -⟩ := (Option.any_eq_true _ _).1 plainActs_run
  exact ⟨w, hw, (sessions_serialize (plainRules.engine plainConvertor) plainHost false
    (fun _ => plainShim) (fun _ => rfl) plainActs (by decide) w hw).2⟩

/-! ## All sessions -/

/-- The `parse_into` calls of an interleaving in the order they begin, each with
    its session and the flag it loads. -/
def begun : Bool → List (Act ι Bool Request) → List (ι × Bool × Buffer)
  | _, [] => []
  | _, .write on :: acts => begun on acts
  | on, .start i (.parseInto b _) :: acts => (i, on, b) :: begun on acts
  | on, .start _ .resetStats :: acts => begun on acts
  | on, .finish _ :: acts => begun on acts

theorem callsSinceReset_opsOf (i : ι) {acts : List (Act ι Bool Request)}
    (h : ∀ j, .start j .resetStats ∉ acts) :
    ∀ (on : Bool) (calls : List (Bool × Buffer)), callsSinceReset on calls (opsOf i acts) =
      calls ++ ((begun on acts).filter (·.1 = i)).map (·.2) := by
  induction acts with
  | nil => exact fun _ calls => (List.append_nil calls).symm
  | cons a acts ih =>
    intro on calls
    have htail : ∀ j, .start j .resetStats ∉ acts := fun j hj => h j (List.mem_cons_of_mem _ hj)
    cases a with
    | write on' => exact ih htail on' calls
    | finish j => exact ih htail on calls
    | start j q =>
      cases q with
      | resetStats => exact absurd List.mem_cons_self (h j)
      | parseInto b out =>
        rw [opsOf, own, begun, List.filter_cons]
        by_cases hij : j = i
        · rw [if_pos hij, List.map_cons, opOf, callsSinceReset, ← opsOf, ih htail]
          simp [hij]
        · rw [if_neg hij, ← opsOf, ih htail]
          simp [hij]

section
variable [Fintype ι]

theorem sum_countP_filter {α : Type} (f : α → ι) (p : α → Bool) (l : List α) :
    ∑ i, (l.filter fun x => f x = i).countP p = l.countP p := by
  induction l with
  | nil => simp
  | cons x l ih =>
    have hstep : ∀ i, ((x :: l).filter fun y => f y = i).countP p =
        (l.filter fun y => f y = i).countP p + if f x = i then (if p x then 1 else 0) else 0 := by
      intro i
      rw [List.filter_cons]
      by_cases hi : f x = i <;> simp [hi, List.countP_cons]
    simp only [hstep, Finset.sum_add_distrib, ih, Finset.sum_ite_eq, Finset.mem_univ, if_true,
      List.countP_cons]

/-- The tallies of the sessions that begin with those calls add up. -/
theorem sum_tallies {calls : List (ι × Bool × Buffer)} {count : ι → UInt64} (p : Bool × Buffer → Bool)
    (h : ∀ i, count i = UInt64.ofNat (((calls.filter (·.1 = i)).map (·.2)).countP p)) :
    (∑ i, (count i).toNat) % 2 ^ 64 = calls.countP (fun c => p c.2) % 2 ^ 64 := by
  have hcount : ∀ i, (count i).toNat =
      ((calls.filter (·.1 = i)).countP fun c => p c.2) % 2 ^ 64 := by
    intro i
    rw [h i, UInt64.toNat_ofNat', List.countP_map]
    rfl
  simp only [hcount]
  rw [← Finset.sum_nat_mod, sum_countP_filter]

/-- **The sessions together count every call once.**  In an interleaving without
    resets that leaves no call under way, the tallies of all sessions add up,
    modulo `2^64`, to the calls that loaded a set flag, and to the calls that
    failed. -/
theorem sessions_aggregate (E : Engine) (host : Host) (on : Bool) (shims : ι → SessionShim)
    (hstats : ∀ i, (shims i).stats = {}) (acts : List (Act ι Bool Request))
    (hresets : ∀ i, .start i .resetStats ∉ acts)
    (w : World ι Bool Request (Bool × FIX.Message) SessionShim)
    (h : Interleaving.run (serve E host) (.initial on shims) acts = some w)
    (hidle : ∀ i, w.pending i = none) :
    (∑ i, (w.states i).stats.preparseAttempted.toNat) % 2 ^ 64 =
        (begun on acts).countP (·.2.1) % 2 ^ 64 ∧
      (∑ i, (w.states i).stats.parseFailed.toNat) % 2 ^ 64 =
        (begun on acts).countP (fun c => fails E host c.2) % 2 ^ 64 := by
  have htallied : ∀ i, Tallied E host (w.states i).stats
      (((begun on acts).filter (·.1 = i)).map (·.2)) := by
    intro i
    have hend := run_tallied (p := ⟨on, shims i⟩) _ (tallied_cleared E host (hstats i))
      (sessions_run h (hidle i))
    rwa [callsSinceReset_opsOf i hresets, List.nil_append] at hend
  exact ⟨sum_tallies (·.1) fun i => (htallied i).attempted,
    sum_tallies (fails E host) fun i => (htallied i).failed⟩

end

theorem sessions_aggregate_plain :
    ∃ w, Interleaving.run (serve (plainRules.engine plainConvertor) plainHost)
        (.initial false fun _ => plainShim) plainActs = some w ∧
      (∑ i, (w.states i).stats.preparseAttempted.toNat) % 2 ^ 64 =
          (begun false plainActs).countP (·.2.1) % 2 ^ 64 ∧
        (∑ i, (w.states i).stats.parseFailed.toNat) % 2 ^ 64 = (begun false plainActs).countP
          (fun c => fails (plainRules.engine plainConvertor) plainHost c.2) % 2 ^ 64 := by
  obtain ⟨w, hw, hidle⟩ := (Option.any_eq_true _ _).1 plainActs_run
  have hidle : ∀ i, w.pending i = none := by simpa using hidle
  have hresets : ∀ i, .start i .resetStats ∉ plainActs := by
    simp [plainActs]
  exact ⟨w, hw, sessions_aggregate (plainRules.engine plainConvertor) plainHost false
    (fun _ => plainShim) (fun _ => rfl) plainActs hresets w hw hidle⟩

end Shim
end SwiftFIX
