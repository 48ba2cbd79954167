/-
  Which path a call takes, and how often each is taken.

  * `fast_iff`: the fast path is taken exactly on a frame that the scanner
    accepts, without a group counter, whose fields QuickFIX sorts;
  * `run_paths`: along any run the tallies of the two paths count exactly the
    calls that take them.
-/
import SwiftFIX.Delivery

namespace SwiftFIX

open Delimited FIX

namespace Shim

section
variable (E : Engine) (host : Host)

/-- With the pre-parser on, the call takes the fast path. -/
def fast (b : Buffer) : Bool :=
  let (s, v) := (defaultScanner host).verdict b
  s = .ok && !requiresDictionaryParse v.entries &&
    (E.setFromPreScan b (v.entries.map preScanField) false .fresh).isOk

/-- **The tallies of the paths** count the given calls, modulo `2^64`. -/
structure Paths (stats : Stats) (calls : List (Bool × Buffer)) : Prop where
  succeeded : stats.preparseSucceeded = UInt64.ofNat (calls.countP fun c => c.1 && fast E host c.2)
  fallback : stats.fallbackUsed = UInt64.ofNat (calls.countP fun c => c.1 && !fast E host c.2)

end

/-! ## Frames on the fast path -/

theorem fast_frame (E : Engine) {host : Host} {b : Buffer} (hb : b.length < 2 ^ 32) {F : Frame}
    (hacc : (defaultScanner host).Accepts F) (hF : F.bytes <+: b) : fast E host b =
      (!(F.fields.any fun f => isKnownGroupCounter f.number) &&
        (E.sortParts (fastMessage E.toFieldRules F)).isOk) := by
  have hentries : F.index.entries = places 0 F.fields := rfl
  rw [fast, verdict_frame hb hacc hF]
  simp only [hentries, requiresDictionaryParse_places]
  rw [setFromPreScan_eq E.toFieldRules (fields_places hF), ← fastMessage]
  cases E.sortParts (fastMessage E.toFieldRules F) <;> simp [Except.isOk, Except.toBool]

theorem isOk_iff {ε α : Type} {x : Except ε α} : x.isOk = true ↔ ∃ a, x = .ok a := by
  cases x <;> simp [Except.isOk, Except.toBool]

/-- **The fast path is taken** exactly on an accepted frame without group
    counters whose fields QuickFIX sorts. -/
theorem fast_iff (E : Engine) (host : Host) {b : Buffer} (hb : b.length < 2 ^ 32) :
    fast E host b = true ↔ ∃ F : Frame, (defaultScanner host).Accepts F ∧ F.bytes <+: b ∧
      (∀ f ∈ F.fields, isKnownGroupCounter f.number = false) ∧
        ∃ m, E.sortParts (fastMessage E.toFieldRules F) = .ok m := by
  constructor
  · intro hfast
    rcases hv : (defaultScanner host).verdict b with ⟨st, v⟩
    have hst : st = .ok := by
      rw [fast, hv] at hfast
      simp_all
    have hr := (defaultScanner host).result_eq b .fresh
    rw [hv, hst] at hr
    obtain ⟨F, hacc, hF, -⟩ := ((defaultScanner host).result_ok hb .fresh).1 hr
    rw [fast_frame E hb hacc hF, Bool.and_eq_true, isOk_iff] at hfast
    exact ⟨F, hacc, hF, by simpa using hfast.1, hfast.2⟩
  · rintro ⟨F, hacc, hF, hgroup, hsort⟩
    rw [fast_frame E hb hacc hF, Bool.and_eq_true, isOk_iff]
    exact ⟨by simpa using hgroup, hsort⟩

theorem fast_iff_plain :
    fast (plainRules.engine plainConvertor) plainHost plainChecksum = true ↔
      ∃ F : Frame, (defaultScanner plainHost).Accepts F ∧ F.bytes <+: plainChecksum ∧
        (∀ f ∈ F.fields, isKnownGroupCounter f.number = false) ∧
          ∃ m, plainRules.sortParts (fastMessage plainRules F) = .ok m :=
  fast_iff (plainRules.engine plainConvertor) plainHost (by decide)

/-! ## Runs -/

section
variable {E : Engine} {host : Host}

/-- What a call keeps and a reset establishes holds after every run of the calls
    since the last reset. -/
theorem run_invariant {P : Stats → List (Bool × Buffer) → Prop} (hreset : P {} [])
    (hcall : ∀ {enabled ok : Bool} {shim shim' : SessionShim} {b : Buffer} {out m : FIX.Message}
      {calls : List (Bool × Buffer)}, parseInto E host enabled shim b out = some (ok, m, shim') →
        P shim.stats calls → P shim'.stats (calls ++ [(enabled, b)]))
    (ops : List Op) : ∀ {p p' : Process} {calls : List (Bool × Buffer)}
      {rs : List (Bool × FIX.Message)}, P p.shim.stats calls → run E host p ops = some (rs, p') →
        P p'.shim.stats (callsSinceReset p.enabled calls ops) := by
  induction ops with
  | nil =>
    intro p p' calls rs hp h
    cases h
    exact hp
  | cons op ops ih =>
    intro p p' calls rs hp h
    cases op with
    | setPreparseEnabled on => exact ih (p := { p with enabled := on }) hp h
    | resetStats => exact ih (p := { p with shim := { p.shim with stats := {} } }) hreset h
    | parseInto b out =>
      rw [run] at h
      rcases hcall' : parseInto E host p.enabled p.shim b out with _ | ⟨ok, m, shim⟩
      · rw [hcall'] at h
        cases h
      · rw [hcall'] at h
        obtain ⟨r, hr, hrs⟩ := Option.map_eq_some_iff.1 h
        cases hrs
        exact ih (p := { p with shim := shim }) (hcall hcall' hp) hr

theorem finishStock_paths {b : Buffer} {out : FIX.Message} {shim : SessionShim} :
    (finishStock E b out shim).2.2.stats.preparseSucceeded = shim.stats.preparseSucceeded ∧
      (finishStock E b out shim).2.2.stats.fallbackUsed = shim.stats.fallbackUsed := by
  unfold finishStock
  split <;> exact ⟨rfl, rfl⟩

/-- **What a call does to the tallies of the paths.** -/
theorem parseInto_paths {enabled ok : Bool} {shim shim' : SessionShim} {b : Buffer}
    {out m : FIX.Message} (h : parseInto E host enabled shim b out = some (ok, m, shim')) :
    shim'.stats.preparseSucceeded = shim.stats.preparseSucceeded +
        (if enabled && fast E host b then 1 else 0) ∧
      shim'.stats.fallbackUsed = shim.stats.fallbackUsed +
        if enabled && !fast E host b then 1 else 0 := by
  have hstock : ∀ {out : FIX.Message} {shim : SessionShim},
      finishStock E b out shim = (ok, m, shim') →
        shim'.stats.preparseSucceeded = shim.stats.preparseSucceeded ∧
          shim'.stats.fallbackUsed = shim.stats.fallbackUsed := by
    intro out shim hs
    have hpaths := @finishStock_paths E b out shim
    rwa [hs] at hpaths
  unfold parseInto at h
  cases enabled with
  | false => simpa using hstock (Option.some.inj h)
  | true =>
    have hr := (defaultScanner host).result_eq b shim.idx
    simp only [Bool.not_true, Bool.false_eq_true, if_false] at h
    rcases hs : (defaultScanner host).scan b shim.idx with ⟨st, idx⟩ | _
    · rw [hs, Outcome.result, Option.some.injEq] at hr
      rw [hs] at h
      have hfast : fast E host b = (st = .ok && !requiresDictionaryParse idx.entries &&
          (E.setFromPreScan b (idx.entries.map preScanField) false .fresh).isOk) := by
        rw [fast, ← hr]
        rfl
      simp only at h
      split at h
      · rename_i hcond
        obtain ⟨scratch', ha⟩ :=
          applyFieldIndex_eq (E := E) (entries_length_le idx) b out shim.scratch
        rw [hfast, hcond]
        simp only [ha] at h
        rcases hset : E.setFromPreScan b (idx.entries.map preScanField) false .fresh with
          (left | _) | m'
        · rw [hset] at h
          simpa [Except.isOk, Except.toBool] using hstock (Option.some.inj h)
        · rw [hset] at h
          cases h
        · rw [hset] at h
          cases h
          simp [Except.isOk, Except.toBool]
      · rename_i hcond
        rw [Bool.not_eq_true] at hcond
        rw [hfast, hcond]
        simpa using hstock (Option.some.inj h)
    · rw [hs] at h
      cases h

theorem Paths.snoc {enabled ok : Bool} {shim shim' : SessionShim} {b : Buffer}
    {out m : FIX.Message} {calls : List (Bool × Buffer)}
    (h : parseInto E host enabled shim b out = some (ok, m, shim'))
    (hp : Paths E host shim.stats calls) : Paths E host shim'.stats (calls ++ [(enabled, b)]) := by
  obtain ⟨hs, hf⟩ := parseInto_paths h
  constructor
  · rw [hs, hp.succeeded, List.countP_append, List.countP_singleton, UInt64.ofNat_add]
    cases enabled && fast E host b <;> rfl
  · rw [hf, hp.fallback, List.countP_append, List.countP_singleton, UInt64.ofNat_add]
    cases enabled && !fast E host b <;> rfl

theorem Paths.run {p p' : Process} (hstats : p.shim.stats = {}) {ops : List Op}
    {rs : List (Bool × FIX.Message)} (h : Shim.run E host p ops = some (rs, p')) :
    Paths E host p'.shim.stats (callsSinceReset p.enabled [] ops) := by
  have hcleared : Paths E host {} [] := ⟨rfl, rfl⟩
  exact run_invariant hcleared (fun hcall hp => hp.snoc hcall) ops (hstats ▸ hcleared) h

end

/-- **Along any run the tallies of the paths are exact**: from cleared tallies,
    they count the calls since the last reset that take the fast path and those
    that fall back. -/
theorem run_paths (E : Engine) (host : Host) (p p' : Process) (hstats : p.shim.stats = {})
    (ops : List Op) (rs : List (Bool × FIX.Message)) (h : run E host p ops = some (rs, p')) :
    Paths E host p'.shim.stats (callsSinceReset p.enabled [] ops) := .run hstats h

set_option maxRecDepth 8000 in
theorem run_paths_plain :
    ∃ rs p', run (plainRules.engine plainConvertor) plainHost ⟨true, .fresh, .replicate _ default, {}⟩
        plainOps = some (rs, p') ∧
      Paths (plainRules.engine plainConvertor) plainHost p'.shim.stats
        (callsSinceReset true [] plainOps) := by
  have hsome : (run (plainRules.engine plainConvertor) plainHost
      ⟨true, .fresh, .replicate _ default, {}⟩ plainOps).isSome := by decide
  obtain ⟨⟨rs, p'⟩, hrun⟩ := Option.isSome_iff_exists.1 hsome
  exact ⟨rs, p', hrun, run_paths _ _ ⟨true, .fresh, .replicate _ default, {}⟩ p' rfl plainOps rs hrun⟩

end Shim
end SwiftFIX
