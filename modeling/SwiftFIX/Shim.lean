/-
  The QuickFIX shim (`quickfix_shim.cpp`): a session that parses with the
  pre-parser first, when that is enabled, and falls back to QuickFIX.

  The session reuses its index and its scratch array from call to call;
  `parseInto_answer` says that no call depends on what they held, and
  `run_stateless` says it of a run, with the tallies kept along it.
-/
import SwiftFIX.QuickFix
import SwiftFIX.Safety

namespace SwiftFIX
namespace Shim

open EarlyExit FIX

/-! ## The session -/

/-- `SessionShim::Stats`. -/
structure Stats where
  preparseAttempted : UInt64 := 0
  preparseSucceeded : UInt64 := 0
  fallbackUsed : UInt64 := 0
  parseFailed : UInt64 := 0
  deriving DecidableEq, Repr

/-- `SessionShim`: the index and the fields it reuses, and its statistics. -/
structure SessionShim where
  idx : FieldIndex
  scratch : Vector PreScanField kMaxFields
  stats : Stats

/-- `is_known_group_counter(tag)`. -/
def isKnownGroupCounter (tag : ℕ) : Bool :=
  tag ∈ [33, 73, 78, 85, 124, 135, 146, 232, 267, 268, 295, 296, 382, 386, 453, 454, 555, 604, 711,
    753, 802, 804, 862, 864]

/-- `requires_dictionary_parse(idx)`. -/
def requiresDictionaryParse (entries : List FieldEntry) : Bool :=
  entries.any fun e => isKnownGroupCounter e.tagNumber

section
variable (E : Engine)

/-- `stock_parse`: `setString` on a copy of the bytes; false when it throws.
    With the message it leaves. -/
def stockParse (b : Buffer) (out : FIX.Message) : Bool × FIX.Message :=
  match E.setString b out with
  | .ok m => (true, m)
  | .error left => (false, left)

/-- The translation of one entry. -/
def preScanField (e : FieldEntry) : PreScanField :=
  ⟨castInt e.tagNumber, e.tagStart, e.valueStart, e.valueEnd⟩

/-- The translation loop of `apply_field_index`, which writes `scratch[i]`,
    `scratch[i + 1]`, …; `none` is a write outside the array. -/
def translate : List FieldEntry → ℕ → Vector PreScanField kMaxFields →
    Option (Vector PreScanField kMaxFields)
  | [], _, scratch => some scratch
  | e :: es, i, scratch =>
    if h : i < kMaxFields then translate es (i + 1) (scratch.set i (preScanField e)) else none

/-- `apply_field_index`: the reply, the message it leaves and the scratch array;
    `none` is undefined behaviour. -/
def applyFieldIndex (entries : List FieldEntry) (b : Buffer) (out : FIX.Message)
    (scratch : Vector PreScanField kMaxFields) :
    Option (Bool × FIX.Message × Vector PreScanField kMaxFields) :=
  match translate entries 0 scratch with
  | none => none
  | some scratch =>
    match E.setFromPreScan b (scratch.toList.take entries.length) false out with
    | .ok m => some (true, m, scratch)
    | .error (.threw left) => some (false, left, scratch)
    | .error .stuck => none

/-- The stock parse at the end of a call, which counts a failure. -/
def finishStock (b : Buffer) (out : FIX.Message) (shim : SessionShim) :
    Bool × FIX.Message × SessionShim :=
  match stockParse E b out with
  | (true, m) => (true, m, shim)
  | (false, m) =>
    (false, m, { shim with stats := { shim.stats with parseFailed := shim.stats.parseFailed + 1 } })

/-- The fallback of a call with the pre-parser on. -/
def fallBack (b : Buffer) (out : FIX.Message) (shim : SessionShim) :
    Bool × FIX.Message × SessionShim :=
  finishStock E b out
    { shim with stats := { shim.stats with fallbackUsed := shim.stats.fallbackUsed + 1 } }

/-- `SessionShim::parse_into(buffer, out)`, with the flag `preparse_enabled()`:
    the reply, the message left in `out` and the session after the call. -/
def parseInto (host : Host) (enabled : Bool) (shim : SessionShim) (b : Buffer) (out : FIX.Message) :
    Option (Bool × FIX.Message × SessionShim) :=
  if !enabled then some (finishStock E b out shim)
  else
    let stats := { shim.stats with preparseAttempted := shim.stats.preparseAttempted + 1 }
    match (defaultScanner host).scan b shim.idx with
    | .stuck => none
    | .ret s idx =>
      let shim := { shim with idx := idx, stats := stats }
      if s = .ok && !requiresDictionaryParse idx.entries then
        match applyFieldIndex E idx.entries b out shim.scratch with
        | none => none
        | some (true, m, scratch) =>
          some (true, m, { shim with
            scratch := scratch
            stats := { stats with preparseSucceeded := stats.preparseSucceeded + 1 } })
        | some (false, left, scratch) => some (fallBack E b left { shim with scratch := scratch })
      else some (fallBack E b out shim)

end

/-! ## A call as a function of its flag and its buffer -/

/-- What a caller sees: the message when the reply is true. -/
def seen (reply : Bool × FIX.Message) : Option FIX.Message := if reply.1 then some reply.2 else none

section
variable (E : Engine) (host : Host)

/-- The message of the stock parse; `none` when it fails. -/
def stock (b : Buffer) : Option FIX.Message :=
  match E.setString b .fresh with
  | .ok m => some m
  | .error _ => none

/-- **The stateless parser**: what a call makes of its buffer; `none` is
    undefined behaviour, `some none` the reply false. -/
def answer (enabled : Bool) (b : Buffer) : Option (Option FIX.Message) :=
  if !enabled then some (stock E b)
  else
    let (s, v) := (defaultScanner host).verdict b
    if s = .ok && !requiresDictionaryParse v.entries then
      match E.setFromPreScan b (v.entries.map preScanField) false .fresh with
      | .ok m => some (some m)
      | .error (.threw _) => some (stock E b)
      | .error .stuck => none
    else some (stock E b)

end

section
variable {E : Engine} {host : Host}

theorem setFromPreScan_prior (b : Buffer) (fields : List PreScanField) (v : Bool)
    (m m' : FIX.Message) :
    E.setFromPreScan b fields v m = E.setFromPreScan b fields v m' := by
  rw [FieldRules.setFromPreScan, FieldRules.setFromPreScan, E.clear_eq, E.clear_eq]

theorem finishStock_seen (b : Buffer) (out : FIX.Message) (shim : SessionShim) :
    seen ((finishStock E b out shim).1, (finishStock E b out shim).2.1) = stock E b := by
  rw [finishStock, stockParse, stock, E.setString_clear b out .fresh]
  cases E.setString b .fresh <;> rfl

/-- The translation leaves the first slots of the scratch array to the entries,
    whatever was there. -/
theorem translate_eq (es : List FieldEntry) :
    ∀ (i : ℕ) (scratch : Vector PreScanField kMaxFields), i + es.length ≤ kMaxFields →
      ∃ scratch', translate es i scratch = some scratch' ∧
        scratch'.toList.take (i + es.length) = scratch.toList.take i ++ es.map preScanField := by
  induction es with
  | nil =>
    intro i scratch _
    exact ⟨scratch, rfl, by simp⟩
  | cons e es ih =>
    intro i scratch h
    rw [List.length_cons] at h
    have hi : i < kMaxFields := by omega
    have hl : i < scratch.toList.length := by rw [Vector.length_toList]; exact hi
    obtain ⟨scratch', hs, ht⟩ := ih (i + 1) (scratch.set i (preScanField e)) (by omega)
    refine ⟨scratch', by rw [translate, dif_pos hi, hs], ?_⟩
    rw [List.length_cons, show i + (es.length + 1) = i + 1 + es.length by omega, ht,
      Vector.toList_set, List.take_add_one, List.take_set_of_le (Nat.le_refl _),
      List.getElem?_set_self hl, List.map_cons]
    simp

theorem entries_length_le (idx : FieldIndex) : idx.entries.length ≤ kMaxFields := by
  rw [FieldIndex.entries]
  exact (List.length_take_le' _ _).trans (by rw [Vector.length_toList])

/-- Applying an index depends on its entries and the buffer only. -/
theorem applyFieldIndex_eq {es : List FieldEntry} (hes : es.length ≤ kMaxFields) (b : Buffer)
    (out : FIX.Message) (scratch : Vector PreScanField kMaxFields) :
    ∃ scratch', applyFieldIndex E es b out scratch =
      match E.setFromPreScan b (es.map preScanField) false .fresh with
      | .ok m => some (true, m, scratch')
      | .error (.threw left) => some (false, left, scratch')
      | .error .stuck => none := by
  obtain ⟨scratch', hs, ht⟩ := translate_eq es 0 scratch (by omega)
  rw [Nat.zero_add, List.take_zero, List.nil_append] at ht
  refine ⟨scratch', ?_⟩
  rw [applyFieldIndex, hs]
  simp only [ht]
  rw [setFromPreScan_prior b _ false out .fresh]

/-- **A call is a function of the flag and the buffer**: neither the session
    nor the message handed in matters. -/
theorem parseInto_answer (E : Engine) (host : Host) (enabled : Bool) (shim : SessionShim)
    (b : Buffer) (out : FIX.Message) :
    (parseInto E host enabled shim b out).map (fun r => seen (r.1, r.2.1)) =
      answer E host enabled b := by
  unfold parseInto answer
  cases enabled with
  | false => exact congrArg some (finishStock_seen b out shim)
  | true =>
    have hr := (defaultScanner host).result_eq b shim.idx
    rcases hs : (defaultScanner host).scan b shim.idx with ⟨s, idx⟩ | _
    · rw [hs, Outcome.result, Option.some.injEq] at hr
      have he : (idx.view).entries = idx.entries := rfl
      rw [← hr]
      simp only [Bool.not_true, Bool.false_eq_true, if_false, he]
      split
      · obtain ⟨scratch', ha⟩ :=
          applyFieldIndex_eq (E := E) (entries_length_le idx) b out shim.scratch
        rw [ha]
        rcases E.setFromPreScan b (idx.entries.map preScanField) false .fresh with (left | _) | m
        · exact congrArg some (finishStock_seen b left _)
        · rfl
        · rfl
      · exact congrArg some (finishStock_seen b out _)
    · rw [hs, Outcome.result] at hr
      cases hr

end

/-! ## Runs -/

/-- The calls on a session. -/
inductive Op where
  | setPreparseEnabled (on : Bool)
  | parseInto (b : Buffer) (out : FIX.Message)
  | resetStats

/-- The flag `g_preparse_enabled` and the session. -/
structure Process where
  enabled : Bool
  shim : SessionShim

section
variable (E : Engine) (host : Host)

/-- The replies of the `parse_into` calls of a run, each with the message it
    leaves, and the process after it; `none` when a call is undefined. -/
def run (p : Process) : List Op → Option (List (Bool × FIX.Message) × Process)
  | [] => some ([], p)
  | .setPreparseEnabled on :: ops => run { p with enabled := on } ops
  | .parseInto b out :: ops =>
    match parseInto E host p.enabled p.shim b out with
    | none => none
    | some (ok, m, shim) =>
      (run { p with shim := shim } ops).map fun r => ((ok, m) :: r.1, r.2)
  | .resetStats :: ops => run { p with shim := { p.shim with stats := {} } } ops

/-- What the stateless parser answers to the `parse_into` calls of a run that
    starts with the flag `enabled`. -/
def answers (enabled : Bool) : List Op → Option (List (Option FIX.Message))
  | [] => some []
  | .setPreparseEnabled on :: ops => answers on ops
  | .parseInto b _ :: ops =>
    match answer E host enabled b with
    | none => none
    | some a => (answers enabled ops).map (a :: ·)
  | .resetStats :: ops => answers enabled ops

/-- The `parse_into` calls since the last reset, with their flags; `calls` are
    those before the run. -/
def callsSinceReset (enabled : Bool) (calls : List (Bool × Buffer)) : List Op → List (Bool × Buffer)
  | [] => calls
  | .setPreparseEnabled on :: ops => callsSinceReset on calls ops
  | .parseInto b _ :: ops => callsSinceReset enabled (calls ++ [(enabled, b)]) ops
  | .resetStats :: ops => callsSinceReset enabled [] ops

/-- The call returns false. -/
def fails (call : Bool × Buffer) : Bool := (answer E host call.1 call.2).any Option.isNone

/-- **The tallies are exact** for the given calls, modulo `2^64`. -/
structure Tallied (stats : Stats) (calls : List (Bool × Buffer)) : Prop where
  attempted : stats.preparseAttempted = UInt64.ofNat (calls.countP (·.1))
  split : stats.preparseAttempted = stats.preparseSucceeded + stats.fallbackUsed
  failed : stats.parseFailed = UInt64.ofNat (calls.countP (fails E host))

end

section
variable {E : Engine} {host : Host}

/-- What one call does to the tallies. -/
structure Counts (enabled ok : Bool) (stats stats' : Stats) : Prop where
  attempted : stats'.preparseAttempted = stats.preparseAttempted + if enabled then 1 else 0
  split : stats.preparseAttempted = stats.preparseSucceeded + stats.fallbackUsed →
    stats'.preparseAttempted = stats'.preparseSucceeded + stats'.fallbackUsed
  failed : stats'.parseFailed = stats.parseFailed + if ok then 0 else 1

variable {enabled ok : Bool} {shim shim' : SessionShim} {b : Buffer} {out m : FIX.Message}

theorem finishStock_counts (h : finishStock E b out shim = (ok, m, shim')) :
    Counts false ok shim.stats shim'.stats := by
  unfold finishStock at h
  split at h
  · cases h
    exact ⟨by simp, id, by simp⟩
  · cases h
    exact ⟨by simp, id, rfl⟩

theorem fallBack_counts {idx : FieldIndex} {scratch : Vector PreScanField kMaxFields}
    {stats : Stats}
    (h : fallBack E b out
      ⟨idx, scratch, { stats with preparseAttempted := stats.preparseAttempted + 1 }⟩ =
        (ok, m, shim')) :
    Counts true ok stats shim'.stats := by
  obtain ⟨ha, hs, hp⟩ := finishStock_counts h
  refine ⟨ha.trans (UInt64.add_zero _), fun hsplit => hs ?_, hp⟩
  simp only
  rw [hsplit, UInt64.add_assoc]

/-- **What a call does to the tallies.** -/
theorem parseInto_counts (h : parseInto E host enabled shim b out = some (ok, m, shim')) :
    Counts enabled ok shim.stats shim'.stats := by
  unfold parseInto at h
  cases enabled with
  | false => exact finishStock_counts (Option.some.inj h)
  | true =>
    simp only [Bool.not_true, Bool.false_eq_true, if_false] at h
    split at h
    · cases h
    split at h
    · split at h
      · cases h
      · cases h
        refine ⟨rfl, fun hsplit => ?_, by simp⟩
        simp only
        rw [hsplit, UInt64.add_assoc, UInt64.add_comm shim.stats.fallbackUsed, ← UInt64.add_assoc]
      · exact fallBack_counts (Option.some.inj h)
    · exact fallBack_counts (Option.some.inj h)

theorem Tallied.snoc {stats stats' : Stats} {calls : List (Bool × Buffer)}
    {a : Option FIX.Message} (h : Tallied E host stats calls) (ha : answer E host enabled b = some a)
    (hc : Counts enabled a.isSome stats stats') :
    Tallied E host stats' (calls ++ [(enabled, b)]) where
  attempted := by
    rw [hc.attempted, h.attempted, List.countP_append, List.countP_singleton, UInt64.ofNat_add]
    cases enabled <;> rfl
  split := hc.split h.split
  failed := by
    have hf : fails E host (enabled, b) = a.isNone := by rw [fails, ha]; rfl
    rw [hc.failed, h.failed, List.countP_append, List.countP_singleton, UInt64.ofNat_add, hf]
    cases a <;> rfl

/-- **A run answers as the stateless parser does**, from any session. -/
theorem run_answers (ops : List Op) :
    ∀ p : Process, (run E host p ops).map (fun r => r.1.map seen) = answers E host p.enabled ops := by
  induction ops with
  | nil => exact fun _ => rfl
  | cons op ops ih =>
    intro p
    cases op with
    | setPreparseEnabled on => exact ih _
    | resetStats => exact ih { p with shim := { p.shim with stats := {} } }
    | parseInto b out =>
      have ha := parseInto_answer E host p.enabled p.shim b out
      rw [run, answers, ← ha]
      rcases parseInto E host p.enabled p.shim b out with _ | ⟨ok, m, shim⟩
      · rfl
      · simp only [Option.map_some]
        rw [← ih { p with shim := shim }, Option.map_map, Option.map_map]
        rfl

/-- **The tallies stay exact along a run.** -/
theorem run_tallied (ops : List Op) :
    ∀ {p p' : Process} {calls : List (Bool × Buffer)} {rs : List (Bool × FIX.Message)},
      Tallied E host p.shim.stats calls → run E host p ops = some (rs, p') →
        Tallied E host p'.shim.stats (callsSinceReset p.enabled calls ops) := by
  induction ops with
  | nil =>
    intro p p' calls rs ht h
    cases h
    exact ht
  | cons op ops ih =>
    intro p p' calls rs ht h
    cases op with
    | setPreparseEnabled on => exact ih (p := { p with enabled := on }) ht h
    | resetStats =>
      exact ih (p := { p with shim := { p.shim with stats := {} } }) ⟨rfl, rfl, rfl⟩ h
    | parseInto b out =>
      have ha := parseInto_answer E host p.enabled p.shim b out
      rw [run] at h
      rcases hp : parseInto E host p.enabled p.shim b out with _ | ⟨ok, m, shim⟩
      · rw [hp] at h
        cases h
      · rw [hp] at h ha
        obtain ⟨r, hr, hrs⟩ := Option.map_eq_some_iff.1 h
        cases hrs
        have hok : (seen (ok, m)).isSome = ok := by cases ok <;> rfl
        refine ih (p := { p with shim := shim }) (ht.snoc ha.symm ?_) hr
        rw [hok]
        exact parseInto_counts hp

/-- **A session is a stateless parser with exact tallies.**  Whatever its index
    and its scratch array hold at first, a run gives each `parse_into` call the
    answer of the stateless parser, a function of the flag and the buffer, and
    after it the tallies count the calls since the last reset. -/
theorem run_stateless (E : Engine) (host : Host) (enabled : Bool) (idx : FieldIndex)
    (scratch : Vector PreScanField kMaxFields) (ops : List Op) :
    (run E host ⟨enabled, idx, scratch, {}⟩ ops).map (fun r => r.1.map seen) =
        answers E host enabled ops ∧
      ∀ rs p, run E host ⟨enabled, idx, scratch, {}⟩ ops = some (rs, p) →
        Tallied E host p.shim.stats (callsSinceReset enabled [] ops) :=
  ⟨run_answers ops _, fun _ _ h => run_tallied ops ⟨rfl, rfl, rfl⟩ h⟩

/-- A host without AVX2. -/
def plainHost : Host := ⟨false, false⟩

/-- A call with the pre-parser off, one with it on, and one that fails. -/
def plainOps : List Op :=
  [.setPreparseEnabled false, .parseInto (ascii "8=F\x01".toList) .fresh, .setPreparseEnabled true,
    .parseInto (ascii "8=F\x01".toList) .fresh, .parseInto (ascii "8=F".toList) .fresh]

set_option maxRecDepth 8000 in
theorem run_stateless_plain :
    ∃ rs p, run (plainRules.engine plainConvertor) plainHost
        ⟨true, .fresh, .replicate _ default, {}⟩ plainOps = some (rs, p) ∧
      Tallied (plainRules.engine plainConvertor) plainHost p.shim.stats
        (callsSinceReset true [] plainOps) := by
  have hsome : (run (plainRules.engine plainConvertor) plainHost
      ⟨true, .fresh, .replicate _ default, {}⟩ plainOps).isSome := by decide
  obtain ⟨⟨rs, p⟩, hrun⟩ := Option.isSome_iff_exists.1 hsome
  exact ⟨rs, p, hrun, (run_stateless (plainRules.engine plainConvertor) plainHost true .fresh
    (.replicate _ default) plainOps).2 rs p hrun⟩

end

end Shim
end SwiftFIX
