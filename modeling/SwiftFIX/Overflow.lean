/-
  The shim with the `int` in which the patch sums the bytes of a field.

  The overflow of an `int` is undefined, and the model of a call wraps in 32 bits
  instead (`FIX.calculateMetrics`).  Here every addition of the loop is checked,
  and a call that fails a check is undefined.

  * `Shim.parseInto_checked`: the checks change nothing, except in a call on the
    fast path with a field whose bytes sum to `2^31` or more;
  * `Shim.run_defined`: which runs reach undefined behaviour.
-/
import SwiftFIX.Delivery

namespace SwiftFIX

open Decimal Delimited EarlyExit FIX

namespace Overflow

/-! ## The checked call -/

/-- `checksum += (unsigned char)( *str )` over the bytes of a range. -/
def sumLoop : List Byte → ℕ → Except Fault ℕ
  | [], checksum => .ok checksum
  | c :: s, checksum =>
    if checksum + c.toNat < 2 ^ 31 then sumLoop s (checksum + c.toNat) else .error .stuck

/-- `calculateMetrics` over the bytes of a range. -/
def calculateMetrics (s : List Byte) : Except Fault FieldMetrics := do
  let checksum ← sumLoop s 0
  .ok ⟨s.length, checksum⟩

/-- The `FieldBase` constructor from pointers. -/
def field (b : Buffer) (pf : PreScanField) : Except Fault FieldBase := do
  let string ← charRange b pf.valueStart pf.valueEnd
  let bytes ← charRange b pf.tagStart (pf.valueEnd + 1)
  let metrics ← calculateMetrics bytes
  .ok ⟨pf.tag, string, metrics⟩

/-- The loop over the pre-scanned fields. -/
def preScanLoop (E : FieldRules) (b : Buffer) :
    List PreScanField → FIX.Message → FieldType → Except Fault FIX.Message
  | [], m, _ => .ok m
  | pf :: pfs, m, type => do
    let field ← field b pf
    let (m, type) := E.setField m type field
    preScanLoop E b pfs m type

/-- `Message::setFromPreScan`. -/
def setFromPreScan (E : FieldRules) (b : Buffer) (fields : List PreScanField) (doValidation : Bool)
    (out : FIX.Message) : Except Fault FIX.Message := do
  let m ← preScanLoop E b fields (E.clear out) .header
  match E.sortParts m with
  | .error left => .error (.threw left)
  | .ok m => if doValidation && !E.validate m then .error (.threw m) else .ok m

open Shim (SessionShim Op Process translate requiresDictionaryParse finishStock fallBack)

section
variable (E : Engine)

/-- `apply_field_index`. -/
def applyFieldIndex (entries : List FieldEntry) (b : Buffer) (out : FIX.Message)
    (scratch : Vector PreScanField kMaxFields) :
    Option (Bool × FIX.Message × Vector PreScanField kMaxFields) :=
  match translate entries 0 scratch with
  | none => none
  | some scratch =>
    match setFromPreScan E.toFieldRules b (scratch.toList.take entries.length) false out with
    | .ok m => some (true, m, scratch)
    | .error (.threw left) => some (false, left, scratch)
    | .error .stuck => none

/-- `SessionShim::parse_into(buffer, out)`. -/
def parseInto (host : Host) (enabled : Bool) (shim : SessionShim) (b : Buffer) (out : FIX.Message) :
    Option (Bool × FIX.Message × SessionShim) :=
  if !enabled then some (finishStock E b out shim)
  else
    let stats := { shim.stats with preparseAttempted := shim.stats.preparseAttempted + 1 }
    match (defaultScanner host).scan b shim.idx with
    | .stuck => none
    | .ret s idx =>
      let shim := { shim with idx := idx, stats := stats }
      if s = .ok && !requiresDictionaryParse idx.entries then
        match applyFieldIndex E idx.entries b out shim.scratch with
        | none => none
        | some (true, m, scratch) =>
          some (true, m, { shim with
            scratch := scratch
            stats := { stats with preparseSucceeded := stats.preparseSucceeded + 1 } })
        | some (false, left, scratch) => some (fallBack E b left { shim with scratch := scratch })
      else some (fallBack E b out shim)

/-- A run of calls, as `Shim.run` has it; `none` when a call is undefined. -/
def run (host : Host) (p : Process) : List Op → Option (List (Bool × FIX.Message) × Process)
  | [] => some ([], p)
  | .setPreparseEnabled on :: ops => run host { p with enabled := on } ops
  | .parseInto b out :: ops =>
    match parseInto E host p.enabled p.shim b out with
    | none => none
    | some (ok, m, shim) =>
      (run host { p with shim := shim } ops).map fun r => ((ok, m) :: r.1, r.2)
  | .resetStats :: ops => run host { p with shim := { p.shim with stats := {} } } ops

end

/-! ## The checks change nothing else -/

open Shim (byteSum fastField)

theorem sumLoop_eq (s : List Byte) :
    ∀ {n : ℕ}, n < 2 ^ 31 →
      sumLoop s n = if n + byteSum s < 2 ^ 31 then .ok (n + byteSum s) else .error .stuck := by
  induction s with
  | nil =>
    intro n hn
    rw [sumLoop, if_pos (show n + byteSum [] < 2 ^ 31 from hn)]
    rfl
  | cons c s ih =>
    intro n _
    rw [sumLoop, Shim.byteSum_cons, ← Nat.add_assoc]
    by_cases h : n + c.toNat < 2 ^ 31
    · rw [if_pos h, ih h]
    · rw [if_neg h, if_neg (by omega)]

/-- **A sum that stays within an `int`** is the one of the model; any other is
    undefined. -/
theorem calculateMetrics_eq (s : List Byte) : calculateMetrics s =
    if byteSum s < 2 ^ 31 then .ok (FIX.calculateMetrics s) else .error .stuck := by
  rw [calculateMetrics, sumLoop_eq s (by decide), Nat.zero_add]
  split
  · rename_i h
    have hsum := Shim.checksum_calculateMetrics s
    rw [u32_of_lt (h.trans (by decide))] at hsum
    rw [ok_bind, ← hsum]
    rfl
  · rfl

/-- A field of the buffer is built unless its sum overflows. -/
def Builds (b : Buffer) (pf : PreScanField) (f : Field) : Prop :=
  field b pf = if byteSum f.bytes < 2 ^ 31 then .ok (fastField f) else .error .stuck

theorem builds_place (pre t : List Byte) (f : Field) :
    Builds (pre ++ (f.bytes ++ t)) (Shim.preScanField (f.place pre.length)) f := by
  obtain ⟨hvalue, hbytes⟩ := Shim.charRange_place pre t f
  rw [Builds, field, Shim.preScanField, Field.place]
  simp only
  rw [hvalue, ok_bind, hbytes, ok_bind, calculateMetrics_eq]
  split <;> rfl

theorem builds_places {b : Buffer} {fs : List Field} (h : wire fs <+: b) :
    List.Forall₂ (Builds b) ((places 0 fs).map Shim.preScanField) fs := by
  rw [List.forall₂_map_left_iff]
  exact forall₂_places (R := fun b e f => Builds b (Shim.preScanField e) f) builds_place h

section
variable {E : FieldRules} {b : Buffer} {pfs : List PreScanField} {fs : List Field}

/-- Some field of the list overflows. -/
def Overflowing (fs : List Field) : Prop := ∃ f ∈ fs, 2 ^ 31 ≤ byteSum f.bytes

theorem preScanLoop_eq (h : List.Forall₂ (Builds b) pfs fs) (hsmall : ¬ Overflowing fs) :
    ∀ m type, preScanLoop E b pfs m type = .ok (E.setFields (fs.map fastField) (m, type)).1 := by
  induction h with
  | nil => exact fun _ _ => rfl
  | @cons pf f pfs fs hf _ ih =>
    intro m type
    have hlt : byteSum f.bytes < 2 ^ 31 := not_le.1 fun hle => hsmall ⟨f, List.mem_cons_self, hle⟩
    rw [preScanLoop, hf, if_pos hlt, ok_bind]
    exact ih (fun ⟨g, hg, hle⟩ => hsmall ⟨g, List.mem_cons_of_mem f hg, hle⟩) _ _

theorem preScanLoop_stuck (h : List.Forall₂ (Builds b) pfs fs) (hlarge : Overflowing fs) :
    ∀ m type, preScanLoop E b pfs m type = .error .stuck := by
  induction h with
  | nil =>
    obtain ⟨f, hf, -⟩ := hlarge
    exact absurd hf List.not_mem_nil
  | @cons pf f pfs fs hf _ ih =>
    intro m type
    rw [preScanLoop, hf]
    by_cases hlt : byteSum f.bytes < 2 ^ 31
    · rw [if_pos hlt, ok_bind]
      obtain ⟨g, hg, hle⟩ := hlarge
      refine ih ⟨g, (List.mem_cons.1 hg).resolve_left ?_, hle⟩ _ _
      rintro rfl
      exact absurd hlt (not_lt.2 hle)
    · rw [if_neg hlt]
      rfl

/-- `setFromPreScan` on the fields of a frame, where no sum overflows. -/
theorem setFromPreScan_eq (h : wire fs <+: b) (hsmall : ¬ Overflowing fs) (v : Bool)
    (out : FIX.Message) :
    setFromPreScan E b ((places 0 fs).map Shim.preScanField) v out =
      E.setFromPreScan b ((places 0 fs).map Shim.preScanField) v out := by
  have hloop : preScanLoop E b ((places 0 fs).map Shim.preScanField) (E.clear out) .header =
      E.preScanLoop b ((places 0 fs).map Shim.preScanField) (E.clear out) .header :=
    (preScanLoop_eq (builds_places h) hsmall _ _).trans
      (FieldRules.preScanLoop_eq (Shim.fields_places h) _ _).symm
  unfold setFromPreScan FieldRules.setFromPreScan
  exact hloop ▸ rfl

theorem setFromPreScan_stuck (h : wire fs <+: b) (hlarge : Overflowing fs) (v : Bool)
    (out : FIX.Message) :
    setFromPreScan E b ((places 0 fs).map Shim.preScanField) v out = .error .stuck := by
  rw [setFromPreScan, preScanLoop_stuck (builds_places h) hlarge]
  rfl

end
end Overflow

/-! ## Which calls overflow -/

namespace Shim

/-- A call with the pre-parser on overflows: the buffer begins with a frame that
    the default scanner accepts, without a group counter, and the bytes of one
    of its fields sum to `2^31` or more. -/
def Overflows (host : Host) (b : Buffer) : Prop :=
  ∃ F : Frame, (defaultScanner host).Accepts F ∧ F.bytes <+: b ∧
    (∀ f ∈ F.fields, isKnownGroupCounter f.number = false) ∧ Overflow.Overflowing F.fields

theorem byteSum_le (s : List Byte) : byteSum s ≤ 255 * s.length := by
  induction s with
  | nil => exact Nat.zero_le _
  | cons c s ih =>
    have hc := c.toNat_lt
    rw [byteSum_cons, List.length_cons]
    omega

/-- It takes more than 8 MB. -/
theorem Overflows.length {host : Host} {b : Buffer} (h : Overflows host b) :
    8421504 < b.length := by
  obtain ⟨F, -, hF, -, f, hf, hle⟩ := h
  have hsum := byteSum_le f.bytes
  have hin : f.bytes.length ≤ F.bytes.length := by
    obtain ⟨fs, gs, hfs⟩ := List.append_of_mem hf
    rw [Message.bytes, hfs, wire_append, wire_cons, List.length_append, List.length_append]
    omega
  have := hF.length_le
  omega

section
variable {E : Engine} {host : Host} {b : Buffer}

theorem applyFieldIndex_checked {F : Frame} (hF : F.bytes <+: b) (out : FIX.Message)
    (scratch : Vector PreScanField kMaxFields) :
    (¬ Overflow.Overflowing F.fields → Overflow.applyFieldIndex E F.index.entries b out scratch =
        applyFieldIndex E F.index.entries b out scratch) ∧
      (Overflow.Overflowing F.fields →
        Overflow.applyFieldIndex E F.index.entries b out scratch = none) := by
  obtain ⟨scratch', htranslate, htake⟩ := translate_index F scratch
  have htake : scratch'.toList.take F.index.entries.length =
      (places 0 F.fields).map preScanField := by
    rw [← htake]
    congr 1
    exact places_length F.fields 0
  rw [Overflow.applyFieldIndex, applyFieldIndex, htranslate]
  simp only [htake]
  constructor
  · intro hsmall
    exact Overflow.setFromPreScan_eq hF hsmall false out ▸ rfl
  · intro hlarge
    rw [Overflow.setFromPreScan_stuck hF hlarge]

/-- Which frame overflows is decided by the one the buffer begins with. -/
theorem overflows_iff (hb : b.length < 2 ^ 32) {F : Frame}
    (hacc : (defaultScanner host).Accepts F) (hF : F.bytes <+: b)
    (hgroup : ∀ f ∈ F.fields, isKnownGroupCounter f.number = false) :
    Overflows host b ↔ Overflow.Overflowing F.fields := by
  constructor
  · rintro ⟨G, -, hG, -, hlarge⟩
    rwa [Scanner.frame_unique hb hF hG]
  · exact fun hlarge => ⟨F, hacc, hF, hgroup, hlarge⟩

/-- **The checks change nothing** in a call that does not overflow; a call that
    does is undefined. -/
theorem parseInto_checked (hb : b.length < 2 ^ 32) (enabled : Bool) (shim : SessionShim)
    (out : FIX.Message) :
    (¬ (enabled = true ∧ Overflows host b) →
      Overflow.parseInto E host enabled shim b out = parseInto E host enabled shim b out) ∧
    (enabled = true ∧ Overflows host b → Overflow.parseInto E host enabled shim b out = none) := by
  cases enabled with
  | false => exact ⟨fun _ => rfl, fun h => absurd h.1 Bool.false_ne_true⟩
  | true =>
    have hr := (defaultScanner host).result_eq b shim.idx
    unfold Overflow.parseInto parseInto
    rcases hs : (defaultScanner host).scan b shim.idx with ⟨st, idx⟩ | _
    swap
    · rw [hs] at hr
      cases hr
    by_cases hfast : st = .ok && !requiresDictionaryParse idx.entries
    · obtain ⟨hok, hgroup⟩ := (Bool.and_eq_true _ _).mp hfast
      obtain rfl := of_decide_eq_true hok
      rw [Bool.not_eq_true'] at hgroup
      have hres : ((defaultScanner host).scan b shim.idx).result = some (.ok, idx.view) := by
        rw [hs]
        rfl
      obtain ⟨F, hacc, hF, hview⟩ := ((defaultScanner host).result_ok hb shim.idx).1 hres
      have hentries : idx.entries = F.index.entries := congrArg IndexView.entries hview
      have hnone : ∀ f ∈ F.fields, isKnownGroupCounter f.number = false := by
        rw [hentries] at hgroup
        simpa [Message.index, requiresDictionaryParse_places] using hgroup
      have hover := overflows_iff hb hacc hF hnone
      obtain ⟨hsame, hstuck⟩ := applyFieldIndex_checked (E := E) hF out shim.scratch
      rw [← hentries] at hsame hstuck
      simp only [Bool.not_true, Bool.false_eq_true, if_false, decide_true, Bool.true_and, hgroup,
        Bool.not_false, if_true, true_and, hover]
      constructor
      · intro hsmall
        exact hsame hsmall ▸ rfl
      · intro hlarge
        rw [hstuck hlarge]
    · simp only [Bool.not_true, Bool.false_eq_true, if_false, hfast, true_and]
      refine ⟨fun _ => trivial, ?_⟩
      rintro ⟨F, hacc, hF, hgroup, -⟩
      -- an accepted frame without a group counter is on the fast path
      have hok := ((defaultScanner host).result_ok hb shim.idx).2 ⟨F, hacc, hF, rfl⟩
      rw [hs, Outcome.result, Option.some.injEq, Prod.mk.injEq] at hok
      have hentries : idx.entries = F.index.entries := congrArg IndexView.entries hok.2
      refine absurd ?_ hfast
      rw [hentries, hok.1]
      simpa [Message.index, requiresDictionaryParse_places] using hgroup

end

/-! ## Runs -/

/-- The `parse_into` calls of a run that starts with the flag `enabled`. -/
def callsOf (enabled : Bool) : List Op → List (Bool × Buffer)
  | [] => []
  | .setPreparseEnabled on :: ops => callsOf on ops
  | .parseInto b _ :: ops => (enabled, b) :: callsOf enabled ops
  | .resetStats :: ops => callsOf enabled ops

section
variable (E : Engine) (host : Host)

/-- Where no call overflows, the checks change nothing. -/
theorem run_checked {ops : List Op} (h : ∀ op ∈ ops, op.Short) :
    ∀ p : Process, (∀ c ∈ callsOf p.enabled ops, ¬ (c.1 = true ∧ Overflows host c.2)) →
      Overflow.run E host p ops = run E host p ops := by
  induction ops with
  | nil => exact fun _ _ => rfl
  | cons op ops ih =>
    intro p hcalls
    rw [List.forall_mem_cons] at h
    cases op with
    | setPreparseEnabled on => exact ih h.2 { p with enabled := on } hcalls
    | resetStats => exact ih h.2 { p with shim := { p.shim with stats := {} } } hcalls
    | parseInto b out =>
      rw [callsOf, List.forall_mem_cons] at hcalls
      rw [Overflow.run, run, (parseInto_checked h.1 p.enabled p.shim out).1 hcalls.1]
      rcases parseInto E host p.enabled p.shim b out with _ | ⟨ok, m, shim⟩
      · rfl
      · simp only [ih h.2 { p with shim := shim } hcalls.2]

/-- No call of a run that goes to its end overflows. -/
theorem not_overflows_of_run {ops : List Op} (h : ∀ op ∈ ops, op.Short) :
    ∀ p : Process, (Overflow.run E host p ops).isSome →
      ∀ c ∈ callsOf p.enabled ops, ¬ (c.1 = true ∧ Overflows host c.2) := by
  induction ops with
  | nil => exact fun _ _ c hc => absurd hc List.not_mem_nil
  | cons op ops ih =>
    intro p hrun
    rw [List.forall_mem_cons] at h
    cases op with
    | setPreparseEnabled on => exact ih h.2 { p with enabled := on } hrun
    | resetStats => exact ih h.2 { p with shim := { p.shim with stats := {} } } hrun
    | parseInto b out =>
      rw [callsOf, List.forall_mem_cons]
      rw [Overflow.run] at hrun
      rcases hcall : Overflow.parseInto E host p.enabled p.shim b out with _ | ⟨ok, m, shim⟩
      · rw [hcall] at hrun
        cases hrun
      · rw [hcall] at hrun
        simp only [Option.isSome_map] at hrun
        refine ⟨fun hover => ?_, ih h.2 { p with shim := shim } hrun⟩
        rw [(parseInto_checked h.1 p.enabled p.shim out).2 hover] at hcall
        cases hcall

/-- **Undefined behaviour** is reached, from any session, exactly by the runs
    with a call that overflows the `int` of `calculateMetrics`: on the fast path,
    with a field whose bytes sum to `2^31` or more, which takes more than 8 MB. -/
theorem run_defined (p : Process) (ops : List Op) (h : ∀ op ∈ ops, op.Short) :
    ((Overflow.run E host p ops).isSome ↔
        ∀ c ∈ callsOf p.enabled ops, ¬ (c.1 = true ∧ Overflows host c.2)) ∧
      ∀ b, Overflows host b → 8421504 < b.length := by
  refine ⟨⟨not_overflows_of_run E host h p, fun hcalls => ?_⟩, fun b hb => hb.length⟩
  rw [run_checked E host h p hcalls]
  exact run_isSome E host p ops h

end

theorem run_defined_plain :
    (Overflow.run (plainRules.engine plainConvertor) plainHost
      ⟨true, .fresh, .replicate _ default, {}⟩ plainOps).isSome := by
  have hdefined := run_defined (plainRules.engine plainConvertor) plainHost
    ⟨true, .fresh, .replicate _ default, {}⟩ plainOps (by decide)
  have hshort : ∀ c ∈ callsOf true plainOps, c.2.length ≤ 8421504 := by decide
  exact hdefined.1.2 fun c hc hover => absurd (hdefined.2 c.2 hover.2) (not_lt.2 (hshort c hc))

end Shim
end SwiftFIX
