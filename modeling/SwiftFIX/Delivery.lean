/-
  What a session makes of its buffers, over whole runs.

  * `run_isSome`: every run of calls on buffers below 4 GiB goes to its end,
    whatever the session held and however QuickFIX sorts;
  * `parseInto_rendered`: a rendered list of pairs arrives as the message of its
    pairs, whether the pre-parser is on or off.
-/
import SwiftFIX.Handoff
import SwiftFIX.PreScan
import SwiftFIX.Rendered

namespace SwiftFIX

open Decimal Delimited EarlyExit FIX

namespace Shim

/-! ## Runs go to their end -/

/-- When every field can be built, `setFromPreScan` sorts them, or throws
    `InvalidMessage`. -/
theorem setFromPreScan_eq (R : FieldRules) {b : Buffer} {pfs : List PreScanField}
    {fields : List FieldBase} (h : List.Forall₂ (fun pf g => pf.field b = .ok g) pfs fields)
    (out : FIX.Message) : R.setFromPreScan b pfs false out =
      match R.sortParts (R.setFields fields (.fresh, .header)).1 with
      | .ok m => .ok m
      | .error left => .error (.threw left) := by
  rw [FieldRules.setFromPreScan, FieldRules.preScanLoop_eq h, ok_bind, R.clear_eq]
  cases R.sortParts (R.setFields fields (.fresh, .header)).1 <;> simp

section
variable (E : Engine) (host : Host)

theorem answer_defined (enabled : Bool) {b : Buffer} (hb : b.length < 2 ^ 32) :
    (answer E host enabled b).isSome := by
  cases enabled with
  | false => rfl
  | true =>
    have hr := (defaultScanner host).result_eq b .fresh
    rcases hv : (defaultScanner host).verdict b with ⟨st, v⟩
    rw [hv] at hr
    unfold answer
    rw [hv]
    simp only [Bool.not_true, Bool.false_eq_true, if_false]
    split
    · rename_i hfast
      obtain rfl : st = .ok := by simp_all
      obtain ⟨F, -, hF, rfl⟩ := ((defaultScanner host).result_ok hb .fresh).1 hr
      have hentries : F.index.entries = places 0 F.fields := rfl
      rw [hentries, setFromPreScan_eq E.toFieldRules (fields_places hF)]
      cases E.sortParts (E.setFields (F.fields.map fastField) (.fresh, .header)).1 <;> rfl
    · rfl

/-- The buffer of a call is below 4 GiB. -/
def Op.Short : Op → Prop
  | .parseInto b _ => b.length < 2 ^ 32
  | .setPreparseEnabled _ | .resetStats => True

instance : DecidablePred Op.Short
  | .parseInto b _ => inferInstanceAs (Decidable (b.length < 2 ^ 32))
  | .setPreparseEnabled _ | .resetStats => .isTrue trivial

theorem answers_defined {ops : List Op} (h : ∀ op ∈ ops, op.Short) :
    ∀ enabled, (answers E host enabled ops).isSome := by
  induction ops with
  | nil => exact fun _ => rfl
  | cons op ops ih =>
    intro enabled
    rw [List.forall_mem_cons] at h
    cases op with
    | setPreparseEnabled on => exact ih h.2 on
    | resetStats => exact ih h.2 enabled
    | parseInto b out =>
      obtain ⟨a, ha⟩ := Option.isSome_iff_exists.1 (answer_defined E host enabled h.1)
      rw [answers, ha]
      simp only [Option.isSome_map]
      exact ih h.2 enabled

theorem tallied_cleared {stats : Stats} (h : stats = {}) : Tallied E host stats [] := by
  rw [h]
  exact ⟨rfl, rfl, rfl⟩

/-- **Every run goes to its end**, from any session. -/
theorem run_isSome (p : Process) (ops : List Op) (h : ∀ op ∈ ops, op.Short) :
    (run E host p ops).isSome := by
  have hrun := congrArg Option.isSome (@run_answers E host ops p)
  rw [Option.isSome_map] at hrun
  rw [hrun]
  exact answers_defined E host h p.enabled

end

/-! ## Frames with tags of an `int` -/

section
variable {R : FieldRules} {C : IntConvertor} {host : Host}

theorem convert_tag {f : Field} (ht : Tag f.tag) (hsmall : f.number < 2 ^ 31) :
    C.convert f.tag = some (castInt f.number) := by
  rw [castInt, if_pos hsmall]
  exact C.convert_digits ht.ne_nil ht.1.1 hsmall

theorem stock_bytes {F : Frame} (hsmall : ∀ f ∈ F.fields, f.number < 2 ^ 31) :
    stock (R.engine C) F.bytes = (R.sortParts (fastMessage R F)).toOption := by
  have hgs : List.Forall₂ (StockField C) F.fields (F.fields.map fastField) := by
    rw [List.forall₂_map_right_iff, List.forall₂_same]
    exact fun f hf => ⟨convert_tag (F.fields_tag f hf).1 (hsmall f hf), rfl, rfl⟩
  have hlen : F.fields.length ≤ F.bytes.length := length_le_wire F.fields
  obtain ⟨n, hn⟩ := Nat.exists_eq_add_of_le hlen
  have hloop : R.stringLoop C (F.bytes.length + 1) F.bytes .fresh .header =
      .ok (fastMessage R F) := by
    have hwire := (@stringLoop_wire R C F.fields [] (fastMessage R F) F.fields_tag
      (F.bytes.length + 1) (.fresh, .header) (Nat.le_succ_of_le hlen)).2 ⟨F.fields.map fastField, hgs, by
        rw [Nat.succ_sub hlen]
        rfl⟩
    rwa [List.append_nil] at hwire
  refine Option.ext fun m => stock_eq_some.trans ?_
  rw [hloop]
  rcases hsort : R.sortParts (fastMessage R F) with left | m'
  · simp [Except.toOption, hsort]
  · simp [Except.toOption, hsort]

/-- **The answer on a frame with tags of an `int`** is the same on both paths:
    the message of its fields. -/
theorem answer_small {F : Frame} (hacc : (defaultScanner host).Accepts F)
    (hlt : F.bytes.length < 2 ^ 32) (hsmall : ∀ f ∈ F.fields, f.number < 2 ^ 31) (enabled : Bool) :
    answer (R.engine C) host enabled F.bytes = some (R.sortParts (fastMessage R F)).toOption := by
  have hstock := stock_bytes (R := R) (C := C) hsmall
  cases enabled with
  | false => exact congrArg some hstock
  | true =>
    rw [answer_frame R C host (verdict_frame hlt hacc List.prefix_rfl) List.prefix_rfl, hstock]
    split
    · rfl
    · cases R.sortParts (fastMessage R F) <;> rfl

end

/-! ## Rendered lists -/

/-- The QuickFIX field of a pair. -/
def pairBase (p : ℤ × List Char) : FieldBase :=
  ⟨p.1, ascii p.2, calculateMetrics (pairField p).bytes⟩

theorem fastField_pairField {p : ℤ × List Char} (h1 : 1 ≤ p.1) (h2 : p.1 < 2 ^ 31) :
    fastField (pairField p) = pairBase p := by
  have hcast : castInt (pairField p).number = p.1 := by
    rw [pairField_number h1, castInt, if_pos (by omega)]
    omega
  rw [fastField, hcast]
  rfl

theorem fields_small {F : Frame} {tags : List (ℤ × List Char)}
    (hF : F.fields = (framePairs tags).map pairField) (h1 : ∀ p ∈ tags, 1 ≤ p.1)
    (h2 : ∀ p ∈ tags, p.1 < 2 ^ 31) :
    F.fields.map fastField = (framePairs tags).map pairBase ∧ ∀ f ∈ F.fields, f.number < 2 ^ 31 := by
  have hpairs : ∀ p ∈ framePairs tags, 1 ≤ p.1 ∧ p.1 < 2 ^ 31 :=
    framePairs_tags (P := fun n => 1 ≤ n ∧ n < 2 ^ 31) (by decide) (by decide) (by decide)
      fun p hp => ⟨h1 p hp, h2 p hp⟩
  rw [hF]
  constructor
  · rw [List.map_map]
    exact List.map_congr_left fun p hp => fastField_pairField (hpairs p hp).1 (hpairs p hp).2
  · rw [List.forall_mem_map]
    intro p hp
    obtain ⟨hp1, hp2⟩ := hpairs p hp
    rw [pairField_number hp1]
    omega

section
variable (R : FieldRules)

/-- What a caller gets for a rendered list: the message that QuickFIX sorts its
    fields into, or nothing when it throws `InvalidMessage`. -/
def delivered (tags : List (ℤ × List Char)) : Option FIX.Message :=
  (R.sortParts (R.setFields ((framePairs tags).map pairBase) (.fresh, .header)).1).toOption

/-- **The message of a list**: each part holds the pairs that belong to it, the
    structure is judged by their order, and the lengths add up to the frame. -/
structure Delivers (tags : List (ℤ × List Char)) (b : Buffer) (m : FIX.Message) : Prop where
  parts : ∀ part, (m.part part).Perm
    (((framePairs tags).map pairBase).filter fun g => R.partOf g.tag = part)
  structured : m.validStructure = true ↔
    Structured ((framePairs tags).map fun p => R.partOf p.1)
  length : (m.fields.map (·.metrics.length)).sum = b.length

variable {R}

/-- Sorting permutes within the parts, and leaves the rest of a message. -/
theorem sortPart_part {part : FieldType} {m m' : FIX.Message} (h : R.sortPart part m = .ok m') :
    (∀ p, (m'.part p).Perm (m.part p)) ∧ m'.validStructure = m.validStructure := by
  unfold FieldRules.sortPart at h
  split at h
  · cases h
  rename_i fields hs
  cases h
  have hp := R.sortFields_perm hs
  constructor
  · intro p
    cases part <;> cases p <;> first | exact hp | exact .refl _
  · cases part <;> rfl

theorem sortParts_part {m m' : FIX.Message} (h : R.sortParts m = .ok m') :
    (∀ p, (m'.part p).Perm (m.part p)) ∧ m'.validStructure = m.validStructure := by
  obtain ⟨m₁, h₁, h⟩ := bind_eq_ok.1 h
  obtain ⟨m₂, h₂, h₃⟩ := bind_eq_ok.1 h
  obtain ⟨hp₁, hv₁⟩ := sortPart_part h₁
  obtain ⟨hp₂, hv₂⟩ := sortPart_part h₂
  obtain ⟨hp₃, hv₃⟩ := sortPart_part h₃
  exact ⟨fun p => (hp₃ p).trans ((hp₂ p).trans (hp₁ p)), hv₃.trans (hv₂.trans hv₁)⟩

theorem delivers_of_delivered {tags : List (ℤ × List Char)} {F : Frame} {m : FIX.Message}
    (hF : F.fields = (framePairs tags).map pairField) (hpos : ∀ p ∈ tags, 1 ≤ p.1)
    (h : delivered R tags = some m) : Delivers R tags F.bytes m := by
  have htags : ∀ g ∈ (framePairs tags).map pairBase, g.tag ≠ 0 := by
    rw [List.forall_mem_map]
    refine framePairs_tags (P := fun n => n ≠ 0) (by decide) (by decide) (by decide) fun p hp => ?_
    have := hpos p hp
    omega
  have hjudged := FieldRules.judged_setFields (E := R) htags
  have hsort : R.sortParts (R.setFields ((framePairs tags).map pairBase) (.fresh, .header)).1 =
      .ok m := by
    rw [delivered] at h
    rcases hs : R.sortParts (R.setFields ((framePairs tags).map pairBase) (.fresh, .header)).1 with
      left | m'
    · rw [hs] at h
      cases h
    · rw [hs] at h
      exact congrArg Except.ok (Option.some.inj h)
  obtain ⟨hparts, hvalid⟩ := sortParts_part hsort
  refine ⟨fun part => (hparts part).trans ?_, ?_, ?_⟩
  · rw [hjudged.parts part]
  · have hiff : Structured ((framePairs tags).map fun p => R.partOf p.1) ↔
        Phases.InOrder R.rankOf ((framePairs tags).map pairBase) := by
      rw [structured_iff, Phases.inOrder_map, Phases.inOrder_map]
      rfl
    rw [hvalid, hiff]
    constructor
    · intro htrue
      by_contra hbroken
      rw [(hjudged.broken hbroken).1] at htrue
      cases htrue
    · exact fun hin => (hjudged.inOrder hin).1
  · have hperm : m.fields.Perm ((framePairs tags).map pairBase) :=
      (FieldRules.sortParts_perm hsort).trans (FieldRules.setFields_perm _ _)
    have hbase : ((framePairs tags).map pairBase).map (·.metrics.length) =
        (F.fields.map metricsOf).map FieldMetrics.length := by
      rw [hF, List.map_map, List.map_map, List.map_map]
      rfl
    rw [(hperm.map (·.metrics.length)).sum_nat, hbase, sum_lengths]
    rfl

/-- **A rendered list is delivered as its pairs.**  On a list of at most 253
    pairs with tags of an `int`, `parse_into` is defined and leaves the message
    of the pairs, whether the pre-parser is on or off, whichever scanner runs,
    and whatever the session and the message held. -/
theorem parseInto_rendered (R : FieldRules) (C : IntConvertor) (tags : List (ℤ × List Char))
    (h : Renderable tags) (hlen : tags.length ≤ 253) (hsmall : ∀ p ∈ tags, p.1 < 2 ^ 31)
    (b : Buffer) (hr : render tags = some b) (hlt : b.length < 2 ^ 32) :
    (∀ (host : Host) (enabled : Bool) (shim : SessionShim) (out : FIX.Message),
      (parseInto (R.engine C) host enabled shim b out).map (fun r => seen (r.1, r.2.1)) =
        some (delivered R tags)) ∧
    ∀ m, delivered R tags = some m → Delivers R tags b m := by
  have hpos : ∀ p ∈ tags, 1 ≤ p.1 := fun p hp => (h.range p hp).1
  obtain ⟨F, hc, rfl, hF⟩ := h.exists_frame hlen hr hlt
  obtain ⟨hfast, hnumbers⟩ := fields_small hF hpos hsmall
  refine ⟨fun host enabled shim out => ?_, fun m hm => delivers_of_delivered hF hpos hm⟩
  rw [parseInto_answer, answer_small (F.accepts hc _) hlt hnumbers, fastMessage, hfast]
  rfl

set_option maxRecDepth 4000 in
theorem parseInto_rendered_heartbeat :
    ∃ b m, render heartbeatTags = some b ∧ delivered plainRules heartbeatTags = some m ∧
      Delivers plainRules heartbeatTags b m := by
  have hlen : (render heartbeatTags).isSome := by decide
  obtain ⟨b, hb⟩ := Option.isSome_iff_exists.1 hlen
  have hshort : b.length < 2 ^ 32 := by
    have := length_heartbeat
    rw [hb] at this
    rw [Option.some.inj this]
    decide
  have hm : (delivered plainRules heartbeatTags).isSome := by decide
  obtain ⟨m, hm⟩ := Option.isSome_iff_exists.1 hm
  exact ⟨b, m, hb, hm, (parseInto_rendered plainRules plainConvertor heartbeatTags
    heartbeatTags_renderable (by decide) (by decide) b hb hshort).2 m hm⟩

end

end Shim
end SwiftFIX
