/-
  The bulk stream, from the generator to the sessions.

  * `writeBulk_written`: the stream is the frames of the messages 1, 2, …, each
    as it is `Built`; `write_bulk` raises exactly past the last day of a
    `datetime`, and then nothing is written;
  * `Written.ordered`: sequence numbers and time stamps increase;
  * `Written.splits`: the splitting loop of either scanner takes exactly these
    messages off the stream, and its indexes read back as their pairs;
  * `Written.parsed`: a session gets their messages, and the fast path takes
    exactly those without a repeating group.
-/
import Mathlib.Data.List.OfFn
import SwiftFIX.Messages
import SwiftFIX.Paths
import SwiftFIX.Splits

namespace SwiftFIX
namespace Generator

open Draws FIX Framing Shim

variable {ρ α : Type} (G : Random ρ)

/-! ## The stream -/

/-- **The stream of the messages `ms`**: the frames, one after the other, that
    they are rendered to. -/
structure Written (stream : Buffer) (ms : List (Kind × Tags)) : Prop where
  built : ∀ k (h : k < ms.length), Built ms[k].1 (k + 1) ms[k].2
  frames : ∃ frames : List Buffer, List.Forall₂ (fun m f => render m.2 = some f) ms frames ∧
    stream = frames.flatten

theorem exists_messages {n count : ℕ} {rs : List (Kind × List Byte)}
    (h : List.Forall₂ (fun n r => ∃ tags, Built r.1 (n + 1) tags ∧ render tags = some r.2)
      (List.range' n count) rs) :
    ∃ ms : List (Kind × Tags), ms.length = count ∧
      (∀ k (hk : k < ms.length), Built ms[k].1 (n + k + 1) ms[k].2) ∧
      List.Forall₂ (fun m f => render m.2 = some f) ms (rs.map Prod.snd) := by
  induction count generalizing n rs with
  | zero =>
    rw [List.range'_zero, List.forall₂_nil_left_iff] at h
    subst h
    exact ⟨[], rfl, by simp, .nil⟩
  | succ count ih =>
    rw [List.range'_succ] at h
    obtain ⟨r, rs, ⟨tags, hbuilt, hr⟩, hrs, rfl⟩ := List.forall₂_cons_left_iff.1 h
    obtain ⟨ms, hlen, hms, hframes⟩ := ih hrs
    refine ⟨(r.1, tags) :: ms, by rw [List.length_cons, hlen], fun k hk => ?_, .cons hr hframes⟩
    cases k with
    | zero => exact hbuilt
    | succ k =>
      have hk := hms k (Nat.lt_of_succ_lt_succ hk)
      rwa [show n + (k + 1) + 1 = n + 1 + k + 1 by omega]

theorem guarded_chunks (count : ℕ) : Guarded (count ≤ lastSeq) (seqIs 0) (seqIs count)
    (List.Forall₂ (fun n r => ∃ tags, Built r.1 (n + 1) tags ∧ render tags = some r.2)
      (List.range' 0 count)) (chunks G count) := by
  have h := Guarded.times (fun n => guarded_generateOne G (n := n)) count 0 (Nat.zero_le _)
  rwa [Nat.zero_add] at h

theorem exists_written {count : ℕ} (hcount : count ≤ lastSeq) (seed : ℤ) :
    ∃ stream ms, writeBulk G count seed = some stream ∧ ms.length = count ∧ Written stream ms := by
  obtain ⟨rs, g, hrs, -, hall⟩ := (guarded_chunks G count).steps hcount (BulkGenerator.new G seed) rfl
  obtain ⟨ms, hlen, hbuilt, hframes⟩ := exists_messages hall
  refine ⟨_, ms, by rw [writeBulk, hrs]; rfl, hlen, ⟨fun k hk => ?_, _, hframes, rfl⟩⟩
  have hk := hbuilt k hk
  rwa [Nat.zero_add] at hk

/-- **What `write_bulk` writes.**  Whatever the random source draws, up to
    `lastSeq` messages it writes the stream of that many messages, the `k`-th
    built as message `k`; past that it raises before it writes anything. -/
theorem writeBulk_written (count : ℕ) (seed : ℤ) :
    (count ≤ lastSeq → ∃ stream ms, writeBulk G count seed = some stream ∧ ms.length = count ∧
      Written stream ms) ∧ (lastSeq < count → writeBulk G count seed = none) := by
  refine ⟨fun hcount => exists_written G hcount seed, fun hcount => ?_⟩
  rw [writeBulk, (guarded_chunks G count).raises (not_le.2 hcount) (BulkGenerator.new G seed) rfl]
  rfl

/-- A source that draws the first of everything. -/
def plainRandom : Random Unit where
  seeded _ := ()
  choice _ _ := (0, ())
  choices _ _ := (0, ())
  randint a _ _ := (a, ())
  random _ := (0, ())
  lognormvariate _ _ _ := (1, ())
  choice_lt _ h := h
  choices_lt _ h := List.length_pos_of_ne_nil fun hnil => by simp [hnil] at h
  randint_mem _ h := ⟨le_rfl, h⟩
  lognormvariate_lt _ _ _ := by decide +kernel

/-! ## In order -/

/-- The value of the first field with a tag. -/
def valueOf (tag : ℤ) (tags : Tags) : Option (List Char) :=
  (tags.find? (·.1 = tag)).map Prod.snd

theorem Built.valueOf {kind : Kind} {n : ℕ} {tags : Tags} (h : Built kind n tags) :
    valueOf 34 tags = some (formatInt n) ∧
      ∃ t, timestamp n = some t ∧ Generator.valueOf 52 tags = some t := by
  obtain ⟨sender, -, target, -, t, hstamp, hheader⟩ := h.header
  have htags : tags = tags.take 5 ++ tags.drop 5 := (List.take_append_drop 5 tags).symm
  rw [hheader] at htags
  rw [htags]
  exact ⟨rfl, t, hstamp, rfl⟩

namespace Written
variable {stream : Buffer} {ms : List (Kind × Tags)}

/-- **The messages are in order**: they are numbered from 1, and their time
    stamps strictly increase as strings. -/
theorem ordered (h : Written stream ms) :
    (∀ k (hk : k < ms.length), valueOf 34 ms[k].2 = some (formatInt (k + 1 : ℕ))) ∧
      ∃ stamps : List (List Char), ms.map (fun m => valueOf 52 m.2) = stamps.map some ∧
        stamps.Pairwise (· < ·) := by
  refine ⟨fun k hk => (h.built k hk).valueOf.1, ?_⟩
  have hstamps : ∀ k (hk : k < ms.length), ∃ t, timestamp (k + 1) = some t ∧
      valueOf 52 ms[k].2 = some t := fun k hk => (h.built k hk).valueOf.2
  choose stamp hstamp hvalue using hstamps
  refine ⟨List.ofFn fun k : Fin ms.length => stamp k k.isLt, ?_, ?_⟩
  · refine List.ext_getElem (by simp) fun k hk _ => ?_
    simp [hvalue]
  · refine List.pairwise_ofFn.2 fun j k hjk => ?_
    exact timestamp_lt (hstamp j j.isLt) (hstamp k k.isLt) (Nat.succ_lt_succ hjk)

theorem ordered_plain : ∃ stream, ∃ ms : List (Kind × Tags),
    writeBulk plainRandom 3 7 = some stream ∧
    (∀ k (hk : k < ms.length), valueOf 34 ms[k].2 = some (formatInt (k + 1 : ℕ))) ∧
      ∃ stamps : List (List Char), ms.map (fun m => valueOf 52 m.2) = stamps.map some ∧
        stamps.Pairwise (· < ·) := by
  obtain ⟨stream, ms, hstream, -, hwritten⟩ := exists_written plainRandom (by decide : 3 ≤ lastSeq) 7
  exact ⟨stream, ms, hstream, hwritten.ordered⟩

end Written

/-! ## Split -/

/-- A message as a frame of the grammar. -/
structure Framed (m : Kind × Tags) (F : Frame) : Prop where
  canonical : F.Canonical
  bytes : render m.2 = some F.bytes
  short : F.bytes.length < 2 ^ 32
  fields : F.fields = (framePairs m.2).map pairField
  pairs : (F.f35 :: F.body).map fieldPair = m.2

theorem Built.exists_framed {kind : Kind} {n : ℕ} {tags : Tags} (h : Built kind n tags)
    {f : Buffer} (hr : render tags = some f) : ∃ F : Frame, Framed (kind, tags) F ∧ F.bytes = f := by
  have hlt := h.short hr
  obtain ⟨F, hc, rfl, hfields⟩ := h.renderable.exists_frame (h.length_le.trans (by decide)) hr hlt
  exact ⟨F, ⟨hc, hr, hlt, hfields, (h.renderable.frame_eq hlt hr).2.symm⟩, rfl⟩

namespace Written
variable {stream : Buffer} {ms : List (Kind × Tags)}

theorem exists_built (h : Written stream ms) : ∀ m ∈ ms, ∃ n, Built m.1 n m.2 := by
  intro m hm
  obtain ⟨k, hk, rfl⟩ := List.getElem_of_mem hm
  exact ⟨k + 1, h.built k hk⟩

theorem exists_framed (h : Written stream ms) :
    ∃ Fs : List Frame, List.Forall₂ Framed ms Fs ∧ stream = (Fs.map (·.bytes)).flatten := by
  obtain ⟨frames, hframes, rfl⟩ := h.frames
  have hbuilt := h.exists_built
  clear h
  induction hframes with
  | nil => exact ⟨[], .nil, rfl⟩
  | @cons m f ms frames hr _ ih =>
    rw [List.forall_mem_cons] at hbuilt
    obtain ⟨⟨n, hm⟩, hms⟩ := hbuilt
    obtain ⟨F, hF, rfl⟩ := hm.exists_framed hr
    obtain ⟨Fs, hFs, hflat⟩ := ih hms
    exact ⟨F :: Fs, .cons hF hFs, by rw [List.flatten_cons, hflat]; rfl⟩

end Written

section
variable {m : Kind × Tags} {F : Frame}

theorem Framed.accepts (h : Framed m F) (s : Scanner) : s.Accepts F := F.accepts h.canonical s

theorem Framed.isFrame (h : Framed m F) (s : Scanner) : IsFrame s.answer F.bytes F.index :=
  ⟨Scanner.answer_bytes F (h.accepts s) h.short, Scanner.bytes_ne_nil F⟩

end

theorem exists_message {ms : List (Kind × Tags)} {Fs : List Frame} (h : List.Forall₂ Framed ms Fs) :
    ∀ F ∈ Fs, ∃ m, Framed m F := by
  induction h with
  | nil => simp
  | cons hF _ ih => exact List.forall_mem_cons.2 ⟨⟨_, hF⟩, ih⟩

/-- Reading the indexes back at the places of their frames. -/
theorem pairsOf_placed {ms : List (Kind × Tags)} {Fs : List Frame} (h : List.Forall₂ Framed ms Fs) :
    ∀ before : Buffer, (placed before.length (Fs.map Frame.piece)).map
      (fun v => pairsOf ((before ++ (Fs.map (·.bytes)).flatten).drop v.1) v.2) = ms.map Prod.snd := by
  induction h with
  | nil => exact fun _ => rfl
  | @cons m F ms Fs hF _ ih =>
    intro before
    have hfirst : pairsOf (F.bytes ++ (Fs.map (·.bytes)).flatten) F.index = m.2 := by
      rw [← hF.pairs]
      exact pairsOf_index F.toMessage _
    have hrest := ih (before ++ F.bytes)
    rw [List.length_append, List.append_assoc] at hrest
    rw [List.map_cons, List.map_cons, List.map_cons, List.flatten_cons, placed, Frame.piece,
      List.map_cons, List.drop_left, hfirst]
    exact congrArg _ hrest

theorem splitLoop_framed {ms : List (Kind × Tags)} {Fs : List Frame}
    (h : List.Forall₂ Framed ms Fs) (s : Scanner) (idx : FieldIndex) {fuel : ℕ}
    (hfuel : ms.length < fuel) : splitLoop s (Fs.map (·.bytes)).flatten fuel 0 idx =
      some ⟨placed 0 (Fs.map Frame.piece), (Fs.map (·.bytes)).flatten.length, none⟩ := by
  have hframes : ∀ f ∈ Fs.map Frame.piece, IsFrame s.answer f.1 f.2 := by
    refine List.forall_mem_map.2 fun F hF => ?_
    obtain ⟨m, hm⟩ := exists_message h F hF
    exact hm.isFrame s
  have hlen := h.length_eq
  have hsplit := s.answer_final.split_flatten (Or.inl rfl) _ hframes 0 fuel
    (by rw [List.length_map]; omega)
  rw [List.map_map, List.append_nil, Nat.zero_add, if_pos rfl] at hsplit
  rw [splitLoop_eq, List.drop_zero]
  exact hsplit

/-- **The stream splits into its messages.**  The loops of both scanners take
    exactly the messages off a written stream, in order, at the same places and
    with the same indexes, and end at its end; reading an index against the stream
    gives the pairs of its message. -/
theorem Written.splits {stream : Buffer} {ms : List (Kind × Tags)} (h : Written stream ms) :
    ∃ visits : List (ℕ × IndexView),
      (∀ (s : Scanner) (idx : FieldIndex), ∀ fuel > ms.length,
        splitLoop s stream fuel 0 idx = some ⟨visits, stream.length, none⟩) ∧
      visits.map (fun v => pairsOf (stream.drop v.1) v.2) = ms.map Prod.snd := by
  obtain ⟨Fs, hFs, rfl⟩ := h.exists_framed
  exact ⟨placed 0 (Fs.map Frame.piece), fun s idx fuel hfuel => splitLoop_framed hFs s idx hfuel,
    pairsOf_placed hFs []⟩

theorem Written.splits_plain : ∃ stream, ∃ ms : List (Kind × Tags),
    writeBulk plainRandom 3 7 = some stream ∧ ∃ visits : List (ℕ × IndexView),
      (∀ (s : Scanner) (idx : FieldIndex), ∀ fuel > ms.length,
        splitLoop s stream fuel 0 idx = some ⟨visits, stream.length, none⟩) ∧
      visits.map (fun v => pairsOf (stream.drop v.1) v.2) = ms.map Prod.snd := by
  obtain ⟨stream, ms, hstream, -, hwritten⟩ := exists_written plainRandom (by decide : 3 ≤ lastSeq) 7
  exact ⟨stream, ms, hstream, hwritten.splits⟩

/-! ## Parsed -/

section
variable {R : FieldRules} {C : IntConvertor} {host : Host} {m : Kind × Tags} {F : Frame} {n : ℕ}

/-- The fast path takes a message: its kind has no group, and QuickFIX sorts
    its fields. -/
def takenFast (R : FieldRules) (m : Kind × Tags) : Bool :=
  (groupTags m.1).isNone && (delivered R m.2).isSome

/-- The tags of a frame are ints, and its fields are those of its pairs. -/
theorem Framed.small (h : Framed m F) (hm : Built m.1 n m.2) :
    F.fields.map fastField = (framePairs m.2).map pairBase ∧ ∀ f ∈ F.fields, f.number < 2 ^ 31 := by
  refine fields_small h.fields (fun p hp => (hm.good p hp).1.1.1) fun p hp => ?_
  exact (hm.good p hp).1.1.2.trans (by decide)

theorem Framed.answer (h : Framed m F) (hm : Built m.1 n m.2) :
    answer (R.engine C) host true F.bytes = some (delivered R m.2) := by
  obtain ⟨hfields, hsmall⟩ := h.small hm
  rw [answer_small (h.accepts _) h.short hsmall, Shim.fastMessage, hfields]
  rfl

theorem Framed.fast (h : Framed m F) (hm : Built m.1 n m.2) :
    fast (R.engine C) host F.bytes = takenFast R m := by
  have hcounters : (F.fields.any fun f => isKnownGroupCounter f.number) = (groupTags m.1).isSome := by
    have hnumbers : ∀ p ∈ framePairs m.2, (pairField p).number = p.1.toNat := by
      intro p hp
      have hpos := framePairs_tags (P := (1 ≤ ·)) (by decide) (by decide) (by decide)
        (fun p hp => (hm.good p hp).1.1.1) p hp
      exact pairField_number hpos
    have hany : (F.fields.any fun f => isKnownGroupCounter f.number) =
        (framePairs m.2).any fun p => isKnownGroupCounter p.1.toNat := by
      rw [h.fields, List.any_map, Bool.eq_iff_iff, List.any_eq_true, List.any_eq_true]
      refine exists_congr fun p => and_congr_right fun hp => ?_
      rw [Function.comp, hnumbers p hp]
    rw [hany, ← hm.counters, framePairs, List.any_cons, List.any_cons, List.any_append]
    simp [isKnownGroupCounter]
  obtain ⟨hfields, -⟩ := h.small hm
  have hsort : (R.engine C).sortParts (fastMessage (R.engine C).toFieldRules F) =
      R.sortParts (fastMessage R F) := rfl
  rw [fast_frame (R.engine C) h.short (h.accepts _) List.prefix_rfl, hsort, hcounters, takenFast,
    delivered, Shim.fastMessage, hfields, Option.not_isSome]
  cases R.sortParts (R.setFields ((framePairs m.2).map pairBase) (.fresh, .header)).1 <;> rfl

end

/-- The calls of a session that reads frames. -/
def reads (calls : List (Buffer × FIX.Message)) : List Op := calls.map fun c => .parseInto c.1 c.2

theorem callsSinceReset_reads (calls : List (Buffer × FIX.Message)) :
    ∀ before, callsSinceReset true before (reads calls) =
      before ++ calls.map fun c => (true, c.1) := by
  induction calls with
  | nil => exact fun before => (List.append_nil before).symm
  | cons c calls ih =>
    intro before
    rw [reads, List.map_cons, callsSinceReset, ← reads, ih, List.append_assoc]
    rfl

section
variable {R : FieldRules} {C : IntConvertor} {host : Host}

/-- A call on the frame of a message. -/
structure Read (R : FieldRules) (C : IntConvertor) (host : Host) (m : Kind × Tags) (b : Buffer) :
    Prop where
  answer : answer (R.engine C) host true b = some (delivered R m.2)
  fast : fast (R.engine C) host b = takenFast R m

variable {ms : List (Kind × Tags)} {calls : List (Buffer × FIX.Message)}

theorem answers_reads (h : List.Forall₂ (fun m c => Read R C host m c.1) ms calls) :
    answers (R.engine C) host true (reads calls) = some (ms.map fun m => delivered R m.2) := by
  induction h with
  | nil => rfl
  | @cons m c ms calls hm _ ih =>
    rw [reads, List.map_cons, answers, hm.answer, ← reads]
    simp only [ih, Option.map_some, List.map_cons]

theorem countP_reads {p : Bool × Buffer → Bool} {q : Kind × Tags → Bool}
    (hpq : ∀ m b, Read R C host m b → p (true, b) = q m)
    (h : List.Forall₂ (fun m c => Read R C host m c.1) ms calls) :
    (callsSinceReset true [] (reads calls)).countP p = ms.countP q := by
  rw [callsSinceReset_reads, List.nil_append, List.countP_map]
  induction h with
  | nil => rfl
  | cons hm _ ih => simp [List.countP_cons, ih, hpq _ _ hm]

end

theorem Written.read {stream : Buffer} {ms : List (Kind × Tags)} (h : Written stream ms)
    (R : FieldRules) (C : IntConvertor) (host : Host) : ∀ m ∈ ms, ∀ b, render m.2 = some b →
      Read R C host m b := by
  intro m hm b hr
  obtain ⟨n, hbuilt⟩ := h.exists_built m hm
  obtain ⟨F, hF, rfl⟩ := hbuilt.exists_framed hr
  exact ⟨hF.answer hbuilt, hF.fast hbuilt⟩

/-- **A session that reads a written stream** with the flag set gets every
    message as QuickFIX sorts its pairs, and its tallies are exact: the fast path
    takes the messages whose kind has no group and whose fields QuickFIX sorts. -/
theorem Written.parsed {stream : Buffer} {ms : List (Kind × Tags)} (h : Written stream ms)
    (R : FieldRules) (C : IntConvertor) (host : Host) (p : Process) (hon : p.enabled = true)
    (hstats : p.shim.stats = {}) (calls : List (Buffer × FIX.Message))
    (hcalls : List.Forall₂ (fun m c => render m.2 = some c.1) ms calls) :
    ∃ rs p', run (R.engine C) host p (reads calls) = some (rs, p') ∧
      rs.map seen = ms.map (fun m => delivered R m.2) ∧
      p'.shim.stats = {
        preparseAttempted := UInt64.ofNat ms.length
        preparseSucceeded := UInt64.ofNat (ms.countP (takenFast R))
        fallbackUsed := UInt64.ofNat (ms.countP fun m => !takenFast R m)
        parseFailed := UInt64.ofNat (ms.countP fun m => (delivered R m.2).isNone) } := by
  have hreads : List.Forall₂ (fun m c => Read R C host m c.1) ms calls := by
    have hread := h.read R C host
    clear h
    induction hcalls with
    | nil => exact .nil
    | cons hr _ ih =>
      rw [List.forall_mem_cons] at hread
      exact .cons (hread.1 _ hr) (ih hread.2)
  have hanswers := @run_answers (R.engine C) host (reads calls) p
  rw [hon, answers_reads hreads] at hanswers
  obtain ⟨⟨rs, p'⟩, hrun, hseen⟩ := Option.map_eq_some_iff.1 hanswers
  refine ⟨rs, p', hrun, hseen, ?_⟩
  have htally := run_tallied _ (tallied_cleared (R.engine C) host hstats) hrun
  have hpaths := Paths.run hstats hrun
  rw [hon] at htally hpaths
  have hattempted := htally.attempted
  have hfailed := htally.failed
  have hsucceeded := hpaths.succeeded
  have hfallback := hpaths.fallback
  rw [countP_reads (q := fun _ => true) (fun _ _ _ => rfl) hreads, List.countP_true] at hattempted
  rw [countP_reads (q := takenFast R) (fun m b hm => by rw [hm.fast, Bool.true_and]) hreads]
    at hsucceeded
  rw [countP_reads (q := fun m => !takenFast R m) (fun m b hm => by rw [hm.fast, Bool.true_and])
    hreads] at hfallback
  rw [countP_reads (q := fun m => (delivered R m.2).isNone)
    (fun m b hm => by rw [fails, hm.answer, Option.any_some]) hreads] at hfailed
  rw [← hattempted, ← hsucceeded, ← hfallback, ← hfailed]

theorem Written.parsed_plain : ∃ stream, ∃ ms : List (Kind × Tags),
    writeBulk plainRandom 3 7 = some stream ∧ ∃ calls : List (Buffer × FIX.Message), ∃ rs p',
      run (plainRules.engine plainConvertor) plainHost ⟨true, .fresh, .replicate _ default, {}⟩
          (reads calls) = some (rs, p') ∧
        rs.map seen = ms.map (fun m => delivered plainRules m.2) ∧
        p'.shim.stats = {
          preparseAttempted := UInt64.ofNat ms.length
          preparseSucceeded := UInt64.ofNat (ms.countP (takenFast plainRules))
          fallbackUsed := UInt64.ofNat (ms.countP fun m => !takenFast plainRules m)
          parseFailed := UInt64.ofNat (ms.countP fun m => (delivered plainRules m.2).isNone) } := by
  obtain ⟨stream, ms, hstream, -, hwritten⟩ := exists_written plainRandom (by decide : 3 ≤ lastSeq) 7
  obtain ⟨frames, hframes, -⟩ := hwritten.frames
  refine ⟨stream, ms, hstream, frames.map fun f => (f, .fresh), ?_⟩
  exact hwritten.parsed plainRules plainConvertor plainHost _ rfl rfl _
    (List.forall₂_map_right_iff.2 hframes)

end Generator
end SwiftFIX
