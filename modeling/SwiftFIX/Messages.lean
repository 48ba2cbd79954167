/-
  The messages of the bulk generator, one specification for each method.

  `Built kind n tags`: the header numbers the message and stamps it; no tag is
  repeated outside of the repeating group of the kind, the group holds as many
  entries as its counter says, and quantities add up.  `guarded_generateOne`
  says that every message is built so, and exactly when a method raises instead.
-/
import Mathlib.Algebra.Group.Action.Defs
import Mathlib.Algebra.Order.BigOperators.Group.List
import SwiftFIX.Generated
import SwiftFIX.Rendered
import SwiftFIX.Shim

namespace SwiftFIX
namespace Generator

open Draws Shim

variable {ρ α : Type} (G : Random ρ)

/-! ## Shapes -/

/-- The message type that a method writes. -/
def msgType : Kind → List Char
  | .executionReport => ['8']
  | .newOrderSingle | .newOrderSingleWithAllocs => ['D']
  | .marketDataSnapshot => ['W']
  | .heartbeat => ['0']
  | .testRequest => ['1']
  | .orderCancelRequest => ['F']
  | .logon => ['A']
  | .logout => ['5']
  | .resendRequest => ['2']
  | .news => ['B']
  | .marketDataIncremental => ['X']

/-- The repeating group of a kind: its counter and the tags of an entry. -/
def groupTags : Kind → Option (ℤ × List ℤ)
  | .newOrderSingleWithAllocs => some (78, [79, 80])
  | .marketDataSnapshot => some (268, [269, 270, 271])
  | .marketDataIncremental => some (268, [279, 269, 55, 270, 271])
  | .news => some (33, [58])
  | _ => none

/-- The header of message `n`. -/
def Header (type : List Char) (n : ℕ) (h : Tags) : Prop :=
  ∃ sender ∈ SENDERS, ∃ target ∈ TARGETS, ∃ t, timestamp n = some t ∧
    h = [(35, type), (49, sender), (56, target), (34, formatInt n), (52, t)]

/-- Tags of the dictionary that count no group and announce no data. -/
def GoodTag (t : ℤ) : Prop :=
  (1 ≤ t ∧ t < 1000) ∧ t ≠ 95 ∧ t ≠ 96 ∧ isKnownGroupCounter t.toNat = false

/-- Fields outside of a group: no tag comes twice. -/
structure Flat (tags : Tags) : Prop where
  nodup : (tags.map Prod.fst).Nodup
  good : ∀ t ∈ tags.map Prod.fst, GoodTag t
  values : ∀ v ∈ tags.map Prod.snd, Value v
  length : tags.length ≤ 20

/-- A repeating group: the counter, then as many entries as it says. -/
def Group (counter : ℤ) (entry : List ℤ) (tags : Tags) : Prop :=
  ∃ entries : List Tags, 0 < entries.length ∧ entries.length ≤ 25 ∧
    tags = (counter, formatInt entries.length) :: entries.flatten ∧
    ∀ e ∈ entries, e.map Prod.fst = entry ∧ ∀ p ∈ e, Value p.2

/-- The group of a kind, or nothing. -/
def Grouped (kind : Kind) (tags : Tags) : Prop :=
  match groupTags kind with
  | some (counter, entry) => Group counter entry tags
  | none => tags = []

/-- What the numbers of a message say together: executed and open quantity make
    the ordered one, allocations are positive and make it too, and a resend
    request asks for a range. -/
def Consistent : Kind → Tags → Prop
  | .executionReport, tags => ∃ ordered leaves cum : ℕ, (38, formatInt ordered) ∈ tags ∧
      (151, formatInt leaves) ∈ tags ∧ (14, formatInt cum) ∈ tags ∧ leaves + cum = ordered
  | .newOrderSingleWithAllocs, tags => ∃ shares : List ℕ, (∀ s ∈ shares, 0 < s) ∧
      (38, formatInt shares.sum) ∈ tags ∧
      (tags.filter (·.1 = 80)).map Prod.snd = shares.map fun s => formatInt (s : ℕ)
  | .resendRequest, tags => ∃ a b : ℕ, (7, formatInt a) ∈ tags ∧ (16, formatInt b) ∈ tags ∧ a < b
  | _, _ => True

/-- **What the generator builds** as message `n`. -/
structure Built (kind : Kind) (n : ℕ) (tags : Tags) : Prop where
  header : Header (msgType kind) n (tags.take 5)
  shape : ∃ flat group, tags = flat ++ group ∧ Flat flat ∧ Grouped kind group
  consistent : Consistent kind tags

instance : DecidablePred GoodTag := fun _ => inferInstanceAs (Decidable (_ ∧ _))

/-- The five tags of a header. -/
def headerTags : List ℤ := [35, 49, 56, 34, 52]

section
variable {kind : Kind} {n : ℕ} {h fields : Tags}

theorem Header.take (hh : Header (msgType kind) n h) (rest : Tags) :
    Header (msgType kind) n ((h ++ rest).take 5) := by
  obtain ⟨sender, hs, target, ht, t, hstamp, rfl⟩ := hh
  exact ⟨sender, hs, target, ht, t, hstamp, rfl⟩

theorem Header.values (hh : Header (msgType kind) n h) : ∀ v ∈ h.map Prod.snd, Value v := by
  obtain ⟨sender, hs, target, ht, t, hstamp, rfl⟩ := hh
  have hn : n < 10 ^ 20 := by
    have hle := (timestamp_eq.1 hstamp).1
    rw [lastSeq] at hle
    omega
  have htype : Value (msgType kind) := by
    cases kind <;> decide
  have hsender := (by decide : ∀ s ∈ SENDERS, Value s) sender hs
  have htarget := (by decide : ∀ s ∈ TARGETS, Value s) target ht
  simp only [List.map_cons, List.map_nil, List.forall_mem_cons]
  exact ⟨htype, hsender, htarget, value_formatInt hn, value_timestamp hstamp, by simp⟩

theorem Header.tags {type : List Char} (hh : Header type n h) : h.map Prod.fst = headerTags := by
  obtain ⟨sender, hs, target, ht, t, hstamp, rfl⟩ := hh
  rfl

/-- Tags that a message can have under its header. -/
def FieldTags (ts : List ℤ) : Prop :=
  (headerTags ++ ts).Nodup ∧ (∀ t ∈ headerTags ++ ts, GoodTag t) ∧ (headerTags ++ ts).length ≤ 20

instance : DecidablePred FieldTags := fun _ => inferInstanceAs (Decidable (_ ∧ _))

theorem Header.flat (hh : Header (msgType kind) n h) (htags : FieldTags (fields.map Prod.fst))
    (hvalues : ∀ v ∈ fields.map Prod.snd, Value v) : Flat (h ++ fields) := by
  obtain ⟨hnodup, hgood, hlen⟩ := htags
  have hmap : (h ++ fields).map Prod.fst = headerTags ++ fields.map Prod.fst := by
    rw [List.map_append, hh.tags]
  refine ⟨hmap ▸ hnodup, hmap ▸ hgood, ?_, ?_⟩
  · rw [List.map_append, List.forall_mem_append]
    exact ⟨hh.values, hvalues⟩
  · rwa [← hmap, List.length_map] at hlen

theorem Built.plain (hkind : groupTags kind = none) (hh : Header (msgType kind) n h)
    (htags : FieldTags (fields.map Prod.fst)) (hvalues : ∀ v ∈ fields.map Prod.snd, Value v)
    (hc : Consistent kind (h ++ fields)) : Built kind n (h ++ fields) := by
  refine ⟨hh.take fields, ⟨h ++ fields, [], (List.append_nil _).symm, hh.flat htags hvalues, ?_⟩, hc⟩
  rw [Grouped, hkind]

theorem Built.grouped {counter : ℤ} {entry : List ℤ} {group : Tags}
    (hkind : groupTags kind = some (counter, entry)) (hh : Header (msgType kind) n h)
    (htags : FieldTags (fields.map Prod.fst)) (hvalues : ∀ v ∈ fields.map Prod.snd, Value v)
    (hgroup : Group counter entry group) (hc : Consistent kind (h ++ fields ++ group)) :
    Built kind n (h ++ fields ++ group) := by
  refine ⟨?_, ⟨h ++ fields, group, rfl, hh.flat htags hvalues, ?_⟩, hc⟩
  · rw [List.append_assoc]
    exact hh.take _
  · rw [Grouped, hkind]
    exact hgroup

end

/-! ## Headers -/

variable {n : ℕ}

theorem guarded_ts : Guarded (n ≤ lastSeq) (seqIs n) (seqIs n) (fun t => timestamp n = some t)
    (ts : Gen ρ (List Char)) where
  steps h := by
    rintro g rfl
    cases ht : timestamp g.seq with
    | none => exact absurd (timestamp_eq_none.1 ht) (not_lt.2 h)
    | some t => exact ⟨t, g, by rw [ts, ht]; rfl, rfl, rfl⟩
  raises h := by
    rintro g rfl
    rw [ts, timestamp_eq_none.2 (not_le.1 h)]
    rfl

theorem steps_nextSeq : Steps (seqIs n) (seqIs (n + 1)) (· = n + 1) (nextSeq : Gen ρ ℕ) := by
  rintro g rfl
  exact ⟨_, _, rfl, rfl, rfl⟩

theorem guarded_header (type : List Char) : Guarded (n < lastSeq) (seqIs n) (seqIs (n + 1))
    (Header type (n + 1)) (header G type) := by
  refine .after (yields_choice G (by decide)) fun sender hs => ?_
  refine .after (yields_choice G (by decide)) fun target ht => ?_
  refine .after steps_nextSeq fun seq hseq => ?_
  refine guarded_ts.bind fun _ t hstamp => Steps.pure ?_
  subst hseq
  exact ⟨sender, hs, target, ht, t, hstamp, rfl⟩

/-- A program that builds message `n + 1`, or raises when it has no time stamp. -/
def Builds (kind : Kind) (m : Gen ρ Tags) : Prop :=
  ∀ n, Guarded (n < lastSeq) (seqIs n) (seqIs (n + 1)) (Built kind (n + 1)) m

/-! ## Messages without groups -/

theorem builds_heartbeat : Builds .heartbeat (heartbeat G) := fun n =>
  (guarded_header G ['0']).mono fun h hh => by
    have hbuilt : Built .heartbeat (n + 1) (h ++ []) := .plain rfl hh (by decide) (by simp) trivial
    rwa [List.append_nil] at hbuilt

theorem builds_logout : Builds .logout (logout G) := fun n =>
  (guarded_header G ['5']).mono fun h hh => by
    have hbuilt : Built .logout (n + 1) (h ++ []) := .plain rfl hh (by decide) (by simp) trivial
    rwa [List.append_nil] at hbuilt

theorem builds_testRequest : Builds .testRequest (testRequest G) := by
  intro n
  refine (guarded_header G ['1']).bind fun _ h hh => ?_
  refine (yields_clOrdId G).bind fun id hid => Steps.pure ?_
  exact .plain rfl hh (by decide : FieldTags [112]) (by simpa using hid) trivial

theorem builds_logon : Builds .logon (logon G) := by
  intro n
  refine (guarded_header G ['A']).bind fun _ h hh => ?_
  refine (yields_choice G (by decide)).bind fun interval hi => Steps.pure ?_
  have hvalue := (by decide : ∀ i ∈ [10, 30, 60], Value (formatInt (i : ℕ))) interval hi
  exact .plain rfl hh (by decide : FieldTags [98, 108]) (by simpa using ⟨by decide, hvalue⟩) trivial

theorem builds_resendRequest : Builds .resendRequest (resendRequest G) := by
  intro n
  refine .after (yields_randint G (by decide)) fun start hs => ?_
  refine .after (yields_randint G (by decide)) fun count hc => ?_
  refine (guarded_header G ['2']).bind fun _ h hh => Steps.pure ?_
  have hstart : Value (formatInt (start : ℕ)) := value_formatInt (by omega)
  have hend : Value (formatInt ((start + count : ℕ) : ℤ)) := value_formatInt (by omega)
  refine .plain rfl hh (by decide : FieldTags [7, 16]) (by simpa using ⟨hstart, hend⟩) ?_
  exact ⟨start, start + count, by simp, by simp, by omega⟩

theorem builds_orderCancelRequest : Builds .orderCancelRequest (orderCancelRequest G) := by
  intro n
  refine (guarded_header G ['F']).bind fun hn h hh => ?_
  refine (yields_clOrdId G).bind fun orig horig => ?_
  refine (yields_clOrdId G).bind fun id hid => ?_
  refine (yields_symbol G).bind fun sym hsym => ?_
  refine (yields_choice G (by decide)).bind fun side hside => ?_
  refine (guarded_ts.steps hn).bind fun t hstamp => Steps.pure ?_
  have hside' := (by decide : ∀ s ∈ [['1'], ['2']], Value s) side hside
  exact .plain rfl hh (by decide : FieldTags [41, 11, 55, 54, 60])
    (by simpa using ⟨horig, hid, hsym, hside', value_timestamp hstamp⟩) trivial

theorem yields_limit (ordType : List Char) :
    Yields (seqIs n) (fun l : Tags => (l.map Prod.fst = [] ∨ l.map Prod.fst = [44]) ∧
      ∀ v ∈ l.map Prod.snd, Value v) (limitPrice G ordType) := by
  unfold limitPrice
  split
  · exact (yields_price G).bind fun px hpx => Steps.pure ⟨Or.inr rfl, by simpa using hpx⟩
  · exact Steps.pure ⟨Or.inl rfl, by simp⟩

/-- The tags of an order, without and with a limit price. -/
def orderTags : List (List ℤ) :=
  [[11, 21, 55, 54, 60, 38, 40, 59], [11, 21, 55, 54, 60, 38, 40, 44, 59]]

/-- The fields of an order of a quantity. -/
structure OrderFields (n quantity : ℕ) (h fields : Tags) : Prop where
  header : Header ['D'] n h
  tags : fields.map Prod.fst ∈ orderTags
  values : ∀ v ∈ fields.map Prod.snd, Value v
  quantity_mem : (38, formatInt quantity) ∈ fields
  bounds : 5 ≤ quantity ∧ quantity ≤ 10000

theorem guarded_order {ordType tif side : List Char} {quantity : Gen ρ ℕ} {Q : ℕ → Prop}
    (htype : Value ordType) (htif : Value tif) (hside : Value side)
    (hQ : ∀ q, Q q → 5 ≤ q ∧ q ≤ 10000) (hq : Yields (seqIs (n + 1)) Q quantity) :
    Guarded (n < lastSeq) (seqIs n) (seqIs (n + 1))
      (fun r => Q r.1 ∧ ∃ h fields, r.2 = h ++ fields ∧ OrderFields (n + 1) r.1 h fields)
      (order G ordType tif side quantity) := by
  refine (guarded_header G ['D']).bind fun hn h hh => ?_
  refine (yields_clOrdId G).bind fun id hid => ?_
  refine (yields_symbol G).bind fun sym hsym => ?_
  refine (guarded_ts.steps hn).bind fun t hstamp => ?_
  refine hq.bind fun q hq => ?_
  refine (yields_limit G ordType).bind fun limit hlimit => Steps.pure ?_
  obtain ⟨htags, hvalues⟩ := hlimit
  have hbounds := hQ q hq
  have hquantity : Value (formatInt (q : ℕ)) := value_formatInt (by omega)
  refine ⟨hq, h, _, by rw [List.append_assoc, List.append_assoc], hh, ?_, ?_, by simp, hbounds⟩
  · rw [List.map_append, List.map_append]
    rcases htags with htags | htags <;> rw [htags]
    · exact List.mem_cons_self
    · exact List.mem_cons_of_mem _ List.mem_cons_self
  · simp only [List.map_append, List.map_cons, List.map_nil, List.forall_mem_append,
      List.forall_mem_cons]
    exact ⟨⟨hid, by decide, hsym, hside, value_timestamp hstamp, hquantity, htype, by simp⟩, hvalues,
      htif, by simp⟩

theorem value_side : ∀ s ∈ [['1'], ['2']], Value s := by decide

theorem value_tif : ∀ s ∈ [['0'], ['1'], ['3']], Value s := by decide

theorem orderTags_spec : ∀ ts ∈ orderTags, FieldTags ts ∧ 80 ∉ ts := by decide

theorem builds_newOrderSingle : Builds .newOrderSingle (newOrderSingle G) := by
  intro n
  refine .after (yields_choice G (by decide)) fun ordType htype => ?_
  refine .after (yields_choice G (by decide)) fun tif htif => ?_
  refine .after (yields_choice G (by decide)) fun side hside => ?_
  refine (guarded_order G (value_side _ htype) (value_tif _ htif) (value_side _ hside)
    (fun _ hq => hq) (yields_qty G)).bind fun _ r hr => Steps.pure ?_
  obtain ⟨-, h, fields, hfields, ho⟩ := hr
  rw [hfields]
  exact .plain rfl ho.header (orderTags_spec _ ho.tags).1 ho.values trivial

/-! ## Allocations -/

/-- The share of account `i` of `n`. -/
def share (quantity n i : ℕ) : ℕ :=
  if i = n - 1 then quantity - quantity / n * (n - 1) else quantity / n

section
variable {quantity : ℕ}

theorem mul_pred_le (n : ℕ) : quantity / n * (n - 1) ≤ quantity :=
  (Nat.mul_le_mul_left _ (Nat.pred_le n)).trans (Nat.div_mul_le_self quantity n)

theorem allocs_eq (n : ℕ) : allocs quantity n = (List.range n).flatMap fun i =>
    [(79, "ACCT".toList ++ zeroPad 2 i), (80, formatInt (share quantity n i : ℕ))] := by
  have hsub := Int.ofNat_sub (@mul_pred_le quantity n)
  refine congrArg (List.flatMap · (List.range n)) (funext fun i => ?_)
  rw [share]
  split
  · rw [hsub, Nat.cast_mul]
  · rfl

theorem share_pos {n i : ℕ} (hn : 0 < n) (h : n ≤ quantity) : 0 < share quantity n i := by
  have hbase : 0 < quantity / n := Nat.div_pos h hn
  have hall : quantity / n * n ≤ quantity := Nat.div_mul_le_self quantity n
  rw [share]
  split
  · obtain ⟨k, rfl⟩ := Nat.exists_eq_add_of_lt hn
    rw [Nat.zero_add, Nat.add_sub_cancel, Nat.mul_add] at *
    omega
  · exact hbase

theorem share_le (n i : ℕ) : share quantity n i ≤ quantity := by
  rw [share]
  split
  · exact Nat.sub_le _ _
  · exact Nat.div_le_self _ _

/-- **The shares make the quantity.** -/
theorem sum_shares (k : ℕ) : ((List.range (k + 1)).map (share quantity (k + 1))).sum = quantity := by
  have hinit : (List.range k).map (share quantity (k + 1)) =
      List.replicate k (quantity / (k + 1)) := by
    refine List.eq_replicate_iff.2 ⟨by simp, List.forall_mem_map.2 fun i hi => ?_⟩
    exact if_neg (Nat.ne_of_lt (List.mem_range.1 hi))
  have hlast : share quantity (k + 1) k = quantity - quantity / (k + 1) * k := if_pos rfl
  have hle : quantity / (k + 1) * k ≤ quantity := mul_pred_le (k + 1)
  rw [List.range_succ, List.map_append, List.sum_append, List.map_singleton, List.sum_singleton, hinit,
    List.sum_replicate_nat, hlast, Nat.mul_comm k]
  omega

/-- The allocations of an order are a group of its shares. -/
theorem group_allocs {n : ℕ} (hn : 0 < n) (hle : n ≤ 25) (hq : quantity ≤ 10000) :
    Group 78 [79, 80] ((78, formatInt n) :: allocs quantity n) := by
  refine ⟨(List.range n).map fun i =>
    [(79, "ACCT".toList ++ zeroPad 2 i), (80, formatInt (share quantity n i : ℕ))], ?_, ?_, ?_, ?_⟩
  · simpa using hn
  · simpa using hle
  · rw [allocs_eq, List.flatMap_def, List.length_map, List.length_range]
  · refine List.forall_mem_map.2 fun i hi => ⟨rfl, ?_⟩
    rw [List.mem_range] at hi
    have hshare := @share_le quantity n i
    have haccount : Value ("ACCT".toList ++ zeroPad 2 i) := by
      have hlen : (zeroPad 2 i).length = 2 := length_zeroPad (by decide) (by omega)
      refine ⟨(by decide : Clean "ACCT".toList).append (clean_zeroPad 2 i), ?_⟩
      rw [List.length_append, hlen]
      decide
    simp only [List.forall_mem_cons]
    exact ⟨haccount, value_formatInt (by omega), by simp⟩

end

theorem builds_newOrderSingleWithAllocs :
    Builds .newOrderSingleWithAllocs (newOrderSingleWithAllocs G) := by
  intro n
  refine .after (yields_choice G (by decide)) fun ordType htype => ?_
  refine .after (yields_choice G (by decide)) fun tif htif => ?_
  refine .after (yields_choice G (by decide)) fun side hside => ?_
  refine .after (yields_qty G) fun quantity hq => ?_
  refine (guarded_order G (Q := (· = quantity)) (value_side _ htype) (value_tif _ htif)
    (value_side _ hside) (fun _ he => he ▸ hq) (Steps.pure rfl)).bind fun _ r hr => ?_
  refine (yields_randint G (by decide)).bind fun count hcount => Steps.pure ?_
  obtain ⟨hr, h, fields, hfields, ho⟩ := hr
  rw [hr] at ho
  rw [hfields]
  obtain ⟨htags, h80⟩ := orderTags_spec _ ho.tags
  refine .grouped rfl ho.header htags ho.values (group_allocs (by omega) (by omega) hq.2) ?_
  obtain ⟨k, rfl⟩ := Nat.exists_eq_add_of_le' (show 1 ≤ count by omega)
  refine ⟨(List.range (k + 1)).map (share quantity (k + 1)), ?_, ?_, ?_⟩
  · exact List.forall_mem_map.2 fun i _ => share_pos (Nat.succ_pos k) (by omega)
  · rw [sum_shares]
    exact List.mem_append_left _ (List.mem_append_right _ ho.quantity_mem)
  · have hheader : ∀ p ∈ h, p.1 ≠ 80 := by
      intro p hp h80'
      have hmem := List.mem_map_of_mem hp (f := Prod.fst)
      rw [ho.header.tags, h80'] at hmem
      revert hmem
      decide
    have hfields : ∀ p ∈ fields, p.1 ≠ 80 := fun p hp h80' => h80 (h80' ▸ List.mem_map_of_mem hp)
    rw [List.filter_append, List.filter_append, List.filter_eq_nil_iff.2 (by simpa using hheader),
      List.filter_eq_nil_iff.2 (by simpa using hfields), allocs_eq, List.filter_cons,
      List.filter_flatMap]
    simp [← List.map_eq_flatMap]

/-! ## Execution reports -/

/-- The quantities of a report: what is filled and what is left make the order. -/
structure Filled (quantity : ℕ) (l : Tags) : Prop where
  tags : l.map Prod.fst ∈ [[32, 31, 151, 14, 6], [151, 14, 6]]
  values : ∀ v ∈ l.map Prod.snd, Value v
  sum : ∃ leaves cum : ℕ, (151, formatInt leaves) ∈ l ∧ (14, formatInt cum) ∈ l ∧
    leaves + cum = quantity

theorem yields_fills {execType px : List Char} {quantity : ℕ} (hpx : Value px)
    (hq : 5 ≤ quantity ∧ quantity ≤ 10000) :
    Yields (seqIs n) (Filled quantity) (fills G execType quantity px) := by
  unfold fills
  split
  · refine (yields_randint G (by omega)).bind fun last hlast => Steps.pure ?_
    rw [← Int.ofNat_sub hlast.2]
    have hleaves : Value (formatInt ((quantity - last : ℕ) : ℤ)) := value_formatInt (by omega)
    have hcum : Value (formatInt (last : ℕ)) := value_formatInt (by omega)
    exact ⟨List.mem_cons_self, by simpa using ⟨hcum, hpx, hleaves, hcum, hpx⟩, quantity - last, last,
      by simp, by simp, by omega⟩
  · have hleaves : Value (formatInt (quantity : ℕ)) := value_formatInt (by omega)
    have hzero : ((14 : ℤ), formatInt (0 : ℕ)) ∈
        [(151, formatInt quantity), (14, ['0']), (6, ['0'])] :=
      List.mem_cons_of_mem _ List.mem_cons_self
    exact Steps.pure ⟨List.mem_cons_of_mem _ List.mem_cons_self, by simpa using ⟨hleaves, by decide⟩,
      quantity, 0, List.mem_cons_self, hzero, rfl⟩

theorem yields_note : Yields (seqIs n) (fun l : Tags => l.map Prod.fst ∈ [[], [58]] ∧
    ∀ v ∈ l.map Prod.snd, Value v) (note G) := by
  refine (yields_draw (P := fun _ => True) _ fun _ => trivial).bind fun u _ => ?_
  split
  · refine (yields_text G (by decide) (by decide)).bind fun s hs => Steps.pure ?_
    exact ⟨List.mem_cons_of_mem _ List.mem_cons_self, by simpa using hs⟩
  · exact Steps.pure ⟨List.mem_cons_self, by simp⟩

theorem builds_executionReport : Builds .executionReport (executionReport G) := by
  intro n
  refine .after (yields_weighted G (by decide)) fun execType htype => ?_
  refine .after (yields_choice G (by decide)) fun side hside => ?_
  refine .after (yields_qty G) fun quantity hq => ?_
  refine .after (yields_price G) fun px hpx => ?_
  refine (guarded_header G ['8']).bind fun hn h hh => ?_
  refine (yields_orderId G).bind fun oid hoid => ?_
  refine (yields_execId G).bind fun eid heid => ?_
  refine (yields_symbol G).bind fun sym hsym => ?_
  refine (yields_fills G hpx hq).bind fun filled hfilled => ?_
  refine (yields_note G).bind fun remark hremark => Steps.pure ?_
  obtain ⟨htags, hvalues⟩ := hremark
  obtain ⟨leaves, cum, hleaves, hcum, hsum⟩ := hfilled.sum
  have hall : ∀ ts ∈ [[32, 31, 151, 14, 6], [151, 14, 6]], ∀ us ∈ [[], [58]],
      FieldTags ([37, 17, 150, 39, 55, 54, 38] ++ (ts ++ us)) := by decide
  have hexec := (by decide : ∀ t ∈ [['F'], ['0'], ['4'], ['8']], Value t ∧ Value (ordStatus t))
    execType htype
  have hquantity : Value (formatInt (quantity : ℕ)) := value_formatInt (by omega)
  rw [List.append_assoc, List.append_assoc]
  refine .plain rfl hh ?_ ?_ ?_
  · rw [List.map_append, List.map_append]
    exact hall _ hfilled.tags _ htags
  · simp only [List.map_append, List.map_cons, List.map_nil, List.forall_mem_append,
      List.forall_mem_cons]
    exact ⟨⟨hoid, heid, hexec.1, hexec.2, hsym, value_side _ hside, hquantity, by simp⟩,
      hfilled.values, hvalues⟩
  · exact ⟨quantity, leaves, cum, by simp, by simp [hleaves], by simp [hcum], hsum⟩

/-! ## Market data and news -/

theorem group_entries {counter : ℤ} {entry : List ℤ} {count : ℕ} {entries : List Tags}
    (hcount : 1 ≤ count ∧ count ≤ 25)
    (h : entries.length = count ∧ ∀ e ∈ entries, e.map Prod.fst = entry ∧ ∀ p ∈ e, Value p.2) :
    Group counter entry ((counter, formatInt count) :: entries.flatten) := by
  obtain ⟨rfl, hentries⟩ := h
  exact ⟨entries, hcount.1, hcount.2, rfl, hentries⟩

theorem value_digit : ∀ s ∈ [['0'], ['1'], ['2']], Value s := by decide

theorem value_bool : ∀ s ∈ [['0'], ['1']], Value s := by decide

theorem builds_marketDataSnapshot : Builds .marketDataSnapshot (marketDataSnapshot G) := by
  intro n
  refine .after (yields_randint G (by decide)) fun count hcount => ?_
  refine (guarded_header G ['W']).bind fun hn h hh => ?_
  refine (yields_clOrdId G).bind fun id hid => ?_
  refine (yields_symbol G).bind fun sym hsym => ?_
  refine (Yields.times (P := fun e : Tags => e.map Prod.fst = [269, 270, 271] ∧ ∀ p ∈ e, Value p.2)
    ?_ count).bind fun entries hentries => Steps.pure ?_
  · refine (yields_choice G (by decide)).bind fun type htype => ?_
    refine (yields_price G).bind fun px hpx => ?_
    refine (yields_qty G).bind fun size hsize => Steps.pure ⟨rfl, ?_⟩
    have hvalue : Value (formatInt (size : ℕ)) := value_formatInt (by omega)
    simpa using ⟨value_bool _ htype, hpx, hvalue⟩
  · have hbuilt : Built .marketDataSnapshot (n + 1)
        (h ++ [(262, id), (55, sym)] ++ (268, formatInt count) :: entries.flatten) :=
      .grouped rfl hh (by decide : FieldTags [262, 55]) (by simpa using ⟨hid, hsym⟩)
        (group_entries (by omega) hentries) trivial
    simpa using hbuilt

theorem builds_marketDataIncremental : Builds .marketDataIncremental (marketDataIncremental G) := by
  intro n
  refine .after (yields_randint G (by decide)) fun count hcount => ?_
  refine (guarded_header G ['X']).bind fun hn h hh => ?_
  refine (Yields.times (P := fun e : Tags => e.map Prod.fst = [279, 269, 55, 270, 271] ∧
    ∀ p ∈ e, Value p.2) ?_ count).bind fun entries hentries => Steps.pure ?_
  · refine (yields_choice G (by decide)).bind fun action haction => ?_
    refine (yields_choice G (by decide)).bind fun type htype => ?_
    refine (yields_symbol G).bind fun sym hsym => ?_
    refine (yields_price G).bind fun px hpx => ?_
    refine (yields_qty G).bind fun size hsize => Steps.pure ⟨rfl, ?_⟩
    have hvalue : Value (formatInt (size : ℕ)) := value_formatInt (by omega)
    simpa using ⟨value_digit _ haction, value_bool _ htype, hsym, hpx, hvalue⟩
  · have hbuilt : Built .marketDataIncremental (n + 1)
        (h ++ [] ++ (268, formatInt count) :: entries.flatten) :=
      .grouped rfl hh (by decide : FieldTags []) (by simp) (group_entries (by omega) hentries) trivial
    simpa using hbuilt

theorem builds_news : Builds .news (news G) := by
  intro n
  refine .after (yields_randint G (by decide)) fun count hcount => ?_
  refine (guarded_header G ['B']).bind fun hn h hh => ?_
  refine (yields_text G (by decide) (by decide)).bind fun headline hheadline => ?_
  refine (yields_text G (by decide) (by decide)).bind fun subject hsubject => ?_
  refine (Yields.times (yields_text G (by decide) (by decide)) count).bind fun lines hlines =>
    Steps.pure ?_
  have hentries : (lines.map fun s => [((58 : ℤ), s)]).length = count ∧
      ∀ e ∈ lines.map fun s => [((58 : ℤ), s)], e.map Prod.fst = [58] ∧ ∀ p ∈ e, Value p.2 := by
    refine ⟨by rw [List.length_map, hlines.1], List.forall_mem_map.2 fun s hs => ⟨rfl, ?_⟩⟩
    simpa using hlines.2 s hs
  have hbuilt : Built .news (n + 1) (h ++ [(148, headline), (147, subject)] ++
      (33, formatInt count) :: (lines.map fun s => [((58 : ℤ), s)]).flatten) :=
    .grouped rfl hh (by decide : FieldTags [148, 147]) (by simpa using ⟨hheadline, hsubject⟩)
      (group_entries (by omega) hentries) trivial
  have hlines : (lines.map fun s => [((58 : ℤ), s)]).flatten = lines.map fun s => (58, s) := by
    rw [← List.flatMap_def, List.map_eq_flatMap]
  rw [hlines] at hbuilt
  simpa using hbuilt

/-! ## The mixer -/

theorem builds_build (kind : Kind) : Builds kind (build G kind) := by
  cases kind with
  | executionReport => exact builds_executionReport G
  | newOrderSingle => exact builds_newOrderSingle G
  | marketDataSnapshot => exact builds_marketDataSnapshot G
  | newOrderSingleWithAllocs => exact builds_newOrderSingleWithAllocs G
  | heartbeat => exact builds_heartbeat G
  | testRequest => exact builds_testRequest G
  | orderCancelRequest => exact builds_orderCancelRequest G
  | logon => exact builds_logon G
  | logout => exact builds_logout G
  | resendRequest => exact builds_resendRequest G
  | news => exact builds_news G
  | marketDataIncremental => exact builds_marketDataIncremental G

/-! ## What is built can be sent -/

section
variable {kind : Kind} {tags : Tags}

theorem Grouped.spec {group : Tags} (h : Grouped kind group) :
    (∀ p ∈ group, ((1 ≤ p.1 ∧ p.1 < 1000) ∧ p.1 ≠ 95 ∧ p.1 ≠ 96) ∧ Value p.2) ∧
      group.length ≤ 126 ∧
      ((group.any fun p => isKnownGroupCounter p.1.toNat) = (groupTags kind).isSome) := by
  rw [Grouped] at h
  cases hg : groupTags kind with
  | none =>
    rw [hg] at h
    subst h
    exact ⟨by simp, by simp, rfl⟩
  | some ce =>
    obtain ⟨counter, entry⟩ := ce
    rw [hg] at h
    obtain ⟨entries, hpos, hle, rfl, hentries⟩ := h
    have htags : ((1 ≤ counter ∧ counter < 1000) ∧ counter ≠ 95 ∧ counter ≠ 96) ∧
        isKnownGroupCounter counter.toNat = true ∧ entry.length ≤ 5 ∧
        ∀ t ∈ entry, (1 ≤ t ∧ t < 1000) ∧ t ≠ 95 ∧ t ≠ 96 := by
      cases kind <;> simp only [groupTags, Option.some.injEq, Prod.mk.injEq, reduceCtorEq] at hg <;>
        obtain ⟨rfl, rfl⟩ := hg <;> decide
    obtain ⟨hcounter, hknown, hshort, hentry⟩ := htags
    refine ⟨?_, ?_, ?_⟩
    · rw [List.forall_mem_cons]
      refine ⟨⟨hcounter, value_formatInt (by omega)⟩, fun p hp => ?_⟩
      obtain ⟨e, he, hp⟩ := List.mem_flatten.1 hp
      obtain ⟨htags, hvalues⟩ := hentries e he
      exact ⟨hentry p.1 (htags ▸ List.mem_map_of_mem hp), hvalues p hp⟩
    · have hlen : entries.flatten.length ≤ entries.length * 5 := by
        rw [List.length_flatten, ← smul_eq_mul, ← List.length_map List.length]
        refine List.sum_le_card_nsmul _ 5 (List.forall_mem_map.2 fun e he => ?_)
        rw [← List.length_map Prod.fst, (hentries e he).1]
        exact hshort
      rw [List.length_cons]
      omega
    · rw [List.any_cons, hknown]
      rfl

namespace Built
variable {n : ℕ}

theorem good (h : Built kind n tags) :
    ∀ p ∈ tags, ((1 ≤ p.1 ∧ p.1 < 1000) ∧ p.1 ≠ 95 ∧ p.1 ≠ 96) ∧ Value p.2 := by
  obtain ⟨flat, group, rfl, hflat, hgroup⟩ := h.shape
  intro p hp
  rcases List.mem_append.1 hp with hp | hp
  · have hgood := hflat.good p.1 (List.mem_map_of_mem hp)
    exact ⟨⟨hgood.1, hgood.2.1, hgood.2.2.1⟩, hflat.values p.2 (List.mem_map_of_mem hp)⟩
  · exact hgroup.spec.1 p hp

theorem length_le (h : Built kind n tags) : tags.length ≤ 146 := by
  obtain ⟨flat, group, rfl, hflat, hgroup⟩ := h.shape
  have h1 := hflat.length
  have h2 := hgroup.spec.2.1
  rw [List.length_append]
  omega

/-- A message has a group counter exactly if its kind has a group. -/
theorem counters (h : Built kind n tags) :
    (tags.any fun p => isKnownGroupCounter p.1.toNat) = (groupTags kind).isSome := by
  obtain ⟨flat, group, rfl, hflat, hgroup⟩ := h.shape
  have hnone : (flat.any fun p => isKnownGroupCounter p.1.toNat) = false := by
    rw [List.any_eq_false]
    intro p hp
    rw [(hflat.good p.1 (List.mem_map_of_mem hp)).2.2.2]
    decide
  rw [List.any_append, hnone, Bool.false_or, hgroup.spec.2.2]

theorem renderable (h : Built kind n tags) : Renderable tags := by
  refine ⟨?_, fun p hp => ?_, fun p hp => (h.good p hp).1.2.1, fun p hp => (h.good p hp).1.2.2,
    fun p hp => (h.good p hp).2.1⟩
  · obtain ⟨sender, -, target, -, t, -, hheader⟩ := h.header
    have hhead : tags.head? = (tags.take 5).head? := by
      cases tags <;> rfl
    rw [hhead, hheader]
    rfl
  · have := (h.good p hp).1.1
    omega

theorem short (h : Built kind n tags) {b : Buffer} (hr : render tags = some b) :
    b.length < 2 ^ 32 :=
  h.renderable.short (h.length_le.trans (by decide)) (fun p hp => (h.good p hp).2.2) hr

end Built
end

theorem yields_rendered {n : ℕ} {tags : Tags} {frame : List Byte} (h : render tags = some frame) :
    Yields (seqIs n) (fun f => render tags = some f) (rendered tags : Gen ρ (List Byte)) := by
  unfold rendered
  split
  · rename_i f hf
    exact Steps.pure hf
  · rename_i hnone
    rw [hnone] at h
    cases h

/-- **One message**: it is built, numbered one up, and rendered; or the method
    raises because there is no time stamp. -/
theorem guarded_generateOne {n : ℕ} : Guarded (n < lastSeq) (seqIs n) (seqIs (n + 1))
    (fun r => ∃ tags, Built r.1 (n + 1) tags ∧ render tags = some r.2) (generateOne G) := by
  refine .after (yields_weighted G (by decide)) fun kind _ => ?_
  refine (builds_build G kind n).bind fun _ tags htags => ?_
  refine (yields_rendered htags.renderable.render_eq).bind fun frame hframe => ?_
  exact Steps.pure ⟨tags, htags, hframe⟩

end Generator
end SwiftFIX
