/-
  Strings over any alphabet cut at a delimiter.

  * `cut d l`: the part of `l` before its first `d`, and the part after it;
  * `positions p q l`: the offsets of the elements of `l` satisfying `p`, when
    `l` starts at offset `q`;
  * `pieces d l`: the pieces of `l` ended by a `d`, without the open tail.
-/
import Mathlib.Tactic.Common
import Mathlib.Data.List.Basic

namespace Delimited

variable {α : Type*} [DecidableEq α]

/-! ## The first piece -/

/-- Cut at the first `d`: the elements before it and those after it. -/
def cut (d : α) : List α → Option (List α × List α)
  | [] => none
  | c :: l => if c = d then some ([], l) else (cut d l).map fun r => (c :: r.1, r.2)

theorem cut_none {d : α} {l : List α} : cut d l = none ↔ d ∉ l := by
  induction l with
  | nil => simp [cut]
  | cons c l ih =>
    by_cases h : c = d
    · simp [cut, h]
    · simp [cut, h, ih, Ne.symm h]

theorem cut_append {d : α} {s : List α} (hs : d ∉ s) (t : List α) :
    cut d (s ++ d :: t) = some (s, t) := by
  induction s with
  | nil => simp [cut]
  | cons c s ih =>
    rw [List.mem_cons, not_or] at hs
    simp [cut, Ne.symm hs.1, ih hs.2]

theorem cut_some {d : α} {l s t : List α} :
    cut d l = some (s, t) ↔ l = s ++ d :: t ∧ d ∉ s := by
  constructor
  · intro h
    induction l generalizing s with
    | nil => simp [cut] at h
    | cons c l ih =>
      by_cases hc : c = d
      · simp only [cut, hc, if_true, Option.some.injEq, Prod.mk.injEq] at h
        obtain ⟨rfl, rfl⟩ := h
        simp [hc]
      · simp only [cut, hc, if_false, Option.map_eq_some_iff, Prod.mk.injEq] at h
        obtain ⟨⟨s', t'⟩, h, rfl, rfl⟩ := h
        obtain ⟨rfl, hs⟩ := ih h
        exact ⟨rfl, by simp [Ne.symm hc, hs]⟩
  · rintro ⟨rfl, hs⟩
    exact cut_append hs t

theorem cut_unique {d : α} {s s' t t' : List α} (hs : d ∉ s) (hs' : d ∉ s')
    (h : s ++ d :: t = s' ++ d :: t') : s = s' ∧ t = t' := by
  have h1 := cut_append hs t
  rw [h, cut_append hs' t'] at h1
  simp only [Option.some.injEq, Prod.mk.injEq] at h1
  exact ⟨h1.1.symm, h1.2.symm⟩

/-- Cutting does not look beyond the delimiter. -/
theorem cut_extend {d : α} {l s t : List α} (h : cut d l = some (s, t)) (e : List α) :
    cut d (l ++ e) = some (s, t ++ e) := by
  obtain ⟨rfl, hs⟩ := cut_some.1 h
  rw [List.append_assoc, List.cons_append, cut_append hs]

/-- Cutting looks through a delimiter-free beginning. -/
theorem cut_open_append {d : α} {s : List α} (hs : d ∉ s) (l : List α) :
    cut d (s ++ l) = (cut d l).map fun r => (s ++ r.1, r.2) := by
  rcases hc : cut d l with _ | ⟨u, t⟩
  · rw [Option.map_none, cut_none, List.mem_append, not_or]
    exact ⟨hs, cut_none.1 hc⟩
  · obtain ⟨rfl, hu⟩ := cut_some.1 hc
    rw [← List.append_assoc, cut_append (by simp [hs, hu])]
    rfl

/-! ## Offsets -/

/-- The offsets of the elements satisfying `p` in a list that starts at
    offset `q`. -/
def positions (p : α → Bool) : ℕ → List α → List ℕ
  | _, [] => []
  | q, c :: l => if p c then q :: positions p (q + 1) l else positions p (q + 1) l

omit [DecidableEq α] in
theorem positions_append (p : α → Bool) (l l' : List α) :
    ∀ q, positions p q (l ++ l') = positions p q l ++ positions p (q + l.length) l' := by
  induction l with
  | nil => simp [positions]
  | cons c l ih =>
    intro q
    have h : q + 1 + l.length = q + (l.length + 1) := by omega
    by_cases hc : p c <;> simp [positions, hc, ih, h]

omit [DecidableEq α] in
theorem mem_positions (p : α → Bool) (l : List α) :
    ∀ q k, k ∈ positions p q l ↔ ∃ i c, l[i]? = some c ∧ p c ∧ k = q + i := by
  induction l with
  | nil => simp [positions]
  | cons c l ih =>
    intro q k
    have hs : (∃ i c', (c :: l)[i]? = some c' ∧ p c' ∧ k = q + i) ↔
        (p c ∧ k = q) ∨ ∃ i c', l[i]? = some c' ∧ p c' ∧ k = q + 1 + i := by
      constructor
      · rintro ⟨i, c', h, hp, rfl⟩
        cases i with
        | zero => simp at h; subst h; exact Or.inl ⟨hp, rfl⟩
        | succ i => exact Or.inr ⟨i, c', by simpa using h, hp, by omega⟩
      · rintro (⟨hp, rfl⟩ | ⟨i, c', h, hp, rfl⟩)
        · exact ⟨0, c, by simp, hp, rfl⟩
        · exact ⟨i + 1, c', by simpa using h, hp, by omega⟩
    rw [hs, ← ih (q + 1) k]
    by_cases hc : p c <;> simp [positions, hc]

omit [DecidableEq α] in
theorem positions_lt {p : α → Bool} {l : List α} {q k : ℕ} (h : k ∈ positions p q l) :
    k < q + l.length := by
  obtain ⟨i, c, hi, -, rfl⟩ := (mem_positions p l q k).1 h
  obtain ⟨hlt, -⟩ := List.getElem?_eq_some_iff.1 hi
  omega

omit [DecidableEq α] in
theorem positions_eq_filter (p : α → Bool) (l : List α) :
    ∀ q, positions p q l =
      ((List.range l.length).filter fun i => (l[i]?).any p).map (q + ·) := by
  induction l with
  | nil => exact fun _ => rfl
  | cons c l ih =>
    intro q
    have hcomp : (fun i => q + i) ∘ Nat.succ = fun i => q + 1 + i := by
      funext i; simp only [Function.comp, Nat.succ_eq_add_one]; omega
    have hp : (fun i => ((c :: l)[i]?).any p) ∘ Nat.succ = fun i => (l[i]?).any p := by
      funext i; simp
    rw [List.length_cons, List.range_succ_eq_map, List.filter_cons, List.filter_map, positions, ih,
      hp]
    by_cases hc : p c <;> simp [hc, List.map_map, hcomp]

omit [DecidableEq α] in
theorem positions_pairwise (p : α → Bool) (l : List α) (q : ℕ) :
    (positions p q l).Pairwise (· < ·) := by
  rw [positions_eq_filter, List.pairwise_map]
  refine (List.pairwise_lt_range.filter _).imp ?_
  intro i j hij
  exact Nat.add_lt_add_left hij q

omit [DecidableEq α] in
theorem positions_none {p : α → Bool} {l : List α} (h : ∀ c ∈ l, p c = false) (q : ℕ) :
    positions p q l = [] := by
  rw [List.eq_nil_iff_forall_not_mem]
  intro k hk
  obtain ⟨i, c, hi, hc, -⟩ := (mem_positions p l q k).1 hk
  simp [h c (List.mem_of_getElem? hi)] at hc

/-! ## The part before the delimiter, and all pieces -/

/-- The part of `l` before its first `d`, or all of it. -/
def upTo (d : α) (l : List α) : List α := l.takeWhile (· ≠ d)

theorem upTo_cons_self (d : α) (l : List α) : upTo d (d :: l) = [] := by simp [upTo]

theorem upTo_cons_ne {d c : α} (h : c ≠ d) (l : List α) : upTo d (c :: l) = c :: upTo d l := by
  simp [upTo, h]

theorem upTo_append {d : α} {s : List α} (hs : d ∉ s) (t : List α) : upTo d (s ++ d :: t) = s := by
  induction s with
  | nil => exact upTo_cons_self d t
  | cons c s ih =>
    rw [List.mem_cons, not_or] at hs
    rw [List.cons_append, upTo_cons_ne (Ne.symm hs.1), ih hs.2]

theorem upTo_open {d : α} {l : List α} (h : d ∉ l) : upTo d l = l := by
  induction l with
  | nil => rfl
  | cons c l ih =>
    rw [List.mem_cons, not_or] at h
    rw [upTo_cons_ne (Ne.symm h.1), ih h.2]

theorem notMem_upTo (d : α) (l : List α) : d ∉ upTo d l := by
  rcases hc : cut d l with _ | ⟨s, t⟩
  · rw [upTo_open (cut_none.1 hc)]; exact cut_none.1 hc
  · obtain ⟨rfl, hs⟩ := cut_some.1 hc
    rwa [upTo_append hs]

/-- A longer string agrees up to the end of the shorter. -/
theorem upTo_extend (d : α) (l e : List α) : upTo d l <+: upTo d (l ++ e) := by
  rcases hc : cut d l with _ | ⟨s, t⟩
  · rw [upTo_open (cut_none.1 hc), upTo, List.takeWhile_append_of_pos]
    · exact List.prefix_append l _
    · intro c hc'
      have hne : c ≠ d := fun h => cut_none.1 hc (h ▸ hc')
      simpa using hne
  · obtain ⟨rfl, hs⟩ := cut_some.1 hc
    have h : upTo d (s ++ d :: t ++ e) = s := by
      rw [List.append_assoc, List.cons_append, upTo_append hs]
    exact ⟨[], by rw [h, upTo_append hs, List.append_nil]⟩

/-- The pieces of `l` that a `d` ends, without the open tail. -/
def pieces (d : α) : List α → List (List α)
  | [] => []
  | c :: l =>
    if c = d then [] :: pieces d l
    else match pieces d l with
      | [] => []
      | s :: ss => (c :: s) :: ss

theorem pieces_open {d : α} {l : List α} (h : d ∉ l) : pieces d l = [] := by
  induction l with
  | nil => rfl
  | cons c l ih =>
    rw [List.mem_cons, not_or] at h
    simp [pieces, Ne.symm h.1, ih h.2]

theorem pieces_append {d : α} {s : List α} (hs : d ∉ s) (t : List α) :
    pieces d (s ++ d :: t) = s :: pieces d t := by
  induction s with
  | nil => simp [pieces]
  | cons c s ih =>
    rw [List.mem_cons, not_or] at hs
    simp [pieces, Ne.symm hs.1, ih hs.2]

theorem pieces_of_cut {d : α} {l s t : List α} (h : cut d l = some (s, t)) :
    pieces d l = s :: pieces d t := by
  obtain ⟨rfl, hs⟩ := cut_some.1 h
  exact pieces_append hs t

theorem positions_of_cut {d : α} {l s t : List α} (h : cut d l = some (s, t)) (q : ℕ) :
    positions (· = d) q l = (q + s.length) :: positions (· = d) (q + s.length + 1) t := by
  obtain ⟨rfl, hs⟩ := cut_some.1 h
  have hn : positions (· = d) q s = [] :=
    positions_none (fun c hc => by simpa using fun h' : c = d => hs (h' ▸ hc)) q
  rw [positions_append, hn, List.nil_append]
  simp [positions]

theorem positions_open {d : α} {l : List α} (h : d ∉ l) (q : ℕ) :
    positions (· = d) q l = [] :=
  positions_none (fun c hc => by simpa using fun h' : c = d => h (h' ▸ hc)) q

/-- Induction over a string piece by piece. -/
theorem pieces_induction {d : α} {P : List α → Prop} (hopen : ∀ l, cut d l = none → P l)
    (hcut : ∀ l s t, cut d l = some (s, t) → P t → P l) : ∀ l, P l := by
  intro l
  induction hn : l.length using Nat.strongRecOn generalizing l with
  | _ n ih =>
    rcases hc : cut d l with _ | ⟨s, t⟩
    · exact hopen l hc
    · refine hcut l s t hc (ih t.length ?_ t rfl)
      obtain ⟨rfl, -⟩ := cut_some.1 hc
      simp only [List.length_append, List.length_cons] at hn
      omega

/-- **The pieces of a string** are the delimiter-free strings it consists of,
    each with its delimiter, up to a delimiter-free tail. -/
theorem pieces_eq {d : α} {l : List α} {ps : List (List α)} :
    pieces d l = ps ↔
      ∃ t, l = ps.flatMap (· ++ [d]) ++ t ∧ d ∉ t ∧ ∀ s ∈ ps, d ∉ s := by
  constructor
  · rintro rfl
    induction l using pieces_induction (d := d) with
    | hopen l h =>
      have hd := cut_none.1 h
      exact ⟨l, by simp [pieces_open hd], hd, by simp [pieces_open hd]⟩
    | hcut l s t h ih =>
      obtain ⟨u, ht, hu, hs⟩ := ih
      obtain ⟨hl, hd⟩ := cut_some.1 h
      refine ⟨u, ?_, hu, ?_⟩
      · rw [pieces_of_cut h, hl]
        conv_lhs => rw [ht]
        simp
      · rw [pieces_of_cut h]
        exact List.forall_mem_cons.2 ⟨hd, hs⟩
  · rintro ⟨t, rfl, ht, hs⟩
    induction ps with
    | nil => simpa using pieces_open ht
    | cons s ps ih =>
      rw [List.forall_mem_cons] at hs
      have hl : (s :: ps).flatMap (· ++ [d]) ++ t = s ++ d :: (ps.flatMap (· ++ [d]) ++ t) := by
        simp
      rw [hl, pieces_append hs.1, ih hs.2]

/-- Two strings with equally many pieces at their front, equal as strings, have
    the same pieces there. -/
theorem pieces_unique {d : α} {ps : List (List α)} :
    ∀ {ps' : List (List α)} {t t' : List α}, (∀ s ∈ ps, d ∉ s) → (∀ s ∈ ps', d ∉ s) →
      ps.length = ps'.length → ps.flatMap (· ++ [d]) ++ t = ps'.flatMap (· ++ [d]) ++ t' →
      ps = ps' := by
  induction ps with
  | nil =>
    intro ps' t t' _ _ hl _
    exact (List.length_eq_zero_iff.1 hl.symm).symm
  | cons s ps ih =>
    intro ps' t t' hs hs' hl h
    cases ps' with
    | nil => cases hl
    | cons s' ps' =>
      rw [List.forall_mem_cons] at hs hs'
      simp only [List.flatMap_cons, List.append_assoc, List.singleton_append] at h
      obtain ⟨rfl, hrest⟩ := cut_unique hs.1 hs'.1 h
      rw [ih hs.2 hs'.2 (Nat.succ.inj hl) hrest]

theorem length_pieces (d : α) (l : List α) : (pieces d l).length = l.count d := by
  induction l using pieces_induction (d := d) with
  | hopen l h =>
    rw [pieces_open (cut_none.1 h), List.count_eq_zero_of_not_mem (cut_none.1 h)]
    rfl
  | hcut l s t h ih =>
    obtain ⟨rfl, hs⟩ := cut_some.1 h
    rw [pieces_append hs, List.length_cons, ih, List.count_append, List.count_cons_self,
      List.count_eq_zero_of_not_mem hs, Nat.zero_add]

theorem length_positions (d : α) (l : List α) :
    ∀ q, (positions (· = d) q l).length = (pieces d l).length := by
  induction l using pieces_induction (d := d) with
  | hopen l h =>
    intro q
    rw [positions_open (cut_none.1 h), pieces_open (cut_none.1 h)]; rfl
  | hcut l s t h ih =>
    intro q
    rw [positions_of_cut h, pieces_of_cut h, List.length_cons, List.length_cons, ih]

end Delimited
