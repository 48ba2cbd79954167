/-
  What the primitives of the bulk generator yield, whatever the random source
  draws: printable values without an SOH (`Value`), and time stamps that are in
  the order of the numbers (`timestamp_lt`) up to the last day of a `datetime`.
-/
import SwiftFIX.Generator

namespace SwiftFIX
namespace Generator

open Calendar Draws

variable {ρ α : Type} (G : Random ρ)

/-! ## Values -/

/-- ASCII characters without an SOH. -/
def Clean (s : List Char) : Prop := ∀ c ∈ s, c.toNat < 128 ∧ c ≠ sohChar

/-- A value of a generated message: it has at most 440 characters. -/
def Value (s : List Char) : Prop := Clean s ∧ s.length ≤ 440

instance : DecidablePred Clean := fun s => inferInstanceAs (Decidable (∀ c ∈ s, _ ∧ _))

instance : DecidablePred Value := fun _ => inferInstanceAs (Decidable (_ ∧ _))

theorem Clean.append {s t : List Char} (hs : Clean s) (ht : Clean t) : Clean (s ++ t) := by
  intro c hc
  exact (List.mem_append.1 hc).elim (hs c) (ht c)

theorem Clean.cons {c : Char} {s : List Char} (hc : c.toNat < 128 ∧ c ≠ sohChar) (hs : Clean s) :
    Clean (c :: s) := List.forall_mem_cons.2 ⟨hc, hs⟩

theorem clean_of_digits {s : List Char} (h : ∀ c ∈ s, c.isDigit) : Clean s := by
  intro c hc
  have hrange := toNat_of_isDigit (h c hc)
  refine ⟨by omega, ?_⟩
  rintro rfl
  have hsoh : sohChar.toNat = 1 := rfl
  omega

theorem clean_toDigits (n : ℕ) : Clean (Nat.toDigits 10 n) := clean_of_digits (isDigit_toDigits n)

theorem clean_zeroPad (w n : ℕ) : Clean (zeroPad w n) := by
  refine Clean.append ?_ (clean_toDigits n)
  intro c hc
  rw [List.eq_of_mem_replicate hc]
  decide

theorem length_zeroPad {w n : ℕ} (hw : 0 < w) (h : n < 10 ^ w) : (zeroPad w n).length = w := by
  have hle := (Nat.length_toDigits_le_iff (by decide) hw).2 h
  rw [zeroPad, List.length_append, List.length_replicate]
  omega

theorem value_formatInt {n : ℕ} (h : n < 10 ^ 20) : Value (formatInt n) := by
  refine ⟨clean_toDigits n, ?_⟩
  have hle := (Nat.length_toDigits_le_iff (by decide) (by decide)).2 h
  exact le_trans hle (by decide)

/-! ## Draws -/

/-- The generator has numbered `n` messages. -/
def seqIs (n : ℕ) (g : BulkGenerator ρ) : Prop := g.seq = n

variable {n : ℕ}

theorem yields_draw (f : ρ → α × ρ) {P : α → Prop} (h : ∀ r, P (f r).1) :
    Yields (seqIs n) P (draw f) := fun g hg => ⟨_, _, rfl, hg, h g.r⟩

theorem yields_item {l : List α} {i : ℕ} (h : i < l.length) :
    Yields (seqIs n) (· ∈ l) (item l i : Gen ρ α) := by
  rw [item, List.getElem?_eq_getElem h]
  exact Steps.pure (List.getElem_mem h)

theorem yields_choice {l : List α} (h : l ≠ []) : Yields (seqIs n) (· ∈ l) (choice G l) := by
  have hpos := List.length_pos_of_ne_nil h
  rw [choice, if_neg (by simpa using h)]
  exact (yields_draw _ fun r => G.choice_lt r hpos).bind fun i hi => yields_item hi

theorem yields_weighted {l : List (α × ℕ)} (h : 0 < (l.map Prod.snd).sum) :
    Yields (seqIs n) (· ∈ l.map Prod.fst) (weighted G l) := by
  rw [weighted, if_neg (by omega)]
  refine (yields_draw (P := (· < (l.map Prod.snd).length)) _ fun r => G.choices_lt r h).bind
    fun i hi => yields_item ?_
  rwa [List.length_map] at hi ⊢

theorem yields_choices {l : List α} (h : l ≠ []) (k : ℕ) :
    Yields (seqIs n) (fun s => s.length = k ∧ ∀ a ∈ s, a ∈ l) (choices G l k) := by
  have hones : l.map (Prod.snd ∘ fun a => (a, 1)) = List.replicate l.length 1 := List.map_const' ..
  have hsum : 0 < ((l.map fun a => (a, 1)).map Prod.snd).sum := by
    rw [List.map_map, hones, List.sum_replicate_nat, Nat.mul_one]
    exact List.length_pos_of_ne_nil h
  refine Yields.times ((yields_weighted G hsum).mono fun a ha => ?_) k
  simpa using ha

theorem yields_randint {a b : ℕ} (h : a ≤ b) :
    Yields (seqIs n) (fun i => a ≤ i ∧ i ≤ b) (randint G a b) := by
  rw [randint, if_neg (by omega)]
  exact yields_draw _ fun r => G.randint_mem r h

/-! ## Primitives -/

theorem value_id {p s : List Char} (hp : Clean p ∧ p.length = 2)
    (hs : s.length = 10 ∧ ∀ c ∈ s, c ∈ upperDigits) : Value (p ++ s) := by
  have hclean : ∀ c ∈ upperDigits, c.toNat < 128 ∧ c ≠ sohChar := by decide
  refine ⟨hp.1.append fun c hc => hclean c (hs.2 c hc), ?_⟩
  rw [List.length_append, hp.2, hs.1]
  decide

theorem yields_clOrdId : Yields (seqIs n) Value (clOrdId G) :=
  (yields_choices G (by decide) 10).bind fun _ hs => Steps.pure (value_id (by decide) hs)

theorem yields_execId : Yields (seqIs n) Value (execId G) :=
  (yields_choices G (by decide) 10).bind fun _ hs => Steps.pure (value_id (by decide) hs)

theorem yields_orderId : Yields (seqIs n) Value (orderId G) :=
  (yields_choices G (by decide) 10).bind fun _ hs => Steps.pure (value_id (by decide) hs)

theorem yields_symbol : Yields (seqIs n) Value (symbol G) :=
  (yields_choice G (by decide)).mono (by decide : ∀ s ∈ SYMBOLS, Value s)

theorem yields_qty : Yields (seqIs n) (fun q => 5 ≤ q ∧ q ≤ 10000) (qty G) :=
  (yields_choice G (by decide)).mono (by decide : ∀ q ∈ quantities, 5 ≤ q ∧ q ≤ 10000)

theorem roundHalfEven_le (x : ℚ) : roundHalfEven x ≤ x.floor + 1 := by
  unfold roundHalfEven
  split
  · omega
  split
  · omega
  split <;> omega

theorem one_le_maxFloat : 1 ≤ maxFloat := by decide +kernel

theorem maxFloat_digits : (Nat.toDigits 10 maxFloat).length ≤ 309 := by decide +kernel

theorem length_toDigits_mono {m n : ℕ} (h : m ≤ n) :
    (Nat.toDigits 10 m).length ≤ (Nat.toDigits 10 n).length := by
  have hpos : 0 < (Nat.toDigits 10 n).length := List.length_pos_of_ne_nil Nat.toDigits_ne_nil
  refine (Nat.length_toDigits_le_iff (by decide) hpos).2 (h.trans_lt ?_)
  exact (Nat.length_toDigits_le_iff (by decide) hpos).1 le_rfl

theorem value_format2f {x : ℚ} (h : x < maxFloat) : Value (format2f x) := by
  have hcents : (roundHalfEven (100 * x)).toNat ≤ 100 * maxFloat := by
    have hround := roundHalfEven_le (100 * x)
    have hfloor : ((100 * x).floor : ℚ) < (100 * maxFloat : ℤ) := by
      push_cast
      linarith [Rat.floor_le (100 * x)]
    have := Int.cast_lt.1 hfloor
    omega
  unfold format2f
  generalize (roundHalfEven (100 * x)).toNat = cents at hcents
  have hwhole := (length_toDigits_mono (Nat.div_le_of_le_mul hcents)).trans maxFloat_digits
  have hrest : (zeroPad 2 (cents % 100)).length = 2 :=
    length_zeroPad (by decide) (Nat.mod_lt cents (by decide))
  refine ⟨(clean_toDigits _).append (.cons (by decide) (clean_zeroPad _ _)), ?_⟩
  rw [List.length_append, List.length_cons, hrest]
  omega

theorem yields_price : Yields (seqIs n) Value (price G) := by
  refine (yields_draw (P := (· < (maxFloat : ℚ))) _ fun r => G.lognormvariate_lt _ _ r).bind
    fun x hx => Steps.pure ?_
  have hone : (1 : ℚ) ≤ maxFloat := Nat.one_le_cast.2 one_le_maxFloat
  exact value_format2f (max_lt (by linarith) hx)

theorem intercalate_words {ws : List (List Char)} (h : ∀ w ∈ ws, Clean w ∧ w.length ≤ 10) :
    Clean ([' '].intercalate ws) ∧ ([' '].intercalate ws).length ≤ 11 * ws.length := by
  induction ws with
  | nil => exact ⟨by simp [Clean, List.intercalate], by simp [List.intercalate]⟩
  | cons w ws ih =>
    rw [List.forall_mem_cons] at h
    obtain ⟨⟨hw, hl⟩, hws⟩ := h
    obtain ⟨ihc, ihl⟩ := ih hws
    cases ws with
    | nil =>
      have hone : [' '].intercalate [w] = w := by simp [List.intercalate]
      rw [hone]
      exact ⟨hw, by simp only [List.length_singleton]; omega⟩
    | cons w' ws =>
      have hcons : [' '].intercalate (w :: w' :: ws) = w ++ ' ' :: [' '].intercalate (w' :: ws) := by
        simp [List.intercalate]
      rw [hcons]
      refine ⟨hw.append (.cons (by decide) ihc), ?_⟩
      rw [List.length_append, List.length_cons, List.length_cons]
      omega

theorem yields_text {a b : ℕ} (h : a ≤ b) (hb : b ≤ 40) : Yields (seqIs n) Value (text G a b) := by
  have hwords : ∀ w ∈ TEXT_WORDS, Clean w ∧ w.length ≤ 10 := by decide
  refine (yields_randint G h).bind fun k hk => ?_
  refine (Yields.times (yields_choice G (by decide)) k).bind fun ws hws => Steps.pure ?_
  obtain ⟨hclean, hlen⟩ := intercalate_words fun w hw => hwords w (hws.2 w hw)
  exact ⟨hclean, by omega⟩

/-! ## Time stamps -/

/-- Messages from this number on would be stamped after the last day of a
    `datetime`. -/
def lastSeq : ℕ := 25163507519999

theorem timestamp_eq {n : ℕ} {s : List Char} : timestamp n = some s ↔ n ≤ lastSeq ∧
    s = strftime (fromOrdinal (startOrdinal + n * 10 / 86400000)) (n * 10 % 86400000) := by
  have hmax : maxOrdinal = 3652059 := rfl
  have hstart : startOrdinal = 739617 := rfl
  have hlast : lastSeq = 25163507519999 := rfl
  have hday : maxOrdinal < startOrdinal + n * 10 / 86400000 ↔ ¬ n ≤ lastSeq := by omega
  rw [timestamp]
  simp only [hday]
  by_cases hn : n ≤ lastSeq
  · simp [hn, eq_comm]
  · simp [hn]

theorem timestamp_eq_none {n : ℕ} : timestamp n = none ↔ lastSeq < n := by
  rw [Option.eq_none_iff_forall_ne_some, ← not_le]
  constructor
  · exact fun h hn => h _ (timestamp_eq.2 ⟨hn, rfl⟩)
  · exact fun h s hs => h (timestamp_eq.1 hs).1

/-- What is printed has the digits it is printed with. -/
structure Printed (d : Date) : Prop where
  year : d.year < 10 ^ 4
  month : d.month < 10 ^ 2
  day : d.day < 10 ^ 2

theorem fromOrdinal_printed {n : ℕ} (h : n ≤ lastSeq) :
    Printed (fromOrdinal (startOrdinal + n * 10 / 86400000)) := by
  have hmax : daysBeforeYear 10000 = 3652059 := by decide
  have hstart : startOrdinal = 739617 := rfl
  rw [lastSeq] at h
  obtain ⟨hvalid, hord⟩ :=
    fromOrdinal_spec (show 1 ≤ startOrdinal + n * 10 / 86400000 by omega)
  generalize fromOrdinal (startOrdinal + n * 10 / 86400000) = d at hvalid hord
  have hlong : ∀ (leap : Bool), ∀ m ≤ 12, daysInMonth leap m ≤ 31 := by decide
  have hday := hvalid.day.2.trans (hlong _ _ hvalid.month.2)
  refine ⟨?_, hvalid.month.2.trans_lt (by decide), hday.trans_lt (by decide)⟩
  by_contra hyear
  have hmono := daysBeforeYear_mono (by decide : 1 ≤ 10000) (not_lt.1 hyear)
  have hpos := hvalid.day.1
  rw [toOrdinal] at hord
  omega

theorem value_strftime {d : Date} {ms : ℕ} (hd : Printed d) (hms : ms < 86400000) :
    Value (strftime d ms) := by
  have hdash : '-'.toNat < 128 ∧ '-' ≠ sohChar := by decide
  have hcolon : ':'.toNat < 128 ∧ ':' ≠ sohChar := by decide
  have hdot : '.'.toNat < 128 ∧ '.' ≠ sohChar := by decide
  constructor
  · exact (clean_zeroPad _ _).append ((clean_zeroPad _ _).append ((clean_zeroPad _ _).append
      (.cons hdash ((clean_zeroPad _ _).append (.cons hcolon ((clean_zeroPad _ _).append
        (.cons hcolon ((clean_zeroPad _ _).append (.cons hdot (clean_zeroPad _ _))))))))))
  · simp only [strftime, List.length_append, List.length_cons]
    rw [length_zeroPad (by decide) hd.year, length_zeroPad (by decide) hd.month,
      length_zeroPad (by decide) hd.day, length_zeroPad (by decide) (by omega),
      length_zeroPad (by decide) (by omega), length_zeroPad (by decide) (by omega),
      length_zeroPad (by decide) (by omega)]
    decide

theorem value_timestamp {n : ℕ} {s : List Char} (h : timestamp n = some s) : Value s := by
  obtain ⟨hn, rfl⟩ := timestamp_eq.1 h
  exact value_strftime (fromOrdinal_printed hn) (Nat.mod_lt _ (by decide))

/-! ### In order -/

theorem append_lt_append {s s' : List Char} (hl : s.length = s'.length) (h : s < s')
    (t t' : List Char) : s ++ t < s' ++ t' := by
  induction s generalizing s' with
  | nil =>
    obtain rfl := List.length_eq_zero_iff.1 hl.symm
    exact absurd h (List.lt_irrefl [])
  | cons c s ih =>
    obtain ⟨c', s', rfl⟩ := List.exists_cons_of_length_eq_add_one hl.symm
    rw [List.cons_append, List.cons_append, List.cons_lt_cons_iff]
    rcases List.cons_lt_cons_iff.1 h with hc | ⟨rfl, hs⟩
    · exact Or.inl hc
    · exact Or.inr ⟨rfl, ih (Nat.succ.inj hl) hs⟩

theorem zeroPad_succ {w n : ℕ} (hw : 0 < w) :
    zeroPad (w + 1) n = zeroPad w (n / 10) ++ [(n % 10).digitChar] := by
  by_cases h : n < 10
  · obtain ⟨k, rfl⟩ := Nat.exists_eq_add_of_lt hw
    rw [zeroPad, zeroPad, Nat.div_eq_of_lt h, Nat.mod_eq_of_lt h, Nat.toDigits_of_lt_base h,
      Nat.toDigits_of_lt_base (by decide : 0 < 10)]
    simp [List.replicate_succ']
  · rw [zeroPad, zeroPad, Nat.toDigits_of_base_le (by decide) (not_lt.1 h), List.length_append,
      List.length_singleton, ← List.append_assoc, Nat.add_sub_add_right]

/-- Numbers of one width are in the order of their digits. -/
theorem zeroPad_lt {w : ℕ} (hw : 0 < w) : ∀ {a b : ℕ}, a < b → b < 10 ^ w →
    zeroPad w a < zeroPad w b := by
  have hdigit : ∀ j < 10, ∀ i < j, i.digitChar < j.digitChar := by decide
  induction w, hw using Nat.le_induction with
  | base =>
    intro a b hab hb
    rw [show Nat.succ 0 = 1 from rfl, pow_one] at hb
    rw [zeroPad, zeroPad, Nat.toDigits_of_lt_base (hab.trans hb), Nat.toDigits_of_lt_base hb]
    exact List.cons_lt_cons_iff.2 (Or.inl (hdigit b hb a hab))
  | succ w hw ih =>
    intro a b hab hb
    have hlen : (zeroPad w (a / 10)).length = (zeroPad w (b / 10)).length := by
      rw [length_zeroPad hw (by omega), length_zeroPad hw (by omega)]
    rw [zeroPad_succ hw, zeroPad_succ hw]
    rcases (Nat.div_le_div_right hab.le : a / 10 ≤ b / 10).lt_or_eq with hlt | heq
    · exact append_lt_append hlen (ih hlt (by omega)) _ _
    · rw [heq]
      exact List.append_left_lt (List.cons_lt_cons_iff.2 (Or.inl (hdigit _ (by omega) _ (by omega))))

theorem zeroPad_append_lt {w a b : ℕ} {s t : List Char} (hw : 0 < w) (ha : a < 10 ^ w)
    (hb : b < 10 ^ w) (h : a < b ∨ a = b ∧ s < t) : zeroPad w a ++ s < zeroPad w b ++ t := by
  rcases h with hlt | ⟨rfl, hs⟩
  · have hlen : (zeroPad w a).length = (zeroPad w b).length := by
      rw [length_zeroPad hw ha, length_zeroPad hw hb]
    exact append_lt_append hlen (zeroPad_lt hw hlt hb) s t
  · exact List.append_left_lt hs

/-- **Later messages have later time stamps**, as strings. -/
theorem timestamp_lt {m n : ℕ} {s t : List Char} (hm : timestamp m = some s)
    (hn : timestamp n = some t) (h : m < n) : s < t := by
  obtain ⟨hmle, rfl⟩ := timestamp_eq.1 hm
  obtain ⟨hnle, rfl⟩ := timestamp_eq.1 hn
  have hd := fromOrdinal_printed hmle
  have he := fromOrdinal_printed hnle
  have hstart : startOrdinal = 739617 := rfl
  have hcons : ∀ (c : Char) {u v : List Char}, u < v → c :: u < c :: v := fun c _ _ huv =>
    List.cons_lt_cons_iff.2 (Or.inr ⟨rfl, huv⟩)
  rcases (Nat.div_le_div_right (by omega) : m * 10 / 86400000 ≤ n * 10 / 86400000).lt_or_eq with
    hday | hday
  · have hbefore := fromOrdinal_before (show 1 ≤ startOrdinal + m * 10 / 86400000 by omega)
      (Nat.add_lt_add_left hday startOrdinal)
    rw [strftime, strftime]
    refine zeroPad_append_lt (by decide) hd.year he.year
      (hbefore.imp_right (And.imp_right fun hmd => ?_))
    refine zeroPad_append_lt (by decide) hd.month he.month
      (hmd.imp_right (And.imp_right fun hday => ?_))
    exact zeroPad_append_lt (by decide) hd.day he.day (Or.inl hday)
  · have hms : m * 10 % 86400000 < n * 10 % 86400000 := by omega
    have hlt := Nat.mod_lt (m * 10) (show 0 < 86400000 by decide)
    have hlt' := Nat.mod_lt (n * 10) (show 0 < 86400000 by decide)
    rw [hday, strftime, strftime]
    generalize m * 10 % 86400000 = a at hms hlt
    generalize n * 10 % 86400000 = b at hms hlt'
    refine List.append_left_lt (List.append_left_lt (List.append_left_lt (hcons _ ?_)))
    refine zeroPad_append_lt (by decide) (by omega) (by omega) ?_
    rcases (Nat.div_le_div_right hms.le : a / 3600000 ≤ b / 3600000).lt_or_eq with h1 | h1
    · exact Or.inl h1
    refine Or.inr ⟨h1, hcons _ (zeroPad_append_lt (by decide) (by omega) (by omega) ?_)⟩
    rcases (show a / 60000 % 60 ≤ b / 60000 % 60 by omega).lt_or_eq with h2 | h2
    · exact Or.inl h2
    refine Or.inr ⟨h2, hcons _ (zeroPad_append_lt (by decide) (by omega) (by omega) ?_)⟩
    rcases (show a / 1000 % 60 ≤ b / 1000 % 60 by omega).lt_or_eq with h3 | h3
    · exact Or.inl h3
    exact Or.inr ⟨h3, hcons _ (zeroPad_lt (by decide) (by omega) (by omega))⟩

end Generator
end SwiftFIX
