import Mathlib.Data.List.TakeWhile
import ValyriaApp.Protocol.Text

/-! # Whole numbers as text

A whole number that a double holds exactly is written with its decimal digits:
no shorter decimal reads back as the number, so its text tells it apart from all
others. The other way round, the digits of any integer are read as the double
nearest to it.
-/

namespace ValyriaApp.Num

variable {n m : ℕ}

theorem gap_le_one (h : n < 2 ^ 53) :
    (2 : ℚ) ^ (Max.max (Int.log 2 (n : ℚ) - 52) (-1074)) ≤ 1 := by
  have hlog : Nat.log 2 n ≤ 52 := by
    rcases Nat.eq_zero_or_pos n with rfl | hpos
    · simp
    · exact Nat.le_of_lt_succ (Nat.log_lt_of_lt_pow hpos.ne' h)
  rw [Int.log_natCast]
  apply zpow_le_one_of_nonpos₀ one_le_two
  omega

theorem readsBack_self (n : ℕ) : readsBack n n = true := by
  have hgap (e : ℤ) : (0 : ℚ) < 2 ^ e / 2 := half_pos (zpow_pos two_pos e)
  simp only [readsBack, le_refl, if_true, sub_self, decide_eq_true_eq]
  exact Or.inl (hgap _)

theorem eq_of_readsBack (h : n < 2 ^ 53) (hm : readsBack n m = true) : m = n := by
  have hgap := gap_le_one h
  have hpos : (0 : ℚ) < 2 ^ (Max.max (Int.log 2 (n : ℚ) - 52) (-1074)) := zpow_pos two_pos _
  rw [readsBack] at hm
  generalize (2 : ℚ) ^ (Max.max (Int.log 2 (n : ℚ) - 52) (-1074)) = gap at hm hgap hpos
  have hclose : |(m : ℚ) - n| < 1 := by
    simp only at hm
    split at hm
    · next hle =>
      rw [abs_of_nonneg (sub_nonneg.mpr hle)]
      rcases of_decide_eq_true hm with hlt | ⟨heq, -⟩ <;> linarith
    · next hle =>
      rw [abs_of_neg (sub_neg.mpr (not_le.mp hle))]
      rcases of_decide_eq_true hm with hlt | ⟨heq, -⟩
      · split at hlt <;> linarith
      · split at heq <;> linarith
  have hint : |(m : ℤ) - n| < 1 := by exact_mod_cast hclose
  have := abs_lt.mp hint
  omega

theorem neighbours_of_le {i : ℕ} (hi : i ≤ Nat.log 10 n) {d : ℕ × ℤ}
    (hd : d ∈ neighbours n (i + 1)) : d.2 = ((Nat.log 10 n - i : ℕ) : ℤ) := by
  simp only [neighbours, List.mem_map] at hd
  obtain ⟨s, -, rfl⟩ := hd
  have hlog := Int.log_natCast (R := ℚ) 10 n
  omega

/-- With all its digits the number itself is tried first. -/
theorem find_neighbours (n : ℕ) :
    (neighbours n (Nat.log 10 n + 1)).find? (fun d => readsBack n (d.1 * 10 ^ d.2)) =
      some (n, 0) := by
  have hexponent : Int.log 10 (n : ℚ) + 1 - ((Nat.log 10 n + 1 : ℕ) : ℤ) = 0 := by
    have hlog := Int.log_natCast (R := ℚ) 10 n
    omega
  have hreads : readsBack (n : ℚ) ((n : ℚ) * 10 ^ (0 : ℤ)) = true := by
    simpa using readsBack_self n
  simp only [neighbours, hexponent, zpow_zero, div_one, Int.floor_natCast, Int.toNat_natCast,
    sub_self]
  rw [if_pos (by norm_num)]
  simp [readsBack_self]

theorem shortest_natCast (hn : 0 < n) (h : n < 2 ^ 53) :
    ∃ s e : ℕ, shortest n = (s, (e : ℤ)) ∧ s * 10 ^ e = n := by
  have hlog : Nat.log 10 n < 17 := Nat.log_lt_of_lt_pow hn.ne' (h.trans (by norm_num))
  have hrange : List.range 17 =
      List.range (Nat.log 10 n + 1) ++
        (List.range (16 - Nat.log 10 n)).map (Nat.log 10 n + 1 + ·) := by
    rw [← List.range_add]
    congr 1
    omega
  obtain ⟨d, hd⟩ : ∃ d, (List.range (Nat.log 10 n + 1)).findSome? (fun i =>
      (neighbours n (i + 1)).find? fun d => readsBack n (d.1 * 10 ^ d.2)) = some d := by
    rw [← Option.isSome_iff_exists, List.findSome?_isSome_iff]
    exact ⟨Nat.log 10 n, by simp, by rw [find_neighbours]; rfl⟩
  have hshortest : shortest n = d := by
    rw [shortest, hrange, List.findSome?_append, hd]
    rfl
  obtain ⟨i, hi, hfound⟩ := List.exists_of_findSome?_eq_some hd
  have hexponent := neighbours_of_le (Nat.le_of_lt_succ (List.mem_range.mp hi))
    (List.mem_of_find?_eq_some hfound)
  refine ⟨d.1, Nat.log 10 n - i, hshortest.trans (Prod.ext rfl hexponent), ?_⟩
  apply eq_of_readsBack h
  have hreads := List.find?_some hfound
  rw [hexponent, zpow_natCast] at hreads
  exact_mod_cast hreads

theorem trimTen_natCast (s e : ℕ) :
    ∃ s' e' : ℕ, trimTen (s, (e : ℤ)) = (s', (e' : ℤ)) ∧ s' * 10 ^ e' = s * 10 ^ e := by
  by_cases hs : s = 10
  · subst hs
    exact ⟨1, e + 1, rfl, by ring⟩
  · refine ⟨s, e, ?_, rfl⟩
    rw [trimTen]
    rintro e' heq
    exact hs (Prod.mk.inj heq).1

/-- The text of a whole number: digits, and the zeros that they do not say. -/
theorem positiveText_natCast (hn : 0 < n) (h : n < 2 ^ 53) :
    ∃ s e : ℕ, positiveText n = Nat.toDigits 10 s ++ List.replicate e '0' ∧ s * 10 ^ e = n := by
  obtain ⟨s, e, hshortest, hvalue⟩ := shortest_natCast hn h
  obtain ⟨s', e', htrim, hvalue'⟩ := trimTen_natCast s e
  refine ⟨s', e', ?_, hvalue'.trans hvalue⟩
  have hn16 : s' * 10 ^ e' < 10 ^ 16 := by
    rw [hvalue', hvalue]
    exact h.trans (by norm_num)
  have hs : 0 < s' := by
    rcases Nat.eq_zero_or_pos s' with rfl | hpos
    · omega
    · exact hpos
  have he : e' < 16 := by
    by_contra hge
    have hpow : 10 ^ 16 ≤ 10 ^ e' := Nat.pow_le_pow_right (by norm_num) (not_lt.mp hge)
    have hmul : 10 ^ e' ≤ s' * 10 ^ e' := Nat.le_mul_of_pos_left _ hs
    omega
  have hlength : (Nat.toDigits 10 s').length ≤ 16 - e' := by
    rw [Nat.length_toDigits_le_iff (by norm_num) (by omega)]
    have hsplit : 10 ^ 16 = 10 ^ (16 - e') * 10 ^ e' := by
      rw [← pow_add]
      congr 1
      omega
    rw [hsplit] at hn16
    exact Nat.lt_of_mul_lt_mul_right hn16
  rw [positiveText, hshortest, htrim]
  simp only [Nat.toList_repr]
  rw [if_pos (by omega)]
  congr 2
  omega

theorem text_natCast (hn : 0 < n) (h : n < 2 ^ 53) :
    ∃ s e : ℕ, (n : Num).text.toList = Nat.toDigits 10 s ++ List.replicate e '0' ∧
      s * 10 ^ e = n := by
  obtain ⟨s, e, htext, hvalue⟩ := positiveText_natCast hn h
  refine ⟨s, e, ?_, hvalue⟩
  have hpos : (0 : ℚ) < n := by exact_mod_cast hn
  rw [natCast_def, text, if_neg hpos.ne', if_neg (not_lt.mpr hpos.le), String.toList_ofList, htext]

theorem isDigit_text (hn : 0 < n) (h : n < 2 ^ 53) {c : Char} (hc : c ∈ (n : Num).text.toList) :
    c.isDigit := by
  obtain ⟨s, e, htext, -⟩ := text_natCast hn h
  rw [htext] at hc
  rcases List.mem_append.mp hc with hc | hc
  · exact Nat.isDigit_of_mem_toDigits (by norm_num) (by norm_num) hc
  · obtain rfl := List.eq_of_mem_replicate hc
    rfl

/-- The digits say the number. -/
theorem text_natCast_inj (hn : 0 < n) (h : n < 2 ^ 53) (hm : 0 < m) (hm' : m < 2 ^ 53)
    (htext : (n : Num).text = (m : Num).text) : n = m := by
  have hvalue {k : ℕ} (hk : 0 < k) (hk' : k < 2 ^ 53) :
      Nat.ofDigitChars 10 (k : Num).text.toList 0 = k := by
    obtain ⟨s, e, htext, hvalue⟩ := text_natCast hk hk'
    rw [htext, Nat.ofDigitChars_append, Nat.ofDigitChars_ten_toDigits,
      Nat.ofDigitChars_replicate_zero, Nat.mul_comm, hvalue]
  rw [← hvalue hn h, htext, hvalue hm hm']

/-! ## Reading digits -/

theorem isSpace_of_isDigit {c : Char} (h : c.isDigit = true) : isSpace c = false := by
  have hrange : 48 ≤ c.toNat ∧ c.toNat ≤ 57 := by
    simpa [Char.isDigit, UInt32.le_iff_toNat_le] using h
  simp only [isSpace, List.mem_cons, List.not_mem_nil]
  simp
  omega

theorem digit?_of_isDigit {c : Char} (h : c.isDigit = true) :
    digit? c = some (c.toNat - '0'.toNat) ∧ c.toNat - '0'.toNat < 10 := by
  have hrange : 48 ≤ c.toNat ∧ c.toNat ≤ 57 := by
    simpa [Char.isDigit, UInt32.le_iff_toNat_le] using h
  have h0 : '0'.toNat = 48 := rfl
  refine ⟨if_pos ?_, by omega⟩
  simpa [Char.isDigit, Char.le_def] using h

theorem digits?_eq {ds : List Char} (h : ∀ c ∈ ds, c.isDigit = true) :
    digits? 10 ds = some (Nat.ofDigitChars 10 ds 0) := by
  unfold digits?
  generalize 0 = n
  induction ds generalizing n with
  | nil => rfl
  | cons d ds ih =>
    obtain ⟨hd, hds⟩ := List.forall_mem_cons.mp h
    obtain ⟨hdigit, hlt⟩ := digit?_of_isDigit hd
    rw [List.foldlM_cons, hdigit, Option.bind_some, if_pos hlt, Nat.ofDigitChars_cons,
      Nat.mul_comm 10 n]
    exact ih hds _

theorem span_of_forall {p : Char → Bool} {cs : List Char} (h : ∀ c ∈ cs, p c = true) :
    cs.span p = (cs, []) := by
  rw [List.span_eq_takeWhile_dropWhile, List.takeWhile_eq_self_iff.mpr h,
    List.dropWhile_eq_nil_iff.mpr h]

theorem decimal?_digits {ds : List Char} (h : ∀ c ∈ ds, c.isDigit = true) (hne : ds ≠ []) :
    decimal? ds = some (Nat.ofDigitChars 10 ds 0 : ℕ) := by
  have hexp : ds.span (fun c => decide (c ≠ 'e' ∧ c ≠ 'E')) = (ds, []) := by
    refine span_of_forall fun c hc => decide_eq_true ⟨?_, ?_⟩ <;> rintro rfl <;>
      exact absurd (h _ hc) (by decide)
  have hpoint : ds.span (fun c => decide (c ≠ '.')) = (ds, []) := by
    refine span_of_forall fun c hc => decide_eq_true ?_
    rintro rfl
    exact absurd (h _ hc) (by decide)
  unfold decimal?
  simp only [hexp, hpoint, List.drop_nil, List.append_nil, digits?_eq h]
  simp [guard, hne]

theorem trim_of_forall {cs : List Char} (h : ∀ c ∈ cs, isSpace c = false) : trim cs = cs := by
  have hdrop {cs : List Char} (h : ∀ c ∈ cs, isSpace c = false) : cs.dropWhile isSpace = cs := by
    cases cs with
    | nil => rfl
    | cons c cs => rw [List.dropWhile_cons_of_neg (by simp [h c List.mem_cons_self])]
  rw [trim, hdrop h, hdrop fun c hc => h c (List.mem_reverse.mp hc), List.reverse_reverse]

/-- What a string that is no special literal is read as. -/
theorem ofString_decimal {cs : List Char} {q : ℚ} (hspace : ∀ c ∈ cs, isSpace c = false)
    (hq : signed? (- ·) decimal? cs = some q)
    (hzero : ∀ c tail, cs = '0' :: c :: tail → c.isDigit = true)
    (hinf : ∀ c ∈ cs, c ≠ 'y') : ofString (String.ofList cs) = ofRat q := by
  have hword {word : List Char} (h : 'y' ∈ word) : cs ≠ word := by
    rintro rfl
    exact hinf _ h rfl
  unfold ofString
  rw [String.toList_ofList, trim_of_forall hspace]
  split
  · simp [signed?, decimal?, guard] at hq
  · rename_i c tail
    have hc := hzero c tail rfl
    have hdigit {w : Char} (hw : w.isDigit = false) : c ≠ w := by
      rintro rfl
      exact nomatch hc.symm.trans hw
    have hnone : (if c ∈ ['x', 'X'] then some 16 else if c ∈ ['o', 'O'] then some 8
        else if c ∈ ['b', 'B'] then some 2 else none : Option ℕ) = none := by
      rw [if_neg, if_neg, if_neg]
      all_goals
        simp only [List.mem_cons, List.not_mem_nil, or_false, not_or]
        exact ⟨hdigit (by decide), hdigit (by decide)⟩
    have hsigned : decimal? ('0' :: c :: tail) = some q := hq
    simp only [hnone, hsigned, Option.map_some, Option.getD_some]
  · rw [if_neg, if_neg, hq, Option.map_some, Option.getD_some]
    · exact hword (by decide +kernel)
    · rintro (h | h)
      · exact hword (by decide +kernel) h
      · exact hword (by decide +kernel) h

/-- An integer in decimal notation. -/
def intValue (sign ds : List Char) : ℤ :=
  if sign = ['-'] then -(Nat.ofDigitChars 10 ds 0 : ℕ) else (Nat.ofDigitChars 10 ds 0 : ℕ)

/-- Digits with or without a minus sign are read as the double nearest to their integer. -/
theorem ofString_digits {sign ds : List Char} (hsign : sign = [] ∨ sign = ['-'])
    (h : ∀ c ∈ ds, c.isDigit = true) (hne : ds ≠ []) :
    ofString (String.ofList (sign ++ ds)) = ofRat (intValue sign ds) := by
  have hchars : ∀ c ∈ sign ++ ds, c = '-' ∨ c.isDigit = true := by
    intro c hc
    rcases List.mem_append.mp hc with hc | hc
    · rcases hsign with rfl | rfl
      · exact nomatch hc
      · exact .inl (List.mem_singleton.mp hc)
    · exact .inr (h c hc)
  refine ofString_decimal (fun c hc => ?_) ?_ ?_ ?_
  · rcases hchars c hc with rfl | hdigit
    · decide
    · exact isSpace_of_isDigit hdigit
  · obtain ⟨d, tail, rfl⟩ := List.exists_cons_of_ne_nil hne
    rcases hsign with rfl | rfl
    · have hd := h d List.mem_cons_self
      have hplain : signed? (- ·) decimal? ([] ++ d :: tail) = decimal? (d :: tail) := by
        rw [List.nil_append]
        unfold signed?
        split
        · simp_all
        · simp_all
        · rfl
      rw [hplain, decimal?_digits h hne]
      simp [intValue]
    · simp [signed?, decimal?_digits h hne, intValue]
  · rintro c tail heq
    rcases hsign with rfl | rfl
    · exact h c (by simp [List.nil_append _ ▸ heq])
    · exact absurd (List.cons.inj heq).1 (by decide)
  · rintro c hc rfl
    rcases hchars _ hc with hminus | hdigit
    · exact absurd hminus (by decide)
    · exact absurd hdigit (by decide)

end ValyriaApp.Num
