import Mathlib.Data.Int.Log
import Mathlib.Data.Rat.Floor
import Mathlib.Algebra.Order.Field.Power
import Mathlib.Tactic.Linarith
import Mathlib.Tactic.Positivity

/-! # Rounding to double precision

A double is an integer of at most 53 bits, scaled by a power of two that is not
below the last place of a subnormal. A rational is rounded to the nearest one,
and to the one with the even significand when two are equally near; nothing is
said here of the largest double, so that rounding is a function on rationals.
-/

namespace Double

def IsDouble (x : ℚ) : Prop := ∃ m e : ℤ, |m| ≤ 2 ^ 53 ∧ -1074 ≤ e ∧ x = m * 2 ^ e

/-- The nearest integer, ties to even. -/
def roundEven (x : ℚ) : ℤ :=
  if x - ⌊x⌋ < 1 / 2 then ⌊x⌋ else if 1 / 2 < x - ⌊x⌋ then ⌊x⌋ + 1 else ⌊x⌋ + ⌊x⌋ % 2

/-- The exponent of the last place of a double of the size of `q`. -/
def lastPlace (q : ℚ) : ℤ := max (Int.log 2 |q| - 52) (-1074)

/-- The nearest double, ties to even. -/
def round (q : ℚ) : ℚ := roundEven (q / 2 ^ lastPlace q) * 2 ^ lastPlace q

variable {q r d : ℚ}

theorem abs_sub_roundEven_le (x : ℚ) (n : ℤ) : |x - roundEven x| ≤ |x - n| := by
  have hfloor := Int.floor_le x
  have hlt := Int.lt_floor_add_one x
  have hfrac : |x - roundEven x| ≤ x - ⌊x⌋ ∧ |x - roundEven x| ≤ ⌊x⌋ + 1 - x := by
    unfold roundEven
    split_ifs with h h'
    · rw [abs_of_nonneg (by linarith)]
      constructor <;> linarith
    · push_cast
      rw [abs_of_nonpos (by linarith)]
      constructor <;> linarith
    · rcases Int.emod_two_eq_zero_or_one ⌊x⌋ with hmod | hmod
      · rw [hmod, add_zero, abs_of_nonneg (by linarith)]
        constructor <;> linarith
      · rw [hmod]
        push_cast
        rw [abs_of_nonpos (by linarith)]
        constructor <;> linarith
  rcases le_or_gt n ⌊x⌋ with hn | hn
  · have hcast : (n : ℚ) ≤ ⌊x⌋ := by exact_mod_cast hn
    exact hfrac.1.trans ((by linarith : x - ⌊x⌋ ≤ x - n).trans (le_abs_self _))
  · have hcast : (⌊x⌋ : ℚ) + 1 ≤ n := by exact_mod_cast hn
    exact hfrac.2.trans ((by linarith : (⌊x⌋ : ℚ) + 1 - x ≤ -(x - n)).trans (neg_le_abs _))

theorem isDouble_intCast {n : ℤ} (h : |n| ≤ 2 ^ 53) : IsDouble n :=
  ⟨n, 0, h, by decide, by simp⟩

@[simp] theorem round_zero : round 0 = 0 := by
  rw [round, zero_div]
  simp [roundEven]

/-- On the grid of its own last place nothing is nearer to a rational than its rounding. -/
theorem abs_sub_grid_le (q : ℚ) (e n : ℤ) :
    |q - roundEven (q / 2 ^ e) * 2 ^ e| ≤ |q - n * 2 ^ e| := by
  have hpos : (0 : ℚ) < 2 ^ e := by positivity
  have hscale (m : ℤ) : |q - m * 2 ^ e| = |q / 2 ^ e - m| * 2 ^ e := by
    rw [← abs_of_pos hpos, ← abs_mul, abs_of_pos hpos, sub_mul, div_mul_cancel₀ _ hpos.ne']
  rw [hscale, hscale]
  exact mul_le_mul_of_nonneg_right (abs_sub_roundEven_le _ n) hpos.le

theorem abs_lt_of_lastPlace (q : ℚ) : |q| < 2 ^ (lastPlace q + 53) := by
  rcases eq_or_ne q 0 with rfl | hq
  · simp only [abs_zero]
    positivity
  · refine (Int.lt_zpow_succ_log_self one_lt_two |q|).trans_le ?_
    refine zpow_le_zpow_right₀ one_le_two ?_
    have := le_max_left (Int.log 2 |q| - 52) (-1074)
    unfold lastPlace
    omega

theorem abs_roundEven_le {x : ℚ} {b : ℤ} (h : |x| ≤ b) : |roundEven x| ≤ b := by
  obtain ⟨hl, hr⟩ := abs_le.mp h
  have hhigh := abs_sub_roundEven_le x b
  have hlow := abs_sub_roundEven_le x (-b)
  rw [Int.cast_neg] at hlow
  rw [abs_of_nonpos (sub_nonpos.mpr hr)] at hhigh
  rw [abs_of_nonneg (by linarith : 0 ≤ x - -(b : ℚ))] at hlow
  have hle : (roundEven x : ℚ) ≤ b := by linarith [(abs_le.mp hhigh).1]
  have hge : ((-b : ℤ) : ℚ) ≤ roundEven x := by
    rw [Int.cast_neg]
    linarith [(abs_le.mp hlow).2]
  exact abs_le.mpr ⟨Int.cast_le.mp hge, Int.cast_le.mp hle⟩

theorem isDouble_round (q : ℚ) : IsDouble (round q) := by
  refine ⟨_, _, abs_roundEven_le ?_, le_max_right _ _, rfl⟩
  have hpos : (0 : ℚ) < 2 ^ lastPlace q := zpow_pos two_pos _
  rw [abs_div, abs_of_pos hpos, div_le_iff₀ hpos, Int.cast_pow, ← zpow_natCast,
    Int.cast_ofNat, ← zpow_add₀ two_ne_zero, add_comm]
  exact (abs_lt_of_lastPlace q).le

/-- Nothing is nearer to a rational than the double it is rounded to. -/
theorem abs_sub_round_le (hd : IsDouble d) : |q - round q| ≤ |q - d| := by
  obtain ⟨m, e, hm, he, rfl⟩ := hd
  rcases le_or_gt (lastPlace q) e with hle | hlt
  · obtain ⟨k, hk⟩ := Int.le.dest hle
    have hgrid : (m : ℚ) * 2 ^ e = (m * 2 ^ k : ℤ) * 2 ^ lastPlace q := by
      rw [← hk, zpow_add₀ two_ne_zero, zpow_natCast]
      push_cast
      ring
    rw [hgrid]
    exact abs_sub_grid_le q _ _
  rcases eq_or_ne q 0 with rfl | hq
  · rw [round_zero, sub_zero, abs_zero]
    exact abs_nonneg _
  -- a double of a finer grid lies below the power of two that `q` lies above
  have hlog : lastPlace q = Int.log 2 |q| - 52 := by
    refine max_eq_left (le_of_not_ge fun hge => ?_)
    rw [lastPlace, max_eq_right hge] at hlt
    exact absurd he (not_le_of_gt hlt)
  have habove : (2 : ℚ) ^ (lastPlace q + 52) ≤ |q| := by
    rw [hlog, sub_add_cancel]
    exact Int.zpow_log_le_self one_lt_two (abs_pos.mpr hq)
  have hbelow : |(m : ℚ) * 2 ^ e| ≤ 2 ^ (lastPlace q + 52) := by
    have hm' : |(m : ℚ)| ≤ 2 ^ (53 : ℤ) := by exact_mod_cast hm
    rw [abs_mul, abs_of_pos (zpow_pos two_pos e : (0 : ℚ) < 2 ^ e)]
    refine (mul_le_mul_of_nonneg_right hm' (zpow_pos two_pos e).le).trans ?_
    rw [← zpow_add₀ two_ne_zero]
    exact zpow_le_zpow_right₀ one_le_two (by omega)
  have hgrid (n : ℤ) : (n * 2 ^ 52 : ℤ) * (2 : ℚ) ^ lastPlace q = n * 2 ^ (lastPlace q + 52) := by
    rw [zpow_add₀ two_ne_zero]
    push_cast
    ring
  obtain ⟨hl, hr⟩ := abs_le.mp hbelow
  rcases le_or_gt 0 q with hpos | hneg
  · rw [abs_of_nonneg hpos] at habove
    refine (abs_sub_grid_le q _ (1 * 2 ^ 52)).trans ?_
    rw [hgrid, Int.cast_one, one_mul, abs_of_nonneg (sub_nonneg.mpr habove)]
    exact (sub_le_sub_left hr q).trans (le_abs_self _)
  · rw [abs_of_neg hneg] at habove
    refine (abs_sub_grid_le q _ (-1 * 2 ^ 52)).trans ?_
    rw [hgrid, Int.cast_neg, Int.cast_one, neg_one_mul, sub_neg_eq_add,
      abs_of_nonpos (by linarith)]
    exact (by linarith : -(q + 2 ^ (lastPlace q + 52)) ≤ -(q - m * 2 ^ e)).trans (neg_le_abs _)

@[simp] theorem round_of_isDouble (h : IsDouble q) : round q = q := by
  have hzero := abs_sub_round_le (q := q) h
  rw [sub_self, abs_zero] at hzero
  exact (sub_eq_zero.mp (abs_nonpos_iff.mp hzero)).symm

/-- What is at least as near to the larger of two values lies in its half. -/
theorem add_le_of_abs_sub_le {a b : ℚ} (hab : b < a) (h : |q - a| ≤ |q - b|) : a + b ≤ 2 * q := by
  rcases abs_cases (q - a) with ⟨ha, hsign⟩ | ⟨ha, hsign⟩
  · rcases abs_cases (q - b) with ⟨hb, -⟩ | ⟨hb, -⟩
    · linarith
    · linarith
  · rcases abs_cases (q - b) with ⟨hb, -⟩ | ⟨hb, -⟩
    · linarith
    · linarith

theorem round_mono (h : q ≤ r) : round q ≤ round r := by
  rcases h.eq_or_lt with rfl | hlt
  · exact le_rfl
  · refine le_of_not_gt fun hgt => ?_
    have hq := add_le_of_abs_sub_le hgt (abs_sub_round_le (isDouble_round r))
    have hr := add_le_of_abs_sub_le (neg_lt_neg hgt) (q := -r) (by
      rw [← neg_sub', abs_neg, ← neg_sub', abs_neg]
      exact abs_sub_round_le (isDouble_round q))
    linarith

theorem round_natCast (n : ℕ) : ∃ m : ℕ, round n = m := by
  rcases le_or_gt n (2 ^ 53) with hle | hgt
  · have h : IsDouble ((n : ℤ) : ℚ) := isDouble_intCast (by rw [Nat.abs_cast]; exact_mod_cast hle)
    exact ⟨n, by rw [← Int.cast_natCast, round_of_isDouble h]⟩
  · have hlog : 53 ≤ Int.log 2 |(n : ℚ)| := by
      rw [Nat.abs_cast, Int.log_natCast]
      exact_mod_cast Nat.le_log_of_pow_le one_lt_two hgt.le
    obtain ⟨k, hk⟩ : ∃ k : ℕ, lastPlace n = k :=
      Int.eq_ofNat_of_zero_le ((by omega : (0 : ℤ) ≤ _ - 52).trans (le_max_left _ _))
    have hnonneg : 0 ≤ round n := round_zero ▸ round_mono n.cast_nonneg
    rw [round, hk, zpow_natCast] at hnonneg ⊢
    have hsign : 0 ≤ roundEven ((n : ℚ) / 2 ^ k) :=
      Int.cast_nonneg_iff.mp (nonneg_of_mul_nonneg_left hnonneg (pow_pos two_pos k))
    obtain ⟨m, hm⟩ := Int.eq_ofNat_of_zero_le hsign
    refine ⟨m * 2 ^ k, ?_⟩
    rw [hm]
    push_cast
    rfl

end Double
