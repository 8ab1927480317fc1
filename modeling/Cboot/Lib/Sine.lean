import Mathlib.Algebra.Order.Floor.Semiring
import Mathlib.Analysis.Complex.Basic
import Mathlib.Analysis.Complex.Trigonometric
import Mathlib.Tactic.LinearCombination

/-!
# Sines of whole numbers

The sine of `n` is the imaginary part of the `n`-th power of `exp i`. If a Gaussian integer
`u` is `exp i` in units of `1 / 2 ^ k`, then its powers, which are computed with integers
only, give the sine up to `n` times the error of the unit (`abs_sin_sub_le`).

* `floor_abs_sin`: so they give the integer part of a multiple of the sine, unless it is too
  close to a whole number, which `Encloses` decides;
* `norm_exp_sub_unit48`: a unit of 48 bits.
-/

namespace Sine

open Complex

/-- A Gaussian integer to a power. -/
def power (u : ℤ × ℤ) : (n : ℕ) → ℤ × ℤ
  | 0 => (1, 0)
  | n + 1 =>
    let (x, y) := power u n
    (x * u.1 - y * u.2, x * u.2 + y * u.1)

/-- The complex number of a Gaussian integer in units of `1 / 2 ^ k`. -/
noncomputable def scaled (k : ℕ) (u : ℤ × ℤ) : ℂ := (u.1 + u.2 * I) / 2 ^ k

/-- The integer part of `N * |sin n|` is `t`, told from the power of a unit with the error
    `1 / 2 ^ e`. -/
def Encloses (u : ℤ × ℤ) (k e N n t : ℕ) : Prop :=
  (t * 2 ^ e + N * n) * 2 ^ (k * n) ≤ 2 ^ e * N * (power u n).2.natAbs ∧
    2 ^ e * N * (power u n).2.natAbs + N * n * 2 ^ (k * n) < (t + 1) * 2 ^ e * 2 ^ (k * n)

instance (u : ℤ × ℤ) (k e N n t : ℕ) : Decidable (Encloses u k e N n t) :=
  inferInstanceAs (Decidable (_ ∧ _))

section power

variable {u : ℤ × ℤ} {k e N n t : ℕ}

theorem scaled_power (u : ℤ × ℤ) (k n : ℕ) : scaled (k * n) (power u n) = scaled k u ^ n := by
  induction n with
  | zero => simp [power, scaled]
  | succ n ih =>
    rw [pow_succ, ← ih]
    simp only [scaled, power, Nat.mul_succ, pow_add]
    push_cast
    field_simp
    linear_combination -(power u n).2 * u.2 * I_sq

theorem scaled_im (k : ℕ) (u : ℤ × ℤ) : (scaled k u).im = u.2 / 2 ^ k := by
  have h : scaled k u = ((u.1 / 2 ^ k : ℝ) : ℂ) + ((u.2 / 2 ^ k : ℝ) : ℂ) * I := by
    rw [scaled]
    push_cast
    ring
  rw [h, add_im, ofReal_im, im_ofReal_mul, I_im, mul_one, zero_add]

/-- Powers in the unit disc drift apart by at most the same distance at every step. -/
theorem norm_pow_sub_pow_le {z w : ℂ} (hz : ‖z‖ ≤ 1) (hw : ‖w‖ ≤ 1) (n : ℕ) :
    ‖z ^ n - w ^ n‖ ≤ n * ‖z - w‖ := by
  induction n with
  | zero => simp
  | succ n ih =>
    have hsplit : z ^ (n + 1) - w ^ (n + 1) = z ^ n * (z - w) + (z ^ n - w ^ n) * w := by ring
    have hpow : ‖z ^ n‖ ≤ 1 := by
      rw [norm_pow]
      exact pow_le_one₀ (norm_nonneg z) hz
    calc ‖z ^ (n + 1) - w ^ (n + 1)‖
        ≤ ‖z ^ n‖ * ‖z - w‖ + ‖z ^ n - w ^ n‖ * ‖w‖ := by
          rw [hsplit, ← norm_mul, ← norm_mul]
          exact norm_add_le _ _
      _ ≤ 1 * ‖z - w‖ + n * ‖z - w‖ * 1 := by gcongr
      _ = (n + 1 : ℕ) * ‖z - w‖ := by push_cast; ring

theorem abs_sin_sub_le (hnorm : ‖scaled k u‖ ≤ 1) (hu : ‖exp I - scaled k u‖ ≤ 1 / 2 ^ e)
    (n : ℕ) : |Real.sin n - (power u n).2 / 2 ^ (k * n)| ≤ n / 2 ^ e := by
  have hsin : (exp I ^ n).im = Real.sin n := by
    rw [← exp_nat_mul, ← ofReal_natCast, exp_ofReal_mul_I_im]
  have hone : ‖exp I‖ ≤ 1 := by
    have h := norm_exp_ofReal_mul_I 1
    rw [ofReal_one, one_mul] at h
    exact h.le
  have him := abs_im_le_norm (exp I ^ n - scaled k u ^ n)
  rw [sub_im, hsin, ← scaled_power, scaled_im, scaled_power] at him
  calc _ ≤ ‖exp I ^ n - scaled k u ^ n‖ := him
    _ ≤ n * ‖exp I - scaled k u‖ := norm_pow_sub_pow_le hone hnorm n
    _ ≤ n * (1 / 2 ^ e) := by gcongr
    _ = n / 2 ^ e := by ring

/-- The integer part of a multiple of the sine of a whole number. -/
theorem floor_abs_sin (hnorm : ‖scaled k u‖ ≤ 1) (hu : ‖exp I - scaled k u‖ ≤ 1 / 2 ^ e)
    (h : Encloses u k e N n t) : ⌊(N : ℝ) * |Real.sin n|⌋₊ = t := by
  obtain ⟨hle, hlt⟩ := h
  have hdist := (abs_abs_sub_abs_le _ _).trans (abs_sin_sub_le hnorm hu n)
  obtain ⟨hlow, hhigh⟩ := abs_le.1 hdist
  -- The checks of the integers, divided by both scales.
  have habs : |((power u n).2 : ℝ) / 2 ^ (k * n)| = (power u n).2.natAbs / 2 ^ (k * n) := by
    rw [abs_div, abs_of_pos (show (0 : ℝ) < 2 ^ (k * n) by positivity), Nat.cast_natAbs,
      Int.cast_abs]
  rw [habs] at hlow hhigh
  have hk : (0 : ℝ) < 2 ^ (k * n) := by positivity
  have he : (0 : ℝ) < 2 ^ e := by positivity
  have hN : (0 : ℝ) ≤ N := Nat.cast_nonneg N
  have hle : (t + N * (n / 2 ^ e) : ℝ) ≤ N * ((power u n).2.natAbs / 2 ^ (k * n)) := by
    have h : ((t * 2 ^ e + N * n) * 2 ^ (k * n) : ℝ) ≤ 2 ^ e * N * (power u n).2.natAbs := by
      exact_mod_cast hle
    rw [← mul_div_assoc, ← mul_div_assoc, add_div' _ _ _ he.ne', div_le_div_iff₀ he hk]
    linarith
  have hlt : (N * ((power u n).2.natAbs / 2 ^ (k * n)) + N * (n / 2 ^ e) : ℝ) < t + 1 := by
    have h : (2 ^ e * N * (power u n).2.natAbs + N * n * 2 ^ (k * n) : ℝ) <
        (t + 1) * 2 ^ e * 2 ^ (k * n) := by
      exact_mod_cast hlt
    rw [← mul_div_assoc, ← mul_div_assoc, div_add_div _ _ hk.ne' he.ne',
      div_lt_iff₀ (mul_pos hk he)]
    linarith
  refine (Nat.floor_eq_iff (mul_nonneg hN (abs_nonneg _))).2 ⟨?_, ?_⟩
  · have := mul_le_mul_of_nonneg_left hlow hN
    linarith
  · have := mul_le_mul_of_nonneg_left hhigh hN
    linarith

end power

/-! ## A unit -/

/-- `exp i` in units of `1 / 2 ^ 48`. -/
def unit48 : ℤ × ℤ := (152081578960948, 236853025851495)

/-- The first terms of the series of `exp i`, those of the cosine and those of the sine. -/
theorem sum_range_I_pow (n : ℕ) :
    ∑ m ∈ Finset.range (2 * n), I ^ m / (m.factorial : ℂ) =
      ((∑ j ∈ Finset.range n, (-1) ^ j / ((2 * j).factorial : ℝ) : ℝ) : ℂ) +
        ((∑ j ∈ Finset.range n, (-1) ^ j / ((2 * j + 1).factorial : ℝ) : ℝ) : ℂ) * I := by
  induction n with
  | zero => simp
  | succ n ih =>
    rw [Nat.mul_succ, Finset.sum_range_succ, Finset.sum_range_succ, ih, Finset.sum_range_succ,
      Finset.sum_range_succ, pow_succ I (2 * n), pow_mul, I_sq]
    push_cast
    ring

theorem norm_exp_sub_unit48 : ‖exp I - scaled 48 unit48‖ ≤ 1 / 2 ^ 46 := by
  have hseries := exp_bound (x := I) (by simp) (n := 18) (by decide)
  rw [show 18 = 2 * 9 from rfl, sum_range_I_pow] at hseries
  set c : ℝ := ∑ j ∈ Finset.range 9, (-1) ^ j / ((2 * j).factorial : ℝ) with hc
  set s : ℝ := ∑ j ∈ Finset.range 9, (-1) ^ j / ((2 * j + 1).factorial : ℝ) with hs
  have hcos : |c - unit48.1 / 2 ^ 48| ≤ 1 / 2 ^ 48 := by
    rw [hc, unit48, abs_le]
    norm_num [Finset.sum_range_succ, Nat.factorial]
  have hsin : |s - unit48.2 / 2 ^ 48| ≤ 1 / 2 ^ 48 := by
    rw [hs, unit48, abs_le]
    norm_num [Finset.sum_range_succ, Nat.factorial]
  have hunit : ‖(c + s * I : ℂ) - scaled 48 unit48‖ ≤ 2 / 2 ^ 48 := by
    have hparts : (c + s * I : ℂ) - scaled 48 unit48 =
        ((c - unit48.1 / 2 ^ 48 : ℝ) : ℂ) + ((s - unit48.2 / 2 ^ 48 : ℝ) : ℂ) * I := by
      rw [scaled]
      push_cast
      ring
    have hnorm := norm_add_le ((c - unit48.1 / 2 ^ 48 : ℝ) : ℂ)
      (((s - unit48.2 / 2 ^ 48 : ℝ) : ℂ) * I)
    rw [norm_mul, norm_I, mul_one, norm_real, norm_real, Real.norm_eq_abs, Real.norm_eq_abs,
      ← hparts] at hnorm
    linarith
  have hrest : ‖I‖ ^ (2 * 9) * (((2 * 9 : ℕ).succ : ℝ) * ((2 * 9).factorial * (2 * 9 : ℕ) : ℝ)⁻¹)
      ≤ 1 / 2 ^ 48 := by
    rw [norm_I]
    norm_num [Nat.factorial]
  calc ‖exp I - scaled 48 unit48‖
      ≤ ‖exp I - (c + s * I)‖ + ‖(c + s * I : ℂ) - scaled 48 unit48‖ :=
        norm_sub_le_norm_sub_add_norm_sub _ _ _
    _ ≤ 1 / 2 ^ 48 + 2 / 2 ^ 48 := add_le_add (hseries.trans hrest) hunit
    _ ≤ 1 / 2 ^ 46 := by norm_num

theorem norm_scaled_unit48 : ‖scaled 48 unit48‖ ≤ 1 := by
  have hsq : ‖scaled 48 unit48‖ ^ 2 ≤ 1 := by
    rw [← normSq_eq_norm_sq, scaled, unit48, normSq_div, normSq_apply, normSq_apply]
    norm_num
  exact (sq_le_one_iff₀ (norm_nonneg _)).1 hsq

end Sine
