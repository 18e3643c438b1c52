import Mathlib

/-! # Taylor polynomials of sine and cosine

The polynomials are rational functions of a rational argument, so statements about computed values
can be made without real numbers. Their distance from the true functions is at most twice the first
power that is left out, over its factorial, once the argument is below half of that exponent.
-/

namespace FlightMath

open Finset

/-- The first terms of the sine series; the degree is one less than twice their number. -/
def sinTaylor (terms : ℕ) (x : ℚ) : ℚ :=
  ∑ k ∈ range terms, (-1) ^ k * x ^ (2 * k + 1) / (2 * k + 1).factorial

/-- The first terms of the cosine series; the degree is two less than twice their number. -/
def cosTaylor (terms : ℕ) (x : ℚ) : ℚ :=
  ∑ k ∈ range terms, (-1) ^ k * x ^ (2 * k) / (2 * k).factorial

theorem sinTaylor_succ (terms : ℕ) (x : ℚ) : sinTaylor (terms + 1) x =
    sinTaylor terms x + (-1) ^ terms * x ^ (2 * terms + 1) / (2 * terms + 1).factorial :=
  sum_range_succ _ terms

private theorem cosTaylor_succ (terms : ℕ) (x : ℚ) : cosTaylor (terms + 1) x =
    cosTaylor terms x + (-1) ^ terms * x ^ (2 * terms) / (2 * terms).factorial :=
  sum_range_succ _ terms

/-- The exponential series of an imaginary argument splits into the two series. -/
private theorem sum_imaginary_pow (terms : ℕ) (x : ℚ) :
    ∑ m ∈ range (2 * terms), ((x : ℝ) * Complex.I) ^ m / m.factorial =
      ((cosTaylor terms x : ℝ) : ℂ) + ((sinTaylor terms x : ℝ) : ℂ) * Complex.I := by
  induction terms with
  | zero => simp [cosTaylor, sinTaylor]
  | succ terms ih =>
    have even : Complex.I ^ (2 * terms) = (-1) ^ terms := by rw [pow_mul, Complex.I_sq]
    rw [Nat.mul_succ, sum_range_succ, sum_range_succ, ih, cosTaylor_succ, sinTaylor_succ]
    push_cast
    rw [mul_pow, mul_pow, pow_succ Complex.I, even]
    ring

/-- How far the two polynomials are from the complex exponential. -/
theorem norm_exp_sub_taylor_le (terms : ℕ) {x : ℚ} (small : |x| ≤ terms) :
    ‖Complex.exp ((x : ℝ) * Complex.I) -
      (((cosTaylor terms x : ℝ) : ℂ) + ((sinTaylor terms x : ℝ) : ℂ) * Complex.I)‖ ≤
      ((|x| ^ (2 * terms) / (2 * terms).factorial * 2 : ℚ) : ℝ) := by
  have norm : ‖((x : ℝ) : ℂ) * Complex.I‖ = ((|x| : ℚ) : ℝ) := by
    rw [norm_mul, Complex.norm_I, mul_one, Complex.norm_real, Real.norm_eq_abs, Rat.cast_abs]
  have half : ‖((x : ℝ) : ℂ) * Complex.I‖ / (2 * terms).succ ≤ 1 / 2 := by
    rw [norm, div_le_div_iff₀ (by positivity) two_pos]
    have bound : ((|x| : ℚ) : ℝ) ≤ terms := by exact_mod_cast small
    push_cast at bound ⊢
    linarith
  have bound := Complex.exp_bound' half
  rw [sum_imaginary_pow, norm] at bound
  exact_mod_cast bound

/-- The sine polynomial is near the sine. -/
theorem abs_sin_sub_sinTaylor_le (terms : ℕ) {x : ℚ} (small : |x| ≤ terms) :
    |Real.sin x - sinTaylor terms x| ≤
      ((|x| ^ (2 * terms) / (2 * terms).factorial * 2 : ℚ) : ℝ) := by
  refine le_trans ?_ (norm_exp_sub_taylor_le terms small)
  refine le_of_eq_of_le ?_ (Complex.abs_im_le_norm _)
  rw [Complex.sub_im, Complex.exp_ofReal_mul_I_im]
  simp

/-- Up to a bound on the argument the sine polynomial is as near as at that bound. -/
theorem abs_sin_sub_sinTaylor_le_of_le (terms : ℕ) {x bound : ℚ} (le : |x| ≤ bound)
    (small : bound ≤ terms) : |Real.sin x - sinTaylor terms x| ≤
      ((bound ^ (2 * terms) / (2 * terms).factorial * 2 : ℚ) : ℝ) := by
  refine (abs_sin_sub_sinTaylor_le terms (le.trans small)).trans (Rat.cast_le.mpr ?_)
  gcongr

/-- The cosine polynomial is near the cosine. -/
theorem abs_cos_sub_cosTaylor_le (terms : ℕ) {x : ℚ} (small : |x| ≤ terms) :
    |Real.cos x - cosTaylor terms x| ≤
      ((|x| ^ (2 * terms) / (2 * terms).factorial * 2 : ℚ) : ℝ) := by
  refine le_trans ?_ (norm_exp_sub_taylor_le terms small)
  refine le_of_eq_of_le ?_ (Complex.abs_re_le_norm _)
  rw [Complex.sub_re, Complex.exp_ofReal_mul_I_re]
  simp

end FlightMath
