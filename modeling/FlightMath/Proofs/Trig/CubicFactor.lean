import FlightMath.Proofs.Analysis.Derivative
import FlightMath.Proofs.Analysis.Taylor

/-! # The cubic factor of the arc cosine

In exact arithmetic the root of the distance from one times the cubic factor is within `9e-5` of
the arc cosine between zero and one. With `m = cos (2 * φ)` the root is `√2 * sin φ`, and its
product with a polynomial of `cos (2 * φ)` is a sum of sines of odd multiples of `φ`. So the error
is a sum of sines less `2 * φ`, which Taylor polynomials bring down to a check on rational numbers.
-/

namespace FlightMath

/-- A cubic polynomial over the rational numbers. -/
structure CubicFactor where
  constant : ℚ
  linear : ℚ
  quadratic : ℚ
  cubic : ℚ

/-- The value of the polynomial. -/
def CubicFactor.eval {K : Type} [Field K] (p : CubicFactor) (m : K) : K :=
  p.constant + m * (p.linear + m * (p.quadratic + p.cubic * m))

/-- The exact coefficients of the factor in use. -/
def arcCosineFactor : CubicFactor :=
  ⟨3294057 / 2 ^ 21, -3558689 / 2 ^ 24, 9967143 / 2 ^ 27, -628451 / 2 ^ 25⟩

/-! ## Sums of sines -/

/-- The amplitudes of the sines of the first four odd multiples of an angle. -/
structure OddWaves where
  first : ℚ
  third : ℚ
  fifth : ℚ
  seventh : ℚ

namespace OddWaves

/-- The sum of the sines. -/
noncomputable def eval (w : OddWaves) (φ : ℝ) : ℝ :=
  w.first * Real.sin φ + w.third * Real.sin (3 * φ) + w.fifth * Real.sin (5 * φ) +
    w.seventh * Real.sin (7 * φ)

/-- The sum of ten terms of each sine's series. -/
def taylor (w : OddWaves) (φ : ℚ) : ℚ :=
  w.first * sinTaylor 10 φ + w.third * sinTaylor 10 (3 * φ) + w.fifth * sinTaylor 10 (5 * φ) +
    w.seventh * sinTaylor 10 (7 * φ)

end OddWaves

/-- The product of the polynomial of `cos (2 * φ)` and `sin φ` as a sum of sines. -/
def CubicFactor.waves (p : CubicFactor) : OddWaves where
  first := p.constant - p.linear / 2 + p.quadratic / 2 - 3 * p.cubic / 8
  third := p.linear / 2 - p.quadratic / 4 + 3 * p.cubic / 8
  fifth := p.quadratic / 4 - p.cubic / 8
  seventh := p.cubic / 8

private theorem CubicFactor.eval_waves (p : CubicFactor) (φ : ℝ) :
    p.waves.eval φ = Real.sin φ * p.eval (Real.cos (2 * φ)) := by
  have step : ∀ k : ℝ, Real.sin ((k + 2) * φ) =
      2 * Real.sin (k * φ) * Real.cos (2 * φ) - Real.sin ((k - 2) * φ) := by
    intro k
    rw [Real.two_mul_sin_mul_cos, ← sub_mul, ← add_mul, add_sub_cancel_left]
  have third := step 1
  have fifth := step 3
  have seventh := step 5
  norm_num at third fifth seventh
  simp only [OddWaves.eval, waves, eval, seventh, fifth, third]
  push_cast
  ring

/-- Each sine is near its series. -/
theorem OddWaves.abs_eval_sub_taylor_le (w : OddWaves) {φ : ℚ} (nonneg : 0 ≤ φ)
    (le : φ ≤ 7854 / 10 ^ 4) : |w.eval φ - w.taylor φ| ≤
      |(w.first : ℝ)| * (1 / 10 ^ 10) + |(w.third : ℝ)| * (1 / 10 ^ 10) +
        |(w.fifth : ℝ)| * (1 / 10 ^ 6) + |(w.seventh : ℝ)| * (6 / 10 ^ 4) := by
  have near : ∀ (amplitude frequency bound : ℚ) (error : ℝ), 0 ≤ frequency →
      frequency * (7854 / 10 ^ 4) ≤ bound → bound ≤ (10 : ℕ) →
      ((bound ^ (2 * 10) / (2 * 10).factorial * 2 : ℚ) : ℝ) ≤ error →
      |(amplitude * Real.sin (frequency * φ : ℚ) - amplitude * sinTaylor 10 (frequency * φ) : ℝ)| ≤
        |(amplitude : ℝ)| * error := by
    intro amplitude frequency bound error positive range small remainder
    rw [← mul_sub, abs_mul]
    refine mul_le_mul_of_nonneg_left (le_trans ?_ remainder) (abs_nonneg _)
    refine abs_sin_sub_sinTaylor_le_of_le 10 ?_ small
    rw [abs_of_nonneg (mul_nonneg positive nonneg)]
    exact (mul_le_mul_of_nonneg_left le positive).trans range
  have first := near w.first 1 (5 / 2) (1 / 10 ^ 10) (by norm_num) (by norm_num) (by norm_num)
    (by norm_num [Nat.factorial])
  have third := near w.third 3 (5 / 2) (1 / 10 ^ 10) (by norm_num) (by norm_num) (by norm_num)
    (by norm_num [Nat.factorial])
  have fifth := near w.fifth 5 4 (1 / 10 ^ 6) (by norm_num) (by norm_num) (by norm_num)
    (by norm_num [Nat.factorial])
  have seventh := near w.seventh 7 (11 / 2) (6 / 10 ^ 4) (by norm_num) (by norm_num) (by norm_num)
    (by norm_num [Nat.factorial])
  have split : (w.eval φ - w.taylor φ : ℝ) =
      (w.first * Real.sin (1 * φ : ℚ) - w.first * sinTaylor 10 (1 * φ)) +
      (w.third * Real.sin (3 * φ : ℚ) - w.third * sinTaylor 10 (3 * φ)) +
      (w.fifth * Real.sin (5 * φ : ℚ) - w.fifth * sinTaylor 10 (5 * φ)) +
      (w.seventh * Real.sin (7 * φ : ℚ) - w.seventh * sinTaylor 10 (7 * φ)) := by
    rw [eval, taylor, one_mul]
    push_cast
    ring
  rw [split]
  refine (abs_add_le _ _).trans (add_le_add ((abs_add_three _ _ _).trans ?_) seventh)
  exact add_le_add (add_le_add first third) fifth

/-- The sum is at most that of the amplitudes. -/
theorem OddWaves.abs_eval_le (w : OddWaves) (φ : ℝ) :
    |w.eval φ| ≤ |(w.first : ℝ)| + |(w.third : ℝ)| + |(w.fifth : ℝ)| + |(w.seventh : ℝ)| := by
  have bounded : ∀ (amplitude : ℚ) (angle : ℝ),
      |amplitude * Real.sin angle| ≤ |(amplitude : ℝ)| := by
    intro amplitude angle
    rw [abs_mul]
    exact mul_le_of_le_one_right (abs_nonneg _) (Real.abs_sin_le_one angle)
  refine (abs_add_le _ _).trans (add_le_add ((abs_add_three _ _ _).trans ?_) (bounded _ _))
  exact add_le_add (add_le_add (bounded _ _) (bounded _ _)) (bounded _ _)

/-! ## The check on rational numbers -/

/-- The coefficients of so many terms of the series of a sine with an amplitude and a frequency. -/
def sineSeries (terms : ℕ) (amplitude frequency : ℚ) : List ℚ :=
  (List.range terms).flatMap fun k =>
    [0, amplitude * ((-1) ^ k * frequency ^ (2 * k + 1) / (2 * k + 1).factorial)]

private theorem length_sineSeries (terms : ℕ) (amplitude frequency : ℚ) :
    (sineSeries terms amplitude frequency).length = terms * 2 := by
  simp [sineSeries]

private theorem eval_sineSeries (terms : ℕ) (amplitude frequency x : ℚ) :
    Horner.eval (sineSeries terms amplitude frequency) x =
      amplitude * sinTaylor terms (frequency * x) := by
  induction terms with
  | zero => simp [sineSeries, sinTaylor, Horner.eval]
  | succ terms ih =>
    have last : sineSeries (terms + 1) amplitude frequency =
        sineSeries terms amplitude frequency ++ [0, amplitude *
          ((-1) ^ terms * frequency ^ (2 * terms + 1) / (2 * terms + 1).factorial)] := by
      simp [sineSeries, List.range_succ]
    rw [last, Horner.eval_append, ih, length_sineSeries, sinTaylor_succ]
    simp only [Horner.eval]
    ring

/-- The root of two, rounded to seven decimal places. -/
def rootTwo : ℚ := 14142136 / 10 ^ 7

private theorem abs_sqrt_two_sub_rootTwo_le : |Real.sqrt 2 - rootTwo| ≤ 4 / 10 ^ 8 := by
  have lower : (141421356 / 10 ^ 8 : ℝ) ≤ Real.sqrt 2 := Real.le_sqrt_of_sq_le (by norm_num)
  have upper : Real.sqrt 2 ≤ 141421357 / 10 ^ 8 :=
    Real.sqrt_le_iff.mpr ⟨by norm_num, by norm_num⟩
  rw [rootTwo, abs_le]
  push_cast
  constructor <;> linarith

/-- The coefficients of the rounded root of two times the series, less twice the angle. -/
def OddWaves.excess (w : OddWaves) : List ℚ :=
  Horner.add [0, -2] (Horner.add
    (Horner.add (sineSeries 10 (rootTwo * w.first) 1) (sineSeries 10 (rootTwo * w.third) 3))
    (Horner.add (sineSeries 10 (rootTwo * w.fifth) 5) (sineSeries 10 (rootTwo * w.seventh) 7)))

private theorem OddWaves.eval_excess (w : OddWaves) (φ : ℚ) :
    Horner.eval w.excess φ = rootTwo * w.taylor φ - 2 * φ := by
  simp only [excess, taylor, Horner.eval_add, eval_sineSeries, Horner.eval, one_mul]
  ring

private theorem keeps_arcCosineExcess :
    Horner.Keeps arcCosineFactor.waves.excess 0 (6545 / 10 ^ 5) 12 (86 / 10 ^ 6) ∧
      Horner.Keeps (arcCosineFactor.waves.excess.map (-·)) 0 (6545 / 10 ^ 5) 12 (86 / 10 ^ 6) := by
  decide +kernel

/-! ## Distance from the arc cosine -/

private theorem abs_amplitudes_le :
    |(arcCosineFactor.waves.first : ℝ)| ≤ 173 / 100 ∧
      |(arcCosineFactor.waves.third : ℝ)| ≤ 14 / 100 ∧
      |(arcCosineFactor.waves.fifth : ℝ)| ≤ 3 / 100 ∧
      |(arcCosineFactor.waves.seventh : ℝ)| ≤ 24 / 10 ^ 4 := by
  norm_num [arcCosineFactor, CubicFactor.waves, abs_le]

/-- The error at a rational half angle. -/
private theorem abs_sqrt_two_mul_waves_sub_le {φ : ℚ} (nonneg : 0 ≤ φ) (le : φ ≤ 7854 / 10 ^ 4) :
    |Real.sqrt 2 * arcCosineFactor.waves.eval φ - 2 * φ| ≤ 9 / 10 ^ 5 := by
  have checked := Horner.abs_eval_le keeps_arcCosineExcess.1 keeps_arcCosineExcess.2
    (by norm_num) (by norm_num) nonneg (by push_cast; linarith)
  rw [OddWaves.eval_excess] at checked
  have checked' := (Rat.cast_le (K := ℝ)).mpr checked
  push_cast at checked'
  obtain ⟨first, third, fifth, seventh⟩ := abs_amplitudes_le
  have series := arcCosineFactor.waves.abs_eval_sub_taylor_le nonneg le
  have size := arcCosineFactor.waves.abs_eval_le φ
  have split : Real.sqrt 2 * arcCosineFactor.waves.eval φ - 2 * φ =
      (Real.sqrt 2 - rootTwo) * arcCosineFactor.waves.eval φ +
        rootTwo * (arcCosineFactor.waves.eval φ - arcCosineFactor.waves.taylor φ) +
        (rootTwo * arcCosineFactor.waves.taylor φ - 2 * φ) := by ring
  have root := mul_le_mul abs_sqrt_two_sub_rootTwo_le
    (size.trans (show _ ≤ (2 : ℝ) by linarith)) (abs_nonneg _) (by norm_num)
  have scaled : |(rootTwo : ℝ)| *
      |arcCosineFactor.waves.eval φ - arcCosineFactor.waves.taylor φ| ≤
      142 / 100 * (15 / 10 ^ 7) := by
    refine mul_le_mul ?_ (series.trans (by linarith)) (abs_nonneg _) (by norm_num)
    norm_num [rootTwo]
  rw [← abs_mul] at root scaled
  rw [split]
  refine (abs_add_three _ _ _).trans ((add_le_add (add_le_add root scaled) checked').trans ?_)
  norm_num

/-- The root of the distance from one is a half chord. -/
private theorem sqrt_one_sub_eq {m : ℝ} (lower : -1 ≤ m) (upper : m ≤ 1) :
    Real.sqrt (1 - m) = Real.sqrt 2 * Real.sin (Real.arccos m / 2) := by
  have nonneg := Real.arccos_nonneg m
  have half : 0 ≤ Real.sin (Real.arccos m / 2) :=
    Real.sin_nonneg_of_nonneg_of_le_pi (by linarith) (by linarith [Real.arccos_le_pi m])
  have chord : 1 - m = 2 * Real.sin (Real.arccos m / 2) ^ 2 := by
    rw [Real.sin_sq_eq_half_sub, mul_div_cancel₀ _ two_ne_zero, Real.cos_arccos lower upper]
    ring
  rw [chord, Real.sqrt_mul zero_le_two, Real.sqrt_sq half]

/-- Between zero and one the root times the factor is near the arc cosine. -/
theorem abs_sqrt_mul_factor_sub_arccos_le {m : ℝ} (nonneg : 0 ≤ m) (le : m ≤ 1) :
    |Real.sqrt (1 - m) * arcCosineFactor.eval m - Real.arccos m| ≤ 9 / 10 ^ 5 := by
  have quarter : Real.arccos m ≤ Real.pi / 2 := Real.arccos_le_pi_div_two.mpr nonneg
  have continuous : Continuous fun φ : ℝ =>
      |Real.sqrt 2 * arcCosineFactor.waves.eval φ - 2 * φ| := by
    unfold OddWaves.eval
    fun_prop
  have lower : ((0 : ℚ) : ℝ) ≤ Real.arccos m / 2 := by
    rw [Rat.cast_zero]
    exact div_nonneg (Real.arccos_nonneg m) zero_le_two
  have upper : Real.arccos m / 2 ≤ ((7854 / 10 ^ 4 : ℚ) : ℝ) := by
    push_cast
    linarith [Real.pi_lt_d4]
  have bound := le_of_le_on_rationals continuous (by norm_num)
    (fun _ => abs_sqrt_two_mul_waves_sub_le) lower upper
  rw [CubicFactor.eval_waves, mul_div_cancel₀ _ two_ne_zero, Real.cos_arccos (by linarith) le,
    ← mul_assoc, ← sqrt_one_sub_eq (by linarith) le] at bound
  exact bound

end FlightMath
