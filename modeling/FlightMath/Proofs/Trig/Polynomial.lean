import FlightMath.Proofs.Analysis.Horner
import FlightMath.Proofs.Analysis.Taylor
import FlightMath.Proofs.Trig.Reduction

/-! # The sine polynomial

On a quarter turn either side of zero the polynomial of either mode, in exact arithmetic, is within
`1.25e-6` of the sine. Its evaluation forms the square and the factor of the cube first and adds the
argument last; before that addition the rounding errors come to less than `1.2e-7`.
-/

namespace FlightMath

open FloatFormat Angle

/-- An odd polynomial with leading coefficient one, over the rational numbers. -/
structure SinePolynomial where
  cubic : ℚ
  quintic : ℚ
  septic : ℚ
  nonic : ℚ

namespace SinePolynomial

/-- The factor of the cube, as a polynomial of the square. -/
def factor (p : SinePolynomial) (square : ℚ) : ℚ :=
  p.cubic + square * (p.quintic + square * (p.septic + square * p.nonic))

/-- The exact value of the polynomial. -/
def eval (p : SinePolynomial) (x : ℚ) : ℚ :=
  x + x * (x ^ 2 * p.factor (x ^ 2))

/-- The factor with every operation rounded. -/
def roundedFactor (p : SinePolynomial) (square : ℚ) : ℚ :=
  single.nearest (p.cubic + single.nearest (square * single.nearest (p.quintic +
    single.nearest (square * single.nearest (p.septic + single.nearest (square * p.nonic))))))

/-- What the rounded evaluation adds to the argument. -/
def roundedCorrection (p : SinePolynomial) (x : ℚ) : ℚ :=
  single.nearest (single.nearest (x * single.nearest (x * x)) *
    p.roundedFactor (single.nearest (x * x)))

/-- The value of the polynomial with every operation rounded. -/
def roundedEval (p : SinePolynomial) (x : ℚ) : ℚ :=
  single.nearest (x + p.roundedCorrection x)

private theorem eval_neg (p : SinePolynomial) (x : ℚ) : p.eval (-x) = -p.eval x := by
  simp only [eval, neg_sq]
  ring

private theorem roundedCorrection_neg (p : SinePolynomial) (x : ℚ) :
    p.roundedCorrection (-x) = -p.roundedCorrection x := by
  rw [roundedCorrection, neg_mul_neg, neg_mul, nearest_neg, neg_mul, nearest_neg, roundedCorrection]

theorem roundedEval_neg (p : SinePolynomial) (x : ℚ) : p.roundedEval (-x) = -p.roundedEval x := by
  rw [roundedEval, roundedCorrection_neg, ← neg_add, nearest_neg, roundedEval]

end SinePolynomial

/-- The exact coefficients of a mode. -/
def ApproxMode.polynomial : ApproxMode → SinePolynomial
  | .fast => ⟨-11184149 / 2 ^ 26, 8925335 / 2 ^ 30, -6353865 / 2 ^ 35, 0⟩
  | .accurate => ⟨-2796201 / 2 ^ 24, 8947509 / 2 ^ 30, -6805501 / 2 ^ 35, 5717581 / 2 ^ 41⟩

/-- The computed coefficients stand for exact ones. -/
structure SineCoefficients.HasValue (coefficients : SineCoefficients) (p : SinePolynomial) :
    Prop where
  cubic : coefficients.cubic.HasValue p.cubic
  quintic : coefficients.quintic.HasValue p.quintic
  septic : coefficients.septic.HasValue p.septic
  nonic : coefficients.nonic.HasValue p.nonic

/-- The range of the coefficients, which both modes keep to. -/
structure SinePolynomial.Moderate (p : SinePolynomial) : Prop where
  cubic : -16667 / 10 ^ 5 ≤ p.cubic ∧ p.cubic ≤ -16665 / 10 ^ 5
  quintic : 83 / 10 ^ 4 ≤ p.quintic ∧ p.quintic ≤ 834 / 10 ^ 5
  septic : -2 / 10 ^ 4 ≤ p.septic ∧ p.septic ≤ -18 / 10 ^ 5
  nonic : 0 ≤ p.nonic ∧ p.nonic ≤ 27 / 10 ^ 7

namespace ApproxMode

private theorem hasValue_sine (mode : ApproxMode) : mode.sine.HasValue mode.polynomial := by
  cases mode <;> constructor <;> decide +kernel

theorem moderate_polynomial (mode : ApproxMode) : mode.polynomial.Moderate := by
  cases mode <;> constructor <;> norm_num [polynomial]

end ApproxMode

/-! ## Rounding -/

theorem abs_mul_le_mul {K : Type} [Field K] [LinearOrder K] [IsStrictOrderedRing K] {a b A B : K}
    (first : |a| ≤ A) (second : |b| ≤ B) : |a * b| ≤ A * B := by
  rw [abs_mul]
  exact mul_le_mul first second (abs_nonneg b) ((abs_nonneg a).trans first)

variable {coefficients : SineCoefficients} {p : SinePolynomial} {x : Single} {q square : ℚ}

/-- One step of the evaluation of a factor. The errors of the tail grow by the multiplier, and the
product and the sum add one rounding each. -/
theorem hornerStep {c s tail : Single} {a b exact error width : ℚ} (hasHead : c.HasValue a)
    (hasSquare : s.HasValue square) (hasTail : tail.HasValue b) (size : |square| ≤ width)
    (near : |b - exact| ≤ error) (top next : ℤ) (product : width * |b| ≤ 2 ^ top)
    (sum : |a| + (2 ^ top + 2 ^ (top - 25)) ≤ 2 ^ next) (low : -125 ≤ top) (below : top ≤ next)
    (high : next ≤ 127) :
    (c + s * tail).HasValue (single.nearest (a + single.nearest (square * b))) ∧
      |single.nearest (a + single.nearest (square * b)) - (a + square * exact)| ≤
        2 ^ (next - 25) + 2 ^ (top - 25) + width * error ∧
      |single.nearest (a + single.nearest (square * b))| ≤
        |a| + (2 ^ top + 2 ^ (top - 25)) + 2 ^ (next - 25) := by
  have bounded : |square * b| ≤ 2 ^ top := (abs_mul_le_mul size le_rfl).trans product
  have hasProduct := hasSquare.mul hasTail
    (Binary.single_le_largest (zpow_le_zpow_right₀ one_le_two (below.trans high)) bounded)
  have productError := Binary.abs_single_nearest_sub_le low bounded
  generalize single.nearest (square * b) = p at hasProduct productError
  have sizeProduct : |p| ≤ 2 ^ top + 2 ^ (top - 25) := by
    have triangle := abs_sub_abs_le_abs_sub p (square * b)
    linarith
  have bounded' : |a + p| ≤ 2 ^ next :=
    (abs_add_le a p).trans ((add_le_add_right sizeProduct |a|).trans sum)
  have sumError := Binary.abs_single_nearest_sub_le (low.trans below) bounded'
  refine ⟨hasHead.add hasProduct
    (Binary.single_le_largest (zpow_le_zpow_right₀ one_le_two high) bounded'), ?_, ?_⟩
  · have scaled := abs_mul_le_mul size near
    have split : single.nearest (a + p) - (a + square * exact) =
        single.nearest (a + p) - (a + p) + (p - square * b) + square * (b - exact) := by ring
    rw [split]
    exact (abs_add_three _ _ _).trans (add_le_add (add_le_add sumError productError) scaled)
  · have triangle := abs_add_three a p (single.nearest (a + p) - (a + p))
    rw [add_sub_cancel] at triangle
    linarith

/-- The factor of the cube from a given square, with its rounding error. -/
private theorem roundedFactor_spec (has : coefficients.HasValue p) (moderate : p.Moderate)
    {s : Single} (value : s.HasValue square) (nonneg : 0 ≤ square) (le : square ≤ 5 / 2) :
    (coefficients.cubic + s * (coefficients.quintic +
        s * (coefficients.septic + s * coefficients.nonic))).HasValue (p.roundedFactor square) ∧
      |p.roundedFactor square - p.factor square| ≤ 97 / 10 ^ 10 := by
  obtain ⟨c3, c5, c7, c9⟩ := p
  obtain ⟨hasCubic, hasQuintic, hasSeptic, hasNonic⟩ := has
  obtain ⟨⟨c3l, c3u⟩, ⟨c5l, c5u⟩, ⟨c7l, c7u⟩, ⟨c9l, c9u⟩⟩ := moderate
  dsimp only [SinePolynomial.roundedFactor, SinePolynomial.factor] at *
  have size : |square| ≤ 5 / 2 := abs_le.mpr ⟨by linarith, le⟩
  have size9 : |c9| ≤ 27 / 10 ^ 7 := abs_le.mpr ⟨by linarith, c9u⟩
  have size7 : |c7| ≤ 2 / 10 ^ 4 := abs_le.mpr ⟨by linarith, by linarith⟩
  have size5 : |c5| ≤ 834 / 10 ^ 5 := abs_le.mpr ⟨by linarith, c5u⟩
  have size3 : |c3| ≤ 16667 / 10 ^ 5 := abs_le.mpr ⟨by linarith, by linarith⟩
  have exact9 : |c9 - c9| ≤ 0 := by rw [sub_self, abs_zero]
  obtain ⟨has7, err7, sum7⟩ := hornerStep hasSeptic value hasNonic size exact9 (-17) (-12)
    (by norm_num; linarith) (by norm_num; linarith) (by norm_num) (by norm_num) (by norm_num)
  norm_num at err7 sum7
  obtain ⟨has5, err5, sum5⟩ := hornerStep hasQuintic value has7 size err7 (-10) (-6)
    (by norm_num; linarith) (by norm_num; linarith) (by norm_num) (by norm_num) (by norm_num)
  norm_num at err5 sum5
  obtain ⟨has3, err3, _⟩ := hornerStep hasCubic value has5 size err5 (-5) (-2)
    (by norm_num; linarith) (by norm_num; linarith) (by norm_num) (by norm_num) (by norm_num)
  exact ⟨has3, err3.trans (by norm_num)⟩

/-- The factor stays within the coefficient of the cube. -/
theorem abs_factor_le (moderate : p.Moderate) {s : ℚ} (nonneg : 0 ≤ s) (le : s ≤ 5 / 2) :
    |p.factor s| ≤ 16667 / 10 ^ 5 := by
  obtain ⟨c3, c5, c7, c9⟩ := p
  obtain ⟨⟨c3l, c3u⟩, ⟨c5l, c5u⟩, ⟨c7l, c7u⟩, ⟨c9l, c9u⟩⟩ := moderate
  dsimp only [SinePolynomial.factor] at *
  have nonic : 0 ≤ s * c9 := mul_nonneg nonneg c9l
  have nonic' : s * c9 ≤ 5 / 2 * (27 / 10 ^ 7) := mul_le_mul le c9u c9l (by norm_num)
  have septic : -(5 / 2 * (2 / 10 ^ 4)) ≤ s * (c7 + s * c9) := by nlinarith
  have septic' : s * (c7 + s * c9) ≤ 0 := mul_nonpos_of_nonneg_of_nonpos nonneg (by linarith)
  have quintic : 0 ≤ s * (c5 + s * (c7 + s * c9)) := mul_nonneg nonneg (by linarith)
  have quintic' : s * (c5 + s * (c7 + s * c9)) ≤ 5 / 2 * (834 / 10 ^ 5) :=
    mul_le_mul le (by linarith) (by linarith) (by norm_num)
  rw [abs_le]
  constructor <;> linarith

/-- The factor times the square is a contraction by a sixth, up to the error of the coefficients. -/
private theorem abs_factor_sub_le (moderate : p.Moderate) {s t : ℚ} (nonneg : 0 ≤ s)
    (le : s ≤ 5 / 2) (nonneg' : 0 ≤ t) (le' : t ≤ 5 / 2) :
    |s * p.factor s - t * p.factor t| ≤ 16667 / 10 ^ 5 * |s - t| := by
  obtain ⟨c3, c5, c7, c9⟩ := p
  obtain ⟨⟨c3l, c3u⟩, ⟨c5l, c5u⟩, ⟨c7l, c7u⟩, ⟨c9l, c9u⟩⟩ := moderate
  dsimp only [SinePolynomial.factor] at *
  have quotient :
      s * (c3 + s * (c5 + s * (c7 + s * c9))) - t * (c3 + t * (c5 + t * (c7 + t * c9))) =
      (c3 + (s + t) * c5 + (s ^ 2 + s * t + t ^ 2) * c7 + (s + t) * (s ^ 2 + t ^ 2) * c9) *
        (s - t) := by ring
  rw [quotient]
  refine abs_mul_le_mul ?_ le_rfl
  have sum : 0 ≤ s + t := add_nonneg nonneg nonneg'
  have sumSquares : 0 ≤ s ^ 2 + s * t + t ^ 2 := by positivity
  have squaresLe : s ^ 2 + s * t + t ^ 2 ≤ (s + t) * 5 := by nlinarith
  have cubesLe : (s + t) * (s ^ 2 + t ^ 2) ≤ 5 * (25 / 2) := by
    have squares : s ^ 2 + t ^ 2 ≤ 25 / 2 := by nlinarith
    exact mul_le_mul (by linarith) squares (by positivity) (by norm_num)
  have quintic : (s + t) * (83 / 10 ^ 4) ≤ (s + t) * c5 := mul_le_mul_of_nonneg_left c5l sum
  have quintic' : (s + t) * c5 ≤ 5 * (834 / 10 ^ 5) :=
    mul_le_mul (by linarith) c5u (by linarith) (by norm_num)
  have septic : (s ^ 2 + s * t + t ^ 2) * (-2 / 10 ^ 4) ≤ (s ^ 2 + s * t + t ^ 2) * c7 :=
    mul_le_mul_of_nonneg_left c7l sumSquares
  have septic' : (s ^ 2 + s * t + t ^ 2) * c7 ≤ 0 :=
    mul_nonpos_of_nonneg_of_nonpos sumSquares (by linarith)
  have nonic : 0 ≤ (s + t) * (s ^ 2 + t ^ 2) * c9 := by positivity
  have nonic' : (s + t) * (s ^ 2 + t ^ 2) * c9 ≤ 5 * (25 / 2) * (27 / 10 ^ 7) :=
    mul_le_mul cubesLe c9u c9l (by norm_num)
  rw [abs_le]
  constructor <;> linarith

/-- The square of an argument within a quarter turn of zero, with its rounding error. -/
private theorem roundedSquare_spec (value : x.HasValue q) (quarter : |q| ≤ 15708 / 10 ^ 4) :
    (x * x).HasValue (single.nearest (q * q)) ∧
      (0 ≤ single.nearest (q * q) ∧ single.nearest (q * q) ≤ 24676 / 10 ^ 4) ∧
      |single.nearest (q * q) - q * q| ≤ 1 / 2 ^ 23 := by
  have nonneg : 0 ≤ q * q := mul_self_nonneg q
  have product := abs_mul_le_mul quarter quarter
  have bounded : |q * q| ≤ 2 ^ (2 : ℤ) := product.trans (by norm_num)
  have error := Binary.abs_single_nearest_sub_le (by norm_num) bounded
  norm_num at error product
  refine ⟨value.mul value (Binary.single_le_largest (by norm_num) bounded),
    ⟨single.nearest_nonneg nonneg, ?_⟩, error.trans (by norm_num)⟩
  linarith [(abs_le.mp error).2, le_abs_self q, abs_mul_abs_self q]

/-- The cube from a given square, with its rounding error. -/
private theorem roundedCube_spec {s : Single} (value : x.HasValue q) (hasSquare : s.HasValue square)
    (quarter : |q| ≤ 15708 / 10 ^ 4) (size : |square| ≤ 24676 / 10 ^ 4) :
    (x * s).HasValue (single.nearest (q * square)) ∧
      |single.nearest (q * square) - q * square| ≤ 1 / 2 ^ 23 ∧
      |single.nearest (q * square)| ≤ 388 / 100 := by
  have product := abs_mul_le_mul quarter size
  have bounded : |q * square| ≤ 2 ^ (2 : ℤ) := product.trans (by norm_num)
  have error := Binary.abs_single_nearest_sub_le (by norm_num) bounded
  have triangle := abs_sub_abs_le_abs_sub (single.nearest (q * square)) (q * square)
  norm_num at error product triangle
  refine ⟨value.mul hasSquare (Binary.single_le_largest (by norm_num) bounded),
    error.trans (by norm_num), ?_⟩
  linarith

/-- The correction in rounded and in exact arithmetic. They differ by the errors of the last
product, the cube, the factor and the square. -/
theorem roundedCorrection_spec (mode : ApproxMode) (value : x.HasValue q)
    (within : |q| ≤ piValue / 2) :
    (mode.sine.eval x).HasValue (mode.polynomial.roundedEval q) ∧
      |mode.polynomial.roundedCorrection q - (mode.polynomial.eval q - q)| ≤ 12 / 10 ^ 8 := by
  have quarter : |q| ≤ 15708 / 10 ^ 4 := within.trans (by norm_num [piValue])
  have exactNonneg : 0 ≤ q * q := mul_self_nonneg q
  have exactLe : q * q ≤ 5 / 2 := by
    have product := le_of_abs_le (abs_mul_le_mul quarter quarter)
    linarith
  obtain ⟨hasSquare, ⟨squareNonneg, squareLe⟩, squareError⟩ := roundedSquare_spec value quarter
  unfold SinePolynomial.roundedEval SinePolynomial.roundedCorrection
  generalize single.nearest (q * q) = square at *
  have sizeSquare : |square| ≤ 24676 / 10 ^ 4 := abs_le.mpr ⟨by linarith, squareLe⟩
  obtain ⟨hasCube, cubeError, sizeCube⟩ := roundedCube_spec value hasSquare quarter sizeSquare
  generalize single.nearest (q * square) = cube at *
  have moderate := mode.moderate_polynomial
  obtain ⟨hasFactor, factorError⟩ :=
    roundedFactor_spec mode.hasValue_sine moderate hasSquare squareNonneg (by linarith)
  have sizeExact := abs_factor_le moderate squareNonneg (by linarith)
  generalize mode.polynomial.roundedFactor square = factor at *
  have sizeFactor : |factor| ≤ 1668 / 10 ^ 4 := by
    have triangle := abs_sub_abs_le_abs_sub factor (mode.polynomial.factor square)
    linarith
  have lastBounded : |cube * factor| ≤ 2 ^ (0 : ℤ) :=
    (abs_mul_le_mul sizeCube sizeFactor).trans (by norm_num)
  have hasCorrection := hasCube.mul hasFactor (Binary.single_le_largest (by norm_num) lastBounded)
  have lastError := Binary.abs_single_nearest_sub_le (by norm_num) lastBounded
  rw [zpow_zero] at lastBounded
  norm_num at lastError
  constructor
  · have sizeLast := abs_sub_abs_le_abs_sub (single.nearest (cube * factor)) (cube * factor)
    have total : |q + single.nearest (cube * factor)| ≤ 4 := (abs_add_le _ _).trans (by linarith)
    exact value.add hasCorrection (Binary.single_le_largest (by norm_num) total)
  · have split : single.nearest (cube * factor) - (mode.polynomial.eval q - q) =
        (single.nearest (cube * factor) - cube * factor) + (cube - q * square) * factor +
          q * square * (factor - mode.polynomial.factor square) +
          q * (square * mode.polynomial.factor square -
            q * q * mode.polynomial.factor (q * q)) := by
      rw [SinePolynomial.eval, sq]
      ring
    have second := abs_mul_le_mul cubeError sizeFactor
    have third := abs_mul_le_mul (abs_mul_le_mul quarter sizeSquare) factorError
    have fourth := abs_mul_le_mul quarter
      ((abs_factor_sub_le moderate squareNonneg (by linarith) exactNonneg exactLe).trans
        (mul_le_mul_of_nonneg_left squareError (by norm_num)))
    rw [split]
    refine (abs_add_le _ _).trans ?_
    refine (add_le_add (abs_add_three _ _ _) le_rfl).trans ?_
    refine (add_le_add (add_le_add (add_le_add lastError second) third) fourth).trans ?_
    norm_num

/-! ## Distance from the sine -/

/-- The coefficients of the difference between the polynomial and the Taylor polynomial of degree
fifteen. -/
def SinePolynomial.excess (p : SinePolynomial) : List ℚ :=
  [0, 0, 0, p.cubic + 1 / 6, 0, p.quintic - 1 / 120, 0, p.septic + 1 / 5040, 0,
    p.nonic - 1 / 362880, 0, 1 / 39916800, 0, -1 / 6227020800, 0, 1 / 1307674368000]

private theorem SinePolynomial.eval_excess (p : SinePolynomial) (x : ℚ) :
    Horner.eval p.excess x = p.eval x - sinTaylor 8 x := by
  simp only [excess, Horner.eval, SinePolynomial.eval, factor, sinTaylor, Finset.sum_range_succ,
    Finset.sum_range_zero, Nat.factorial]
  push_cast
  ring

private theorem keeps_excess (mode : ApproxMode) :
    Horner.Keeps mode.polynomial.excess 0 (piValue / 32) 16 (125 / 10 ^ 8) ∧
      Horner.Keeps (mode.polynomial.excess.map (-·)) 0 (piValue / 32) 16 (125 / 10 ^ 8) := by
  cases mode <;> decide +kernel

/-- The exact polynomial is near the sine on a quarter turn either side of zero. -/
theorem abs_polynomial_sub_sin_le (mode : ApproxMode) (within : |q| ≤ piValue / 2) :
    |(mode.polynomial.eval q : ℝ) - Real.sin q| ≤ 126 / 10 ^ 8 := by
  have nonnegative : ∀ p : ℚ, 0 ≤ p → p ≤ piValue / 2 →
      |(mode.polynomial.eval p : ℝ) - Real.sin p| ≤ 126 / 10 ^ 8 := by
    intro p nonneg le
    obtain ⟨above, below⟩ := keeps_excess mode
    have excess := Horner.abs_eval_le above below (by norm_num [piValue]) (by norm_num) nonneg
      (by push_cast; linarith)
    rw [SinePolynomial.eval_excess] at excess
    have quarter : |p| ≤ 15708 / 10 ^ 4 := by
      rw [abs_of_nonneg nonneg]
      exact le.trans (by norm_num [piValue])
    have remainder := abs_sin_sub_sinTaylor_le 8 (quarter.trans (by norm_num))
    have small : |p| ^ (2 * 8) / (2 * 8).factorial * 2 ≤ 1 / 10 ^ 8 := by
      have power : |p| ^ (2 * 8) ≤ (15708 / 10 ^ 4) ^ (2 * 8) := by gcongr
      norm_num [Nat.factorial] at power ⊢
      linarith
    have excess' := (Rat.cast_le (K := ℝ)).mpr excess
    have small' := (Rat.cast_le (K := ℝ)).mpr small
    push_cast at excess' small' remainder
    have triangle := abs_sub_le (mode.polynomial.eval p : ℝ) (sinTaylor 8 p) (Real.sin p)
    rw [abs_sub_comm (sinTaylor 8 p : ℝ)] at triangle
    linarith
  rcases le_total 0 q with nonneg | nonpos
  · exact nonnegative q nonneg (le_of_abs_le within)
  · have mirrored := nonnegative (-q) (neg_nonneg.mpr nonpos) ((neg_le_abs q).trans within)
    rw [SinePolynomial.eval_neg, Rat.cast_neg, Rat.cast_neg, Real.sin_neg, neg_sub_neg,
      abs_sub_comm] at mirrored
    exact mirrored

end FlightMath
