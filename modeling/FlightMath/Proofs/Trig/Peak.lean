import FlightMath.Proofs.Trig.Polynomial

/-! # The peak of the sine polynomials

No argument within a quarter turn of zero takes the rounded polynomial above one. The fast
polynomial stays below one by more than its rounding error. The accurate one exceeds one next to a
quarter turn, and by less than its rounding error. Away from the quarter turn the sum of argument
and correction is still below one and two half units, hence at most one and a half unit, which is a
tie that goes to one. The two thousand arguments next to the quarter turn are evaluated exactly.
-/

namespace FlightMath

open FloatFormat Angle

/-! ## Exact polynomials -/

namespace SinePolynomial

/-- The coefficients in `-x` of the polynomial and a parabola that opens upward from a quarter
turn. -/
def lifted (p : SinePolynomial) (curvature : ℚ) : List ℚ :=
  [curvature * (piValue / 2) ^ 2, curvature * piValue - 1, curvature, -p.cubic, 0, -p.quintic, 0,
    -p.septic, 0, -p.nonic]

private theorem eval_lifted (p : SinePolynomial) (curvature x : ℚ) :
    Horner.eval (p.lifted curvature) (-x) = p.eval x + curvature * (piValue / 2 - x) ^ 2 := by
  simp only [lifted, Horner.eval, eval, factor]
  ring

end SinePolynomial

/-- A bound on the exact polynomial of a mode. -/
def ApproxMode.crest : ApproxMode → ℚ
  | .fast => 1 - 15 / 10 ^ 8
  | .accurate => 1 + 18 / 10 ^ 9

/-- The fast polynomial turns before the quarter turn, so only short pieces are sharp enough. -/
private theorem keeps_lifted :
    Horner.Keeps (ApproxMode.fast.polynomial.lifted (3 / 8)) (-(piValue / 2)) (piValue / 192) 96
        ApproxMode.fast.crest ∧
      Horner.Keeps (ApproxMode.accurate.polynomial.lifted (3 / 8)) (-(piValue / 2)) (piValue / 2) 1
        ApproxMode.accurate.crest := by
  decide +kernel

variable {q : ℚ}

/-- Below a quarter turn the exact polynomial falls off from its bound like a parabola. -/
theorem polynomial_eval_le (mode : ApproxMode) (nonneg : 0 ≤ q) (le : q ≤ piValue / 2) :
    mode.polynomial.eval q ≤ mode.crest - 3 / 8 * (piValue / 2 - q) ^ 2 := by
  have positive : 0 < piValue := by norm_num [piValue]
  obtain ⟨fast, accurate⟩ := keeps_lifted
  rw [le_sub_iff_add_le, ← SinePolynomial.eval_lifted]
  cases mode with
  | fast =>
    exact fast.eval_le (by linarith) (by norm_num) (neg_le_neg le) (by push_cast; linarith)
  | accurate =>
    exact accurate.eval_le (by linarith) (by norm_num) (neg_le_neg le) (by push_cast; linarith)

private theorem polynomial_eval_nonneg (mode : ApproxMode) (nonneg : 0 ≤ q) (le : q ≤ piValue / 2) :
    0 ≤ mode.polynomial.eval q := by
  have quarter : |q| ≤ 15708 / 10 ^ 4 := by
    rw [abs_of_nonneg nonneg]
    exact le.trans (by norm_num [piValue])
  have square := abs_mul_le_mul quarter quarter
  rw [← sq, abs_of_nonneg (sq_nonneg q)] at square
  have size := abs_factor_le mode.moderate_polynomial (sq_nonneg q) (square.trans (by norm_num))
  have contraction := abs_mul_le_mul (abs_of_nonneg (sq_nonneg q) ▸ square) size
  have lower := (abs_le.mp contraction).1
  have factored : mode.polynomial.eval q = q * (1 + q ^ 2 * mode.polynomial.factor (q ^ 2)) := by
    rw [SinePolynomial.eval]
    ring
  rw [factored]
  exact mul_nonneg nonneg (by norm_num at lower; linarith)

/-! ## Arguments next to the quarter turn -/

/-- The rounded significand of a quotient, if that lies in the binade of full significands. -/
def significand? (num den : ℕ) : Option ℕ :=
  if 2 ^ 23 * den ≤ num ∧ num < 2 ^ 24 * den then some (roundHalfEven num den) else none

private theorem nearest_of_significand? {num den significand : ℕ} {q : ℚ} (low : ℤ)
    (found : significand? num den = some significand) (coarse : -149 ≤ low)
    (exact : q = num / den * 2 ^ low) : single.nearest q = significand * 2 ^ low := by
  unfold significand? at found
  split at found
  · next inside =>
    obtain rfl := Option.some.inj found
    rw [exact]
    exact nearest_of_binade inside.1 inside.2 coarse
  · cases found

private theorem nearest_neg_of_significand? {num den significand : ℕ} {q : ℚ} (low : ℤ)
    (found : significand? num den = some significand) (coarse : -149 ≤ low)
    (exact : -q = num / den * 2 ^ low) : single.nearest q = -(significand * 2 ^ low) := by
  rw [← nearest_of_significand? low found coarse exact, nearest_neg, neg_neg]

/-- The significand of the accurate mode's correction, with its sign reversed, for the argument with
the significand `x`, as long as no intermediate result leaves its usual binade. -/
def peakCorrection? (x : ℕ) : Option ℕ := do
  let square ← significand? (x * x) (2 ^ 24)
  let nonic ← significand? (5717581 * square) (2 ^ 22)
  let septic ← significand? (6805501 * 2 ^ 6 - nonic) (2 ^ 5)
  let septic ← significand? (square * septic) (2 ^ 23)
  let quintic ← significand? (8947509 * 2 ^ 5 - septic) (2 ^ 5)
  let quintic ← significand? (square * quintic) (2 ^ 23)
  let cubic ← significand? (2796201 * 2 ^ 5 - quintic) (2 ^ 3)
  let cube ← significand? (x * square) (2 ^ 23)
  significand? (cube * cubic) (2 ^ 24)

/-- A difference that has a significand is not cut off at zero. -/
private theorem cast_sub_of_significand? {minuend subtrahend den significand : ℕ}
    (found : significand? (minuend - subtrahend) den = some significand) (positive : 0 < den) :
    ((minuend - subtrahend : ℕ) : ℚ) = minuend - subtrahend := by
  unfold significand? at found
  split at found
  · next inside =>
    have scaled := Nat.mul_pos (Nat.two_pow_pos 23) positive
    exact Nat.cast_sub (by omega)
  · cases found

/-- A correction found on significands is that of rounded arithmetic. Each intermediate result, from
the square on, is its significand at its exponent. -/
theorem roundedCorrection_of_peakCorrection? {x correction : ℕ}
    (found : peakCorrection? x = some correction) :
    ApproxMode.accurate.polynomial.roundedCorrection (x / 2 ^ 23) = -(correction / 2 ^ 24) := by
  simp only [peakCorrection?, Option.bind_eq_bind, Option.bind_eq_some_iff] at found
  obtain ⟨square, foundSquare, nonic, foundNonic, septic, foundSeptic, septicProduct,
    foundSepticProduct, quintic, foundQuintic, quinticProduct, foundQuinticProduct, cubic,
    foundCubic, cube, foundCube, foundCorrection⟩ := found
  have septicDifference := cast_sub_of_significand? foundSeptic (by norm_num)
  have quinticDifference := cast_sub_of_significand? foundQuintic (by norm_num)
  have cubicDifference := cast_sub_of_significand? foundCubic (by norm_num)
  have squareValue : single.nearest ((x : ℚ) / 2 ^ 23 * (x / 2 ^ 23)) = square * 2 ^ (-22 : ℤ) :=
    nearest_of_significand? _ foundSquare (by norm_num) (by push_cast; ring)
  have nonicValue : single.nearest (square * 2 ^ (-22 : ℤ) * (5717581 / 2 ^ 41)) =
      nonic * 2 ^ (-41 : ℤ) :=
    nearest_of_significand? _ foundNonic (by norm_num) (by push_cast; ring)
  have septicValue : single.nearest (-6805501 / 2 ^ 35 + nonic * 2 ^ (-41 : ℤ)) =
      -(septic * 2 ^ (-36 : ℤ)) := by
    refine nearest_neg_of_significand? _ foundSeptic (by norm_num) ?_
    rw [septicDifference]
    push_cast
    ring
  have septicProductValue : single.nearest (square * 2 ^ (-22 : ℤ) * -(septic * 2 ^ (-36 : ℤ))) =
      -(septicProduct * 2 ^ (-35 : ℤ)) :=
    nearest_neg_of_significand? _ foundSepticProduct (by norm_num) (by push_cast; ring)
  have quinticValue : single.nearest (8947509 / 2 ^ 30 + -(septicProduct * 2 ^ (-35 : ℤ))) =
      quintic * 2 ^ (-30 : ℤ) := by
    refine nearest_of_significand? _ foundQuintic (by norm_num) ?_
    rw [quinticDifference]
    push_cast
    ring
  have quinticProductValue : single.nearest (square * 2 ^ (-22 : ℤ) * (quintic * 2 ^ (-30 : ℤ))) =
      quinticProduct * 2 ^ (-29 : ℤ) :=
    nearest_of_significand? _ foundQuinticProduct (by norm_num) (by push_cast; ring)
  have cubicValue : single.nearest (-2796201 / 2 ^ 24 + quinticProduct * 2 ^ (-29 : ℤ)) =
      -(cubic * 2 ^ (-26 : ℤ)) := by
    refine nearest_neg_of_significand? _ foundCubic (by norm_num) ?_
    rw [cubicDifference]
    push_cast
    ring
  have cubeValue : single.nearest ((x : ℚ) / 2 ^ 23 * (square * 2 ^ (-22 : ℤ))) =
      cube * 2 ^ (-22 : ℤ) :=
    nearest_of_significand? _ foundCube (by norm_num) (by push_cast; ring)
  have correctionValue : single.nearest (cube * 2 ^ (-22 : ℤ) * -(cubic * 2 ^ (-26 : ℤ))) =
      -(correction * 2 ^ (-24 : ℤ)) :=
    nearest_neg_of_significand? _ foundCorrection (by norm_num) (by push_cast; ring)
  unfold SinePolynomial.roundedCorrection SinePolynomial.roundedFactor
  dsimp only [ApproxMode.polynomial]
  rw [squareValue, nonicValue, septicValue, septicProductValue, quinticValue, quinticProductValue,
    cubicValue, cubeValue, correctionValue]
  ring

/-- The two thousand arguments next to the quarter turn have corrections that bring their sum down
to at most one and a half unit. -/
private theorem peakCorrection?_large :
    ∀ steps < 2000, ((peakCorrection? (13176795 - steps)).any fun correction =>
      2 * (13176795 - steps) ≤ correction + 2 ^ 24 + 1) = true := by
  decide +kernel

private theorem add_roundedCorrection_le_of_near {steps : ℕ} (near : steps < 2000) :
    ((13176795 - steps : ℕ) : ℚ) / 2 ^ 23 +
      ApproxMode.accurate.polynomial.roundedCorrection (((13176795 - steps : ℕ) : ℚ) / 2 ^ 23) ≤
      1 + 1 / 2 ^ 24 := by
  obtain ⟨correction, found, large⟩ :=
    (Option.any_eq_true _ _).mp (peakCorrection?_large steps near)
  rw [roundedCorrection_of_peakCorrection? found]
  have large' : 2 * ((13176795 - steps : ℕ) : ℚ) ≤ correction + 2 ^ 24 + 1 := by
    exact_mod_cast of_decide_eq_true large
  linarith

/-! ## The rounded polynomial -/

/-- One and a half unit is a tie, and one has the even significand. -/
private theorem nearest_tie_above_one : single.nearest (1 + 1 / 2 ^ 24) = 1 := by
  have tie := nearest_of_binade (F := single)
    (show 2 ^ (single.precision - 1) * 2 ≤ 2 ^ 24 + 1 by norm_num [single])
    (by norm_num [single]) (show -(single.unitExponent : ℤ) ≤ -23 by decide)
  have even : roundHalfEven (2 ^ 24 + 1) 2 = 2 ^ 23 := by decide
  rw [even] at tie
  norm_num at tie ⊢
  exact tie

/-- The sum of the argument and the correction before it is rounded. -/
theorem add_roundedCorrection_le (mode : ApproxMode) {x : Single} (value : x.HasValue q)
    (nonneg : 0 ≤ q) (le : q ≤ piValue / 2) : q + mode.polynomial.roundedCorrection q ≤
      mode.crest - 3 / 8 * (piValue / 2 - q) ^ 2 + 12 / 10 ^ 8 := by
  have within : |q| ≤ piValue / 2 := by rwa [abs_of_nonneg nonneg]
  have exact := polynomial_eval_le mode nonneg le
  have error := (roundedCorrection_spec mode value within).2
  linarith [(abs_le.mp error).2]

/-- Near the quarter turn, the argument is a whole number of units of the binade above one, and the
correction is one of half units. -/
private theorem isMultiple_of_near {x : Single} (value : x.HasValue q) (near : 152 / 100 ≤ q)
    (le : q ≤ piValue / 2) : IsMultiple (-23) q ∧
      IsMultiple (-24) (q + ApproxMode.accurate.polynomial.roundedCorrection q) := by
  have positive : |q| = q := abs_of_nonneg (by linarith)
  have sum := add_roundedCorrection_le .accurate value (by linarith) le
  have crest : ApproxMode.accurate.crest = 1 + 18 / 10 ^ 9 := rfl
  have parabola : 0 ≤ 3 / 8 * (piValue / 2 - q) ^ 2 := by positivity
  have correction : ApproxMode.accurate.polynomial.roundedCorrection q ≤ -(1 / 2) := by linarith
  refine ⟨value.grid.isMultiple (-23) (by decide) ?_, IsMultiple.add ?_ ?_⟩
  · rw [positive]
    norm_num [single]
    linarith
  · refine value.grid.isMultiple (-24) (by decide) ?_
    rw [positive]
    norm_num [single]
    linarith
  · refine (grid_nearest _).isMultiple (-24) (by decide) ?_
    refine le_trans ?_ (neg_le_abs _)
    norm_num [single]
    exact le_neg_of_le_neg (correction.trans_eq (by norm_num))

/-- An argument less than two thousand units below the quarter turn is one of those evaluated. -/
private theorem exists_steps (multiple : IsMultiple (-23) q) (le : q ≤ piValue / 2)
    (next : piValue / 2 - q < 2000 / 2 ^ 23) :
    ∃ steps < 2000, q = ((13176795 - steps : ℕ) : ℚ) / 2 ^ 23 := by
  obtain ⟨significand, rfl⟩ := multiple
  have upper : (significand : ℚ) ≤ 13176795 := by
    norm_num [piValue] at le
    linarith
  have lower : (13176795 - 2000 : ℚ) < significand := by
    norm_num [piValue] at next
    linarith
  have upper' : significand ≤ 13176795 := by exact_mod_cast upper
  have lower' : 13176795 - 2000 < significand := by exact_mod_cast lower
  refine ⟨(13176795 - significand).toNat, by omega, ?_⟩
  have whole : ((13176795 - (13176795 - significand).toNat : ℕ) : ℤ) = significand := by omega
  have same : ((13176795 - (13176795 - significand).toNat : ℕ) : ℚ) = significand := by
    exact_mod_cast whole
  rw [same, zpow_neg, ← div_eq_mul_inv]
  norm_num

/-- Below two half units above one there is no multiple of a half unit beyond the first. -/
private theorem le_tie_of_isMultiple (multiple : IsMultiple (-24) q) (below : q < 1 + 1 / 2 ^ 23) :
    q ≤ 1 + 1 / 2 ^ 24 := by
  obtain ⟨halves, rfl⟩ := multiple
  have count : (halves : ℚ) < 2 ^ 24 + 2 := by
    norm_num at below ⊢
    linarith
  have count' : halves < 2 ^ 24 + 2 := by exact_mod_cast count
  have count'' : (halves : ℚ) ≤ 2 ^ 24 + 1 := by exact_mod_cast Int.lt_add_one_iff.mp count'
  norm_num at count'' ⊢
  linarith

/-- The sum of the argument and the accurate correction does not reach two half units above one. -/
theorem accurate_sum_le {x : Single} (value : x.HasValue q) (nonneg : 0 ≤ q)
    (le : q ≤ piValue / 2) :
    q + ApproxMode.accurate.polynomial.roundedCorrection q ≤ 1 + 1 / 2 ^ 24 := by
  have sum := add_roundedCorrection_le .accurate value nonneg le
  have crest : ApproxMode.accurate.crest = 1 + 18 / 10 ^ 9 := rfl
  rcases lt_or_ge q (152 / 100) with far | near
  · have distance : 5 / 100 ≤ piValue / 2 - q := by
      norm_num [piValue]
      linarith
    have parabola : (5 / 100) ^ 2 ≤ (piValue / 2 - q) ^ 2 := by gcongr
    linarith
  · obtain ⟨argument, total⟩ := isMultiple_of_near value near le
    rcases lt_or_ge (piValue / 2 - q) (2000 / 2 ^ 23) with next | apart
    · obtain ⟨steps, few, rfl⟩ := exists_steps argument le next
      exact add_roundedCorrection_le_of_near few
    · have parabola : (2000 / 2 ^ 23) ^ 2 ≤ (piValue / 2 - q) ^ 2 := by gcongr
      apply le_tie_of_isMultiple total
      linarith

/-- The polynomial of either mode stays between minus one and one. -/
theorem abs_roundedEval_le {x : Single} (mode : ApproxMode) (value : x.HasValue q)
    (within : |q| ≤ piValue / 2) : |mode.polynomial.roundedEval q| ≤ 1 := by
  have nonnegative : ∀ (y : Single) (p : ℚ), y.HasValue p → 0 ≤ p → p ≤ piValue / 2 →
      |mode.polynomial.roundedEval p| ≤ 1 := by
    intro y p value nonneg le
    have quarter : |p| ≤ piValue / 2 := by rwa [abs_of_nonneg nonneg]
    have error := (roundedCorrection_spec mode value quarter).2
    have exact := polynomial_eval_nonneg mode nonneg le
    rw [SinePolynomial.roundedEval, abs_le]
    constructor
    · refine le_nearest grid_one.neg ?_
      linarith [(abs_le.mp error).1]
    · cases mode with
      | fast =>
        have sum := add_roundedCorrection_le .fast value nonneg le
        have crest : ApproxMode.fast.crest = 1 - 15 / 10 ^ 8 := rfl
        have parabola : 0 ≤ 3 / 8 * (piValue / 2 - p) ^ 2 := by positivity
        exact nearest_le grid_one (by linarith)
      | accurate =>
        exact (nearest_mono (accurate_sum_le value nonneg le)).trans_eq nearest_tie_above_one
  rcases le_total 0 q with nonneg | nonpos
  · exact nonnegative x q value nonneg (le_of_abs_le within)
  · have mirrored := nonnegative (-x) (-q) value.neg (neg_nonneg.mpr nonpos)
      ((neg_le_abs q).trans within)
    rwa [SinePolynomial.roundedEval_neg, abs_neg] at mirrored

end FlightMath
