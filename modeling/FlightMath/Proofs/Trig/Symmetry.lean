import FlightMath.Proofs.Rounding.Agreement
import FlightMath.Proofs.Trig.Quadrant

/-! # Scale and reflections of the direction

The direction of a point depends on the ratio of its magnitudes and on its signs. Scaling both
coordinates by one power of two leaves their exact ratio as it is, and therefore the rounded one,
even where the coordinates are subnormal. Reversing the sign of a coordinate decides about one
reflection, and all that comes before that works on magnitudes.
-/

namespace FlightMath

open FloatFormat Angle

/-! ## Magnitudes -/

namespace Binary

variable {F : FloatFormat} {x y : Binary F} {q : ℚ}

/-- A number has one magnitude, and two values only if it is zero. -/
theorem HasValue.abs_eq_abs (left : x.HasValue q) (right : y.HasValue q) : x.abs = y.abs := by
  obtain ⟨negative, units, fits, rfl, rfl⟩ := hasValue_iff.mp left
  obtain ⟨otherNegative, otherUnits, otherFits, rfl, same⟩ := hasValue_iff.mp right
  have magnitude := congrArg (|·|) same
  rw [abs_div, abs_div, abs_signed, abs_signed, abs_of_pos F.scale_pos,
    div_left_inj' F.scale_pos.ne', Nat.cast_inj] at magnitude
  subst magnitude
  rfl

private theorem abs_round (num den : ℕ) :
    (round false num den : Binary F).abs = round false num den := by
  unfold round
  split <;> rfl

/-- A quotient of magnitudes is a magnitude. -/
private theorem abs_div_magnitudes (x y : Binary F) : (x.abs / y.abs).abs = x.abs / y.abs := by
  cases x <;> cases y
  case finite.finite negative units fits otherNegative otherUnits otherFits =>
    show Binary.abs (if _ then if _ then _ else _ else _) = if _ then if _ then _ else _ else _
    split
    · split <;> rfl
    · exact abs_round _ _
  all_goals rfl

end Binary

private theorem abs_magnitudeRatio (x y : Single) :
    (magnitudeRatio x.abs y.abs).abs = magnitudeRatio x.abs y.abs := by
  have choice (left : Prop) [Decidable left] :
      ∃ z : Single, (if left then x.abs else y.abs) = z.abs := by
    split
    · exact ⟨x, rfl⟩
    · exact ⟨y, rfl⟩
  obtain ⟨larger, isLarger⟩ := choice (y.abs < x.abs)
  obtain ⟨smaller, isSmaller⟩ := choice (x.abs < y.abs)
  unfold magnitudeRatio
  dsimp only
  rw [isLarger, isSmaller]
  split
  · rw [Binary.zero_eq]
    rfl
  · exact Binary.abs_div_magnitudes _ _

/-! ## Scale -/

variable {x y x' y' : Single} {a b k : ℚ}

/-- A common factor does not change the ratio of two magnitudes, nor its rounding. -/
theorem magnitudeRatio_scaled (factor : 0 < k) (abscissa : x.HasValue a) (ordinate : y.HasValue b)
    (abscissa' : x'.HasValue (k * a)) (ordinate' : y'.HasValue (k * b)) :
    magnitudeRatio x'.abs y'.abs = magnitudeRatio x.abs y.abs := by
  have ratio := hasValue_magnitudeRatio abscissa.abs ordinate.abs (abs_nonneg a) (abs_nonneg b)
  have ratio' := hasValue_magnitudeRatio abscissa'.abs ordinate'.abs (abs_nonneg _) (abs_nonneg _)
  rw [abs_mul, abs_mul, abs_of_pos factor, ← mul_min_of_nonneg _ _ factor.le,
    ← mul_max_of_nonneg _ _ factor.le, mul_div_mul_left _ _ factor.ne'] at ratio'
  rw [← abs_magnitudeRatio x y, ← abs_magnitudeRatio x' y']
  exact ratio'.abs_eq_abs ratio

/-- Values with a common positive factor are in the same order. -/
private theorem scaled_lt_iff (factor : 0 < k) (left : x.HasValue a) (right : y.HasValue b)
    (left' : x'.HasValue (k * a)) (right' : y'.HasValue (k * b)) : x' < y' ↔ x < y := by
  rw [left'.lt_iff right', left.lt_iff right, mul_lt_mul_iff_right₀ factor]

private theorem arcTangent2_scaled (factor : 0 < k) (abscissa : x.HasValue a)
    (ordinate : y.HasValue b) (abscissa' : x'.HasValue (k * a)) (ordinate' : y'.HasValue (k * b)) :
    arcTangent2 y' x' = arcTangent2 y x := by
  have zero : (0 : Single).HasValue (k * 0) := by
    rw [mul_zero]
    exact Binary.hasValue_zero
  have leftward := scaled_lt_iff factor abscissa Binary.hasValue_zero abscissa' zero
  have beneath := scaled_lt_iff factor ordinate Binary.hasValue_zero ordinate' zero
  have magnitude {z : Single} {c : ℚ} (value : z.HasValue (k * c)) : z.abs.HasValue (k * |c|) := by
    have positive := value.abs
    rwa [abs_mul, abs_of_pos factor] at positive
  have steep := scaled_lt_iff factor abscissa.abs ordinate.abs (magnitude abscissa')
    (magnitude ordinate')
  simp only [arcTangent2_eq, upperAngle, quadrantAngle, octantAngle, beneath, leftward, steep,
    magnitudeRatio_scaled factor abscissa ordinate abscissa' ordinate']

/-! ## Reflections -/

private theorem Binary.neg_lt_zero_iff {F : FloatFormat} (x : Binary F) : -x < 0 ↔ 0 < x := by
  have zero : (0 : Binary F).Agrees (-0) := by
    rw [zero_eq]
    exact zero_agrees _ _
  exact ((Agrees.refl (-x)).lt_iff zero).trans (Binary.neg_lt_neg_iff x 0)

private theorem upperAngle_neg_ordinate (y x : Single) : upperAngle (-y) x = upperAngle y x := by
  simp only [upperAngle, quadrantAngle, octantAngle, Binary.abs_neg]

private theorem quadrantAngle_neg_abscissa (y x : Single) :
    quadrantAngle y (-x) = quadrantAngle y x := by
  simp only [quadrantAngle, octantAngle, Binary.abs_neg]

/-- Reflection about the abscissa reverses the angle. -/
theorem arcTangent2_neg_ordinate (nonzero : ¬ y.ValueEq 0) (x : Single) :
    arcTangent2 (-y) x = -arcTangent2 y x := by
  by_cases lost : y = .nan
  · rw [lost, Binary.neg_nan, arcTangent2_of_undirected (.inl rfl), Binary.neg_nan]
  · have number : (0 : Single) ≠ .nan := Binary.ne_nan_of_isFinite Binary.hasValue_zero.1
    have opposite := Binary.neg_lt_zero_iff y
    rw [arcTangent2_eq, arcTangent2_eq, upperAngle_neg_ordinate]
    rcases Binary.lt_or_lt lost number nonzero with beneath | above
    · have notAbove := Binary.not_lt_of_le (Binary.le_of_lt beneath)
      rw [if_neg (mt opposite.mp notAbove), if_pos beneath, Binary.neg_neg]
    · have notBeneath := Binary.not_lt_of_le (Binary.le_of_lt above)
      rw [if_pos (opposite.mpr above), if_neg notBeneath]

/-- Reflection of a point of the first quadrant about the ordinate. -/
theorem arcTangent2_neg_abscissa (rightward : 0 < x) (above : 0 ≤ y) :
    arcTangent2 y (-x) = pi - arcTangent2 y x := by
  have leftward := (Binary.neg_lt_zero_iff x).mpr rightward
  have notLeftward := Binary.not_lt_of_le (Binary.le_of_lt rightward)
  have notBeneath := Binary.not_lt_of_le above
  rw [arcTangent2_eq, arcTangent2_eq, if_neg notBeneath, if_neg notBeneath, upperAngle, upperAngle,
    if_pos leftward, if_neg notLeftward, quadrantAngle_neg_abscissa]

/-- The half turn less an angle of the upper half plane is rounded without overflow. -/
theorem hasValue_pi_sub (directed : ¬ Undirected y x) (above : 0 ≤ y) :
    (pi - arcTangent2 y x).HasValue (single.nearest (pi.toRat - (arcTangent2 y x).toRat)) := by
  obtain ⟨t, unit, ratio⟩ := exists_ratio directed
  obtain ⟨angle, value, positive, below, -⟩ := upperAngle_spec ratio unit
  have upper : (arcTangent2 y x).HasValue angle := by
    rwa [arcTangent2_eq, if_neg (Binary.not_lt_of_le above)]
  rw [upper.2, hasValue_pi.2]
  have four : piValue ≤ 4 := by norm_num [piValue]
  have small : |piValue - angle| ≤ 4 := abs_le.mpr ⟨by linarith, by linarith⟩
  exact hasValue_pi.sub upper (Binary.single_le_largest (by norm_num) small)

/-! ## All symmetries -/

/-- The direction of a finite point is that of the point scaled by a power of two, bit for bit. An
ordinate other than zero passes its sign on, and a positive abscissa with its sign reversed leads to
the half turn less the angle, rounded, unless both coordinates are infinite. -/
theorem arcTangent2_symmetries (y x : Single) :
    (∀ (y' x' : Single) (n : ℤ), y.isFinite = true → x.isFinite = true →
        y'.HasValue (2 ^ n * y.toRat) → x'.HasValue (2 ^ n * x.toRat) →
        arcTangent2 y' x' = arcTangent2 y x) ∧
      (¬ y.ValueEq 0 → arcTangent2 (-y) x = -arcTangent2 y x) ∧
      (0 < x → 0 ≤ y → arcTangent2 y (-x) = pi - arcTangent2 y x ∧
        (Undirected y x ∨ (arcTangent2 y (-x)).HasValue
          (single.nearest (pi.toRat - (arcTangent2 y x).toRat)))) := by
  refine ⟨?_, fun nonzero => arcTangent2_neg_ordinate nonzero x, ?_⟩
  · intro y' x' n finiteOrdinate finiteAbscissa ordinate abscissa
    exact arcTangent2_scaled (zpow_pos two_pos n) (Binary.hasValue_toRat finiteAbscissa)
      (Binary.hasValue_toRat finiteOrdinate) abscissa ordinate
  · intro rightward above
    have reflected := arcTangent2_neg_abscissa rightward above
    refine ⟨reflected, ?_⟩
    rw [reflected]
    by_cases directed : Undirected y x
    · exact .inl directed
    · exact .inr (hasValue_pi_sub directed above)

/-- A steep point of a few units, which scales to `(1, 3)`. -/
theorem arcTangent2_symmetries_subnormal :
    ((4e-45 : Single).isFinite = true ∧ (1e-45 : Single).isFinite = true ∧
        (3 : Single).HasValue (2 ^ (149 : ℤ) * (4e-45 : Single).toRat) ∧
        (1 : Single).HasValue (2 ^ (149 : ℤ) * (1e-45 : Single).toRat) ∧
        arcTangent2 3 1 = arcTangent2 4e-45 1e-45) ∧
      (¬ (4e-45 : Single).ValueEq 0 ∧ arcTangent2 (-4e-45) 1e-45 = -arcTangent2 4e-45 1e-45) ∧
      (0 : Single) < 1e-45 ∧ (0 : Single) ≤ 4e-45 ∧
        arcTangent2 4e-45 (-1e-45) = pi - arcTangent2 4e-45 1e-45 ∧
        (Undirected 4e-45 1e-45 ∨ (arcTangent2 4e-45 (-1e-45)).HasValue
          (single.nearest (pi.toRat - (arcTangent2 4e-45 1e-45).toRat))) := by
  have finiteOrdinate : (4e-45 : Single).isFinite = true := by decide +kernel
  have finiteAbscissa : (1e-45 : Single).isFinite = true := by decide +kernel
  have ordinate : (3 : Single).HasValue (2 ^ (149 : ℤ) * (4e-45 : Single).toRat) := by
    decide +kernel
  have abscissa : (1 : Single).HasValue (2 ^ (149 : ℤ) * (1e-45 : Single).toRat) := by
    decide +kernel
  have nonzero : ¬ (4e-45 : Single).ValueEq 0 := by decide +kernel
  have rightward : (0 : Single) < 1e-45 := by decide +kernel
  have above : (0 : Single) ≤ 4e-45 := by decide +kernel
  obtain ⟨scaled, reversed, reflected⟩ := arcTangent2_symmetries 4e-45 1e-45
  exact ⟨⟨finiteOrdinate, finiteAbscissa, ordinate, abscissa,
      scaled 3 1 149 finiteOrdinate finiteAbscissa ordinate abscissa⟩,
    ⟨nonzero, reversed nonzero⟩, rightward, above, reflected rightward above⟩

end FlightMath
