import FlightMath.Proofs.Rounding.Intervals

/-! # Rounded sums of products

One rounding errs by half a unit in the last place of the exact result, or by half of the least
positive value where the result is subnormal. A sum of rounded products that is formed from left to
right therefore keeps an error relative to the magnitudes of its products, which cancellation
between them does not affect, and an absolute error for each product.
-/

namespace FlightMath

/-- The exact sum of the magnitudes. -/
def sumAbs (components : List Single) : ℚ :=
  (components.map fun c => |c.toRat|).sum

namespace FloatFormat

variable {F : FloatFormat}

/-- Above the subnormal numbers the error of one rounding is relative, as the binade of the number
bounds its spacing. -/
theorem abs_nearest_sub_le_of_normal {q : ℚ}
    (large : 2 ^ ((F.precision : ℤ) - F.unitExponent) < |q|) :
    |F.nearest q - q| ≤ |q| / 2 ^ F.precision := by
  have positive : 0 < |q| := lt_trans (by positivity) large
  obtain ⟨top, above, below⟩ := exists_mem_Ioc_zpow positive one_lt_two
  have normal : (F.precision : ℤ) - F.unitExponent ≤ top + 1 :=
    ((zpow_lt_zpow_iff_right₀ one_lt_two).mp (large.trans_le below)).le
  have error := abs_nearest_sub_le_two_zpow below normal
  have spacing : (2 : ℚ) ^ (top + 1 - F.precision) / 2 = 2 ^ top / 2 ^ F.precision := by
    rw [zpow_sub₀ two_ne_zero, zpow_add_one₀ two_ne_zero, zpow_natCast]
    field_simp
  rw [spacing] at error
  exact error.trans (by gcongr)

/-- The error of one rounding: relative to the number, and half a unit below the normal numbers. -/
theorem abs_nearest_sub_le_mixed (q : ℚ) :
    |F.nearest q - q| ≤ |q| / 2 ^ F.precision + 2 ^ (-(F.unitExponent : ℤ)) / 2 := by
  have relative : 0 ≤ |q| / 2 ^ F.precision := by positivity
  have absolute : (0 : ℚ) < 2 ^ (-(F.unitExponent : ℤ)) / 2 := by positivity
  rcases le_or_gt |q| (2 ^ ((F.precision : ℤ) - F.unitExponent)) with small | large
  · have error := abs_nearest_sub_le_two_zpow small le_rfl
    rw [sub_sub_cancel_left] at error
    linarith
  · linarith [abs_nearest_sub_le_of_normal large]

end FloatFormat

namespace Binary

open FloatFormat

variable {x y : Single} {a b exact other size : ℚ} {terms : ℕ}

theorem abs_single_nearest_sub_le_mixed (q : ℚ) :
    |single.nearest q - q| ≤ |q| / 2 ^ 24 + 1 / 2 ^ 150 := by
  have unit : (2 : ℚ) ^ (-(single.unitExponent : ℤ)) / 2 = 1 / 2 ^ 150 := by norm_num [single]
  rw [← unit]
  exact abs_nearest_sub_le_mixed q

/-! ## Products -/

/-- A finite value within one rounding of an exact product. -/
def RoundedOnce (x : Single) (exact : ℚ) : Prop :=
  x.Near exact (|exact| / 2 ^ 24 + 1 / 2 ^ 150)

theorem HasValue.roundedOnce_mul (left : x.HasValue a) (right : y.HasValue b)
    (bounded : |a * b| ≤ 2 ^ 127) : (x * y).RoundedOnce (a * b) :=
  (left.mul right (single_le_largest (by norm_num) bounded)).near
    (abs_single_nearest_sub_le_mixed (a * b))

theorem RoundedOnce.neg (rounded : x.RoundedOnce exact) : (-x).RoundedOnce (-exact) := by
  refine (hasValue_toRat rounded.finite).neg.near ?_
  rw [neg_sub_neg, abs_sub_comm, abs_neg]
  exact rounded.near

/-! ## Sums -/

/-- A finite value near the sum of so many products, whose magnitudes add up to `size`. -/
structure SumOfProducts (terms : ℕ) (x : Single) (exact size : ℚ) : Prop
    extends x.Near exact (terms * (size / 2 ^ 23 + 1 / 2 ^ 148)) where
  exact_le : |exact| ≤ size

theorem SumOfProducts.near_four (sum : SumOfProducts 4 x exact size) :
    x.Near exact (size / 2 ^ 21 + 1 / 2 ^ 146) :=
  ⟨sum.finite, sum.near.trans_eq (by push_cast; ring)⟩

theorem RoundedOnce.sumOfProducts (rounded : x.RoundedOnce exact) :
    SumOfProducts 1 x exact |exact| := by
  refine ⟨⟨rounded.finite, rounded.near.trans ?_⟩, le_rfl⟩
  have nonneg := abs_nonneg exact
  rw [Nat.cast_one, one_mul]
  gcongr <;> norm_num

/-- One more product: its own rounding and that of the sum stay within its share of the error. -/
theorem SumOfProducts.add (sum : SumOfProducts terms x exact size) (rounded : y.RoundedOnce other)
    (positive : 1 ≤ terms) (few : terms ≤ 2 ^ 10) (bounded : size + |other| ≤ 2 ^ 126) :
    SumOfProducts (terms + 1) (x + y) (exact + other) (size + |other|) := by
  have hasSum := hasValue_toRat sum.finite
  have hasProduct := hasValue_toRat rounded.finite
  have sumNear := sum.near
  have productNear := rounded.near
  have exactLe := sum.exact_le
  have otherNonneg := abs_nonneg other
  have sizeNonneg : 0 ≤ size := (abs_nonneg exact).trans exactLe
  generalize x.toRat = a at *
  generalize y.toRat = b at *
  have count : (1 : ℚ) ≤ terms := by exact_mod_cast positive
  have count' : (terms : ℚ) ≤ 2 ^ 10 := by exact_mod_cast few
  have split : a + b - (exact + other) = (a - exact) + (b - other) := by ring
  have unrounded : |a + b - (exact + other)| ≤
      terms * (size / 2 ^ 23 + 1 / 2 ^ 148) + (|other| / 2 ^ 24 + 1 / 2 ^ 150) := by
    rw [split]
    exact (abs_add_le _ _).trans (add_le_add sumNear productNear)
  have total : |exact + other| ≤ size + |other| :=
    (abs_add_le _ _).trans (add_le_add_left exactLe _)
  have magnitude : |a + b| ≤ size + |other| +
      (terms * (size / 2 ^ 23 + 1 / 2 ^ 148) + (|other| / 2 ^ 24 + 1 / 2 ^ 150)) := by
    have triangle := abs_sub_abs_le_abs_sub (a + b) (exact + other)
    linarith
  have share : terms * (size / 2 ^ 23 + 1 / 2 ^ 148) ≤ 2 ^ 10 * (size / 2 ^ 23 + 1 / 2 ^ 148) :=
    mul_le_mul_of_nonneg_right count' (by positivity)
  have range : |a + b| ≤ 2 ^ 127 := by linarith
  have value := hasSum.add hasProduct (single_le_largest (by norm_num) range)
  refine ⟨value.near ?_, total⟩
  have rounding := abs_single_nearest_sub_le_mixed (a + b)
  have scaled : |other| ≤ terms * |other| := le_mul_of_one_le_left otherNonneg count
  refine (abs_sub_le _ (a + b) _).trans ((add_le_add rounding unrounded).trans ?_)
  push_cast
  linarith

/-- The sum of three products, which may have signs of their own. -/
theorem sumOfProducts_three {p₁ p₂ p₃ : Single} {t₁ t₂ t₃ : ℚ} (first : p₁.RoundedOnce t₁)
    (second : p₂.RoundedOnce t₂) (third : p₃.RoundedOnce t₃)
    (bounded : |t₁| + |t₂| + |t₃| ≤ 2 ^ 126) :
    SumOfProducts 3 (p₁ + p₂ + p₃) (t₁ + t₂ + t₃) (|t₁| + |t₂| + |t₃|) := by
  have last := abs_nonneg t₃
  have two := first.sumOfProducts.add second le_rfl (by norm_num) (by linarith)
  exact two.add third (by norm_num) (by norm_num) bounded

/-- The sum of four products, which may have signs of their own. -/
theorem sumOfProducts_four {p₁ p₂ p₃ p₄ : Single} {t₁ t₂ t₃ t₄ : ℚ} (first : p₁.RoundedOnce t₁)
    (second : p₂.RoundedOnce t₂) (third : p₃.RoundedOnce t₃) (fourth : p₄.RoundedOnce t₄)
    (bounded : |t₁| + |t₂| + |t₃| + |t₄| ≤ 2 ^ 126) :
    SumOfProducts 4 (p₁ + p₂ + p₃ + p₄) (t₁ + t₂ + t₃ + t₄) (|t₁| + |t₂| + |t₃| + |t₄|) := by
  have last := abs_nonneg t₄
  have three := sumOfProducts_three first second third (by linarith)
  exact three.add fourth (by norm_num) (by norm_num) bounded

end Binary

end FlightMath
