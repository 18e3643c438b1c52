import FlightMath.Proofs.Rounding.Order
import FlightMath.Proofs.Rounding.Products
import FlightMath.Proofs.Rounding.Roots

/-! # Rounded sums of squares and their roots

A sum of two values has a relative rounding error only, since below the normal numbers it is exact.
So a rounded sum of squares has a relative error for each term and an absolute one for each product.
If the sum is a normal number, the square of its rounded root is as near to it as two roundings.

Overflow is not excluded beforehand: a finite sum has finite terms.
-/

namespace FlightMath

/-- The exact sum of squares. -/
def sumSquares (components : List Single) : ℚ :=
  (components.map fun c => c.toRat ^ 2).sum

theorem sumSquares_nonneg (components : List Single) : 0 ≤ sumSquares components := by
  refine List.sum_nonneg fun square mem => ?_
  obtain ⟨c, -, rfl⟩ := List.mem_map.mp mem
  exact sq_nonneg _

/-- The sum of squares as it is computed, one component after the other. -/
def roundedSquares (first : Single) (rest : List Single) : Single :=
  rest.foldl (fun sum c => sum + c * c) (first * first)

namespace Binary

open FloatFormat

variable {F : FloatFormat}

/-! ## Sums -/

/-- The sum of two values is exact below the normal numbers. -/
theorem abs_nearest_add_sub_le {x y : Binary F} {a b : ℚ} (left : x.HasValue a)
    (right : y.HasValue b) : |F.nearest (a + b) - (a + b)| ≤ |a + b| / 2 ^ F.precision := by
  have multiple := left.isMultiple.add right.isMultiple
  generalize a + b = total at *
  rcases le_or_gt |total| (2 ^ ((F.precision : ℤ) - F.unitExponent)) with small | large
  · have grid : F.Grid total := multiple.grid le_rfl (by rwa [Int.sub_eq_add_neg] at small)
    rw [nearest_of_grid grid, sub_self, abs_zero]
    positivity
  · exact abs_nearest_sub_le_of_normal large

/-- The error that each term of a sum of squares is accountable for. -/
def squareError (exact : ℚ) : ℚ :=
  exact * (1 / 2 ^ 24 + 1 / 2 ^ 44) + (1 / 2 ^ 150 + 1 / 2 ^ 170)

variable {x c : Single} {a exact q : ℚ} {terms : ℕ}

/-- A finite square, with its rounding error. -/
theorem HasValue.near_square (value : c.HasValue a) (finite : (c * c).isFinite = true) :
    (c * c).Near (a ^ 2) (a ^ 2 / 2 ^ 24 + 1 / 2 ^ 150) := by
  refine ((value.rounds_mul value).hasValue_of_isFinite finite).near ?_
  have error := abs_single_nearest_sub_le_mixed (a * a)
  rw [abs_mul_self] at error
  rwa [sq]

/-- One more square keeps to one more share of the error. -/
theorem Near.add_square (sum : x.Near exact (terms * squareError exact)) (nonneg : 0 ≤ exact)
    (positive : 1 ≤ terms) (few : terms ≤ 8) (value : c.HasValue a)
    (finite : (x + c * c).isFinite = true) :
    (x + c * c).Near (exact + a ^ 2) ((terms + 1 : ℕ) * squareError (exact + a ^ 2)) := by
  have square := value.near_square (isFinite_of_isFinite_add finite).2
  have hasSum := hasValue_toRat sum.finite
  have hasSquare := hasValue_toRat square.finite
  have rounding := abs_nearest_add_sub_le hasSum hasSquare
  refine ((hasSum.rounds_add hasSquare).hasValue_of_isFinite finite).near ?_
  have sumNear := sum.near
  have squareNear := square.near
  have squareNonneg := sq_nonneg a
  generalize x.toRat = s at *
  generalize (c * c).toRat = p at *
  generalize a ^ 2 = e at *
  have one : (1 : ℚ) ≤ terms := by exact_mod_cast positive
  have eight : (terms : ℚ) ≤ 8 := by exact_mod_cast few
  have unrounded : |s + p - (exact + e)| ≤
      terms * squareError exact + (e / 2 ^ 24 + 1 / 2 ^ 150) := by
    rw [add_sub_add_comm]
    exact (abs_add_le _ _).trans (add_le_add sumNear squareNear)
  have size : |s + p| ≤ exact + e + (terms * squareError exact + (e / 2 ^ 24 + 1 / 2 ^ 150)) := by
    have triangle := abs_sub_abs_le_abs_sub (s + p) (exact + e)
    rw [abs_of_nonneg (add_nonneg nonneg squareNonneg)] at triangle
    linarith
  have precision : single.precision = 24 := rfl
  rw [precision] at rounding
  refine (abs_sub_le _ (s + p) _).trans ((add_le_add rounding unrounded).trans ?_)
  have share : terms * squareError exact ≤ 8 * squareError exact := by
    refine mul_le_mul_of_nonneg_right eight ?_
    unfold squareError
    positivity
  have scaled : e ≤ terms * e := le_mul_of_one_le_left squareNonneg one
  unfold squareError at *
  push_cast
  linarith

/-- A finite rounded sum of squares is near the exact one, relative to it. -/
theorem near_roundedSquares {first : Single} {rest : List Single} (few : rest.length ≤ 8)
    (finite : (roundedSquares first rest).isFinite = true) :
    (∀ c ∈ first :: rest, c.isFinite = true) ∧
      (roundedSquares first rest).Near (sumSquares (first :: rest))
        ((rest.length + 1 : ℕ) * squareError (sumSquares (first :: rest))) := by
  induction rest using List.reverseRecOn with
  | nil =>
    have firstFinite := (isFinite_of_isFinite_mul finite).1
    have square := (hasValue_toRat firstFinite).near_square finite
    refine ⟨by simpa using firstFinite, square.finite, ?_⟩
    have nonneg := sq_nonneg first.toRat
    have near := square.near
    simp only [sumSquares, List.map_cons, List.map_nil, List.sum_cons, List.sum_nil, add_zero,
      List.length_nil, squareError]
    refine near.trans ?_
    push_cast
    linarith
  | append_singleton rest c ih =>
    have step : roundedSquares first (rest ++ [c]) = roundedSquares first rest + c * c := by
      simp [roundedSquares]
    rw [step] at finite
    obtain ⟨sumFinite, squareFinite⟩ := isFinite_of_isFinite_add finite
    rw [List.length_append, List.length_singleton] at few
    obtain ⟨before, near⟩ := ih (by omega) sumFinite
    have last := (isFinite_of_isFinite_mul squareFinite).1
    have total : sumSquares (first :: (rest ++ [c])) =
        sumSquares (first :: rest) + c.toRat ^ 2 := by
      simp [sumSquares]
      ring
    rw [step, total, List.length_append, List.length_singleton]
    refine ⟨?_, near.add_square (sumSquares_nonneg _) (by omega) (by omega) (hasValue_toRat last)
      finite⟩
    intro component mem
    rw [← List.cons_append, List.mem_append, List.mem_singleton] at mem
    rcases mem with inside | rfl
    · exact before component inside
    · exact last

/-- The sum of values that are not negative is at least either of them. -/
theorem HasValue.le_toRat_add {y : Binary F} {x : Binary F} {a b : ℚ} (left : x.HasValue a)
    (right : y.HasValue b) (finite : (x + y).isFinite = true) (nonneg : 0 ≤ a) (nonneg' : 0 ≤ b) :
    a ≤ (x + y).toRat ∧ b ≤ (x + y).toRat := by
  rw [((left.rounds_add right).hasValue_of_isFinite finite).2]
  exact ⟨le_nearest left.grid (le_add_of_nonneg_right nonneg'),
    le_nearest right.grid (le_add_of_nonneg_left nonneg)⟩

/-- A finite rounded sum of squares is at least each of its rounded squares. -/
theorem le_roundedSquares {first : Single} {rest : List Single}
    (finite : (roundedSquares first rest).isFinite = true) :
    ∀ c ∈ first :: rest,
      ∃ s, (c * c).HasValue s ∧ 0 ≤ s ∧ s ≤ (roundedSquares first rest).toRat := by
  have square {c : Single} (finite : (c * c).isFinite = true) :
      (c * c).HasValue (c * c).toRat ∧ 0 ≤ (c * c).toRat := by
    have value := hasValue_toRat (isFinite_of_isFinite_mul finite).1
    refine ⟨hasValue_toRat finite, ?_⟩
    rw [((value.rounds_mul value).hasValue_of_isFinite finite).2]
    exact single.nearest_nonneg (mul_self_nonneg _)
  induction rest using List.reverseRecOn with
  | nil =>
    intro c mem
    obtain rfl := List.mem_singleton.mp mem
    obtain ⟨value, nonneg⟩ := square finite
    exact ⟨_, value, nonneg, le_rfl⟩
  | append_singleton rest last ih =>
    have step : roundedSquares first (rest ++ [last]) =
        roundedSquares first rest + last * last := by
      simp [roundedSquares]
    rw [step] at finite ⊢
    obtain ⟨sumFinite, squareFinite⟩ := isFinite_of_isFinite_add finite
    have before := ih sumFinite
    obtain ⟨s, -, nonneg, le⟩ := before first List.mem_cons_self
    obtain ⟨lastValue, lastNonneg⟩ := square squareFinite
    obtain ⟨sumLe, lastLe⟩ := (hasValue_toRat sumFinite).le_toRat_add lastValue finite
      (nonneg.trans le) lastNonneg
    intro c mem
    rw [← List.cons_append, List.mem_append, List.mem_singleton] at mem
    rcases mem with inside | rfl
    · obtain ⟨t, value, nonneg, le⟩ := before c inside
      exact ⟨t, value, nonneg, le.trans sumLe⟩
    · exact ⟨_, lastValue, lastNonneg, lastLe⟩

/-- A product is rounded to no more than the greater of the squares of its factors. -/
theorem exists_hasValue_mul_le {x y : Binary F} {s t bound : ℚ} (left : (x * x).HasValue s)
    (right : (y * y).HasValue t) (leftLe : s ≤ bound) (rightLe : t ≤ bound) :
    ∃ p, (x * y).HasValue p ∧ |p| ≤ bound := by
  have hasX := hasValue_toRat (isFinite_of_isFinite_mul left.1).1
  have hasY := hasValue_toRat (isFinite_of_isFinite_mul right.1).1
  have leftEq := ((hasX.rounds_mul hasX).hasValue_of_isFinite left.1).2.symm.trans left.2
  have rightEq := ((hasY.rounds_mul hasY).hasValue_of_isFinite right.1).2.symm.trans right.2
  generalize x.toRat = a at *
  generalize y.toRat = b at *
  have size : |F.nearest (a * b)| ≤ max s t := by
    rw [← F.nearest_abs, abs_mul, ← leftEq, ← rightEq, ← abs_mul_abs_self a, ← abs_mul_abs_self b]
    rcases le_total |a| |b| with less | less
    · exact le_max_of_le_right (nearest_mono (mul_le_mul_of_nonneg_right less (abs_nonneg b)))
    · exact le_max_of_le_left (nearest_mono (mul_le_mul_of_nonneg_left less (abs_nonneg a)))
  refine ⟨_, (hasX.rounds_mul hasY).hasValue_nearest (size.trans (max_le ?_ ?_)),
    size.trans (max_le leftLe rightLe)⟩
  · exact (le_abs_self s).trans left.abs_le_largest
  · exact (le_abs_self t).trans right.abs_le_largest

/-! ## Roots -/

/-- The rounded root of a normal number has a relative error. -/
theorem HasValue.sqrt_near (value : x.HasValue q) (normal : 1 / 2 ^ 126 ≤ q) :
    ∃ root : ℚ, x.sqrt.HasValue root ∧
      |(root : ℝ) - Real.sqrt q| ≤ Real.sqrt q * (1 / 2 ^ 24 + 1 / 2 ^ 80) := by
  have nonneg : 0 ≤ q := le_trans (by positivity) normal
  obtain ⟨exact, rounds, exactNonneg, near, exactLe⟩ := value.rounds_sqrt nonneg
  have limit := (le_abs_self q).trans value.abs_le_largest
  have grid : single.Grid (2 ^ 64) :=
    (show IsMultiple 64 (2 ^ 64) from ⟨1, by norm_num⟩).grid (by decide) (by norm_num [single])
  have bounded : exact ≤ 2 ^ 64 := by
    refine exactLe grid (by positivity) (limit.trans ?_)
    rw [single_largest]
    norm_num
  have largest : |exact| ≤ single.largest := by
    rw [abs_of_nonneg exactNonneg, single_largest]
    exact bounded.trans (by norm_num)
  have rounding := (Rat.cast_le (K := ℝ)).mpr (abs_single_nearest_sub_le_mixed exact)
  rw [abs_of_nonneg exactNonneg] at rounding
  push_cast at rounding
  have least : 1 / 2 ^ 63 ≤ Real.sqrt q := by
    apply Real.le_sqrt_of_sq_le
    have normal' := (Rat.cast_le (K := ℝ)).mpr normal
    push_cast at normal'
    norm_num at normal' ⊢
    exact normal'
  have unit : (1 : ℝ) / 2 / single.scale = 1 / 2 ^ 150 := by
    norm_num [scale, single]
  rw [unit] at near
  refine ⟨_, rounds.hasValue largest, ?_⟩
  have upper := (abs_le.mp near).2
  refine (abs_sub_le _ (exact : ℝ) _).trans ((add_le_add rounding near).trans ?_)
  linarith

/-- The square of the rounded root of a normal number is near the number. -/
theorem HasValue.sqrt_sq_near (value : x.HasValue q) (normal : 1 / 2 ^ 126 ≤ q) :
    ∃ root : ℚ, x.sqrt.HasValue root ∧ 0 < root ∧
      |root ^ 2 - q| ≤ q * (1 / 2 ^ 23 + 1 / 2 ^ 40) := by
  obtain ⟨root, hasRoot, near⟩ := value.sqrt_near normal
  have positive : (0 : ℝ) < q := by
    exact_mod_cast lt_of_lt_of_le (show (0 : ℚ) < 1 / 2 ^ 126 by positivity) normal
  have rootPositive := Real.sqrt_pos.mpr positive
  have square := Real.sq_sqrt positive.le
  generalize Real.sqrt q = exact at *
  obtain ⟨lower, upper⟩ := abs_le.mp near
  have sum : |(root : ℝ) + exact| ≤ exact * (2 + (1 / 2 ^ 24 + 1 / 2 ^ 80)) :=
    abs_le.mpr ⟨by linarith, by linarith⟩
  refine ⟨root, hasRoot, ?_, ?_⟩
  · have real : (0 : ℝ) < root := by linarith
    exact_mod_cast real
  · have real : |(root : ℝ) ^ 2 - q| ≤ q * (1 / 2 ^ 23 + 1 / 2 ^ 40) := by
      rw [← square, sq_sub_sq, mul_comm, abs_mul]
      refine (mul_le_mul near sum (abs_nonneg _) (by positivity)).trans ?_
      rw [sq]
      nlinarith [mul_pos rootPositive rootPositive]
    refine (Rat.cast_le (K := ℝ)).mp ?_
    push_cast
    exact real

end Binary

end FlightMath
