import FlightMath.Proofs.Rounding.Products

/-! # Counts

A count is rounded to 64 bits and from there to 32. Each rounding keeps to small bounds from below,
and both together move the count by at most `2 ^ (-23)` of itself.
-/

namespace FlightMath.Binary

open FloatFormat

variable {F : FloatFormat} {q : ℚ} {count low : ℕ}

/-- Rounding keeps a number between a small count and `2 ^ 100`. -/
private theorem nearest_mem_Icc (precise : 24 ≤ F.precision) (small : low ≤ 2 ^ 24)
    (range : q ∈ Set.Icc (low : ℚ) (2 ^ (100 : ℤ))) :
    F.nearest q ∈ Set.Icc (low : ℚ) (2 ^ (100 : ℤ)) := by
  have coarse : -(F.unitExponent : ℤ) ≤ 0 := by omega
  have bits : (2 : ℚ) ^ 24 ≤ 2 ^ F.precision := pow_le_pow_right₀ one_le_two precise
  constructor
  · refine le_nearest (IsMultiple.grid ⟨low, by norm_num⟩ coarse ?_) range.1
    rw [add_zero, zpow_natCast, Nat.abs_cast]
    exact le_trans (by exact_mod_cast small) bits
  · have multiple : IsMultiple 100 (2 ^ (100 : ℤ)) := ⟨1, by rw [Int.cast_one, one_mul]⟩
    refine nearest_le (multiple.grid (by omega) ?_) range.2
    rw [abs_of_pos (by positivity)]
    exact zpow_le_zpow_right₀ one_le_two (by omega)

/-- Both roundings keep a count between a smaller one and `2 ^ 100`. -/
theorem nearest_nearest_mem_Icc (le : low ≤ count) (small : low ≤ 2 ^ 24)
    (bounded : count ≤ 2 ^ 100) :
    double.nearest count ∈ Set.Icc (low : ℚ) (2 ^ (100 : ℤ)) ∧
      single.nearest (double.nearest count) ∈ Set.Icc (low : ℚ) (2 ^ (100 : ℤ)) := by
  have range : (count : ℚ) ∈ Set.Icc (low : ℚ) (2 ^ (100 : ℤ)) :=
    ⟨by exact_mod_cast le, by exact_mod_cast bounded⟩
  have wide := nearest_mem_Icc (F := double) (by decide) small range
  exact ⟨wide, nearest_mem_Icc (F := single) (by decide) small wide⟩

theorem hasValue_ofCount (bounded : count ≤ 2 ^ 100) :
    (Single.ofCount count).HasValue (single.nearest (double.nearest count)) := by
  have magnitude {q : ℚ} (range : q ∈ Set.Icc ((0 : ℕ) : ℚ) (2 ^ (100 : ℤ))) :
      |q| ≤ 2 ^ (100 : ℤ) := by
    rw [abs_of_nonneg ((Nat.cast_nonneg 0).trans range.1)]
    exact range.2
  have wideLargest : (2 : ℚ) ^ (100 : ℤ) ≤ double.largest := by
    have units : 2 ^ 100 * double.scale ≤
        (2 ^ double.precision - 1) * 2 ^ (double.limitExponent - double.precision) := by
      decide +kernel
    rw [largest, le_div_iff₀ (scale_pos double)]
    exact_mod_cast units
  have range : ((count : ℤ) : ℚ) ∈ Set.Icc ((0 : ℕ) : ℚ) (2 ^ (100 : ℤ)) :=
    ⟨by positivity, by exact_mod_cast bounded⟩
  have wide := (rounds_ofInt (F := double) count).hasValue ((magnitude range).trans wideLargest)
  rw [Int.cast_natCast] at wide
  have wideRange := (nearest_nearest_mem_Icc (Nat.zero_le count) (Nat.zero_le _) bounded).1
  exact (wide.rounds_convert (G := single)).hasValue
    (single_le_largest (by norm_num) (magnitude wideRange))

/-- A count keeps to small bounds from below, though it is rounded twice. -/
theorem exists_hasValue_ofCount (le : low ≤ count) (small : low ≤ 2 ^ 24)
    (bounded : count ≤ 2 ^ 100) : ∃ v, (Single.ofCount count).HasValue v ∧ (low : ℚ) ≤ v :=
  ⟨_, hasValue_ofCount bounded, (nearest_nearest_mem_Icc le small bounded).2.1⟩

/-- Rounding a count twice moves it by little more than the coarser rounding alone. -/
theorem abs_nearest_nearest_sub_le (positive : 1 ≤ count) :
    |single.nearest (double.nearest count) - count| ≤ count / 2 ^ 23 := by
  have one : (1 : ℚ) ≤ count := by exact_mod_cast positive
  have wide := abs_nearest_sub_le_mixed (F := double) count
  have unit : (2 : ℚ) ^ (-(double.unitExponent : ℤ)) ≤ 1 / 2 ^ 52 :=
    (zpow_le_zpow_right₀ one_le_two (show _ ≤ -52 by decide)).trans_eq (by norm_num)
  have narrow := abs_single_nearest_sub_le_mixed (double.nearest count)
  have nonneg : 0 ≤ double.nearest (count : ℚ) := double.nearest_nonneg (by linarith)
  rw [abs_of_nonneg (zero_le_one.trans one), show double.precision = 53 from rfl] at wide
  rw [abs_of_nonneg nonneg] at narrow
  have upper := (abs_le.mp wide).2
  refine (abs_sub_le _ (double.nearest count) _).trans ((add_le_add narrow wide).trans ?_)
  linarith

end FlightMath.Binary
