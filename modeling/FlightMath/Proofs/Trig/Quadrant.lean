import FlightMath.Proofs.Rounding.Order
import FlightMath.Proofs.Trig.ArcTangent

/-! # The quadrant of a point

The ratio of the magnitudes is a number between zero and one unless the ordinate is NaN, or infinite
with an abscissa that is not finite; a NaN abscissa alone is lost in the comparisons. The arc
tangent of a ratio is positive, if only by the first coefficient, and more than half of the spacing
at a half turn. So it survives each reflection: the angle stays on its side of the quarter turn and
short of the half turn.
-/

namespace FlightMath

open FloatFormat Angle

/-! ## The ends of the line and the choice between two values -/

namespace Binary

variable {F : FloatFormat} {x y : Binary F} {a b q : ℚ}

theorem HasValue.lt_infinite (value : x.HasValue q) : x < infinite false := by
  obtain ⟨negative, units, fits, rfl, _⟩ := hasValue_iff.mp value
  refine (Binary.lt_iff _ _).mpr ⟨_, _, rfl, rfl, lt_of_le_of_lt Int.le_natAbs ?_⟩
  rw [natAbs_signed, signed, if_neg Bool.false_ne_true]
  exact_mod_cast fits.1

theorem HasValue.div_infinite (value : x.HasValue q) (negative : Bool) :
    (x / infinite negative).HasValue 0 := by
  obtain ⟨sign, units, fits, rfl, _⟩ := hasValue_iff.mp value
  exact hasValue_iff.mpr ⟨sign ^^ negative, 0, F.fits_zero, rfl, by simp⟩

theorem HasValue.greater (left : x.HasValue a) (right : y.HasValue b) :
    (if y < x then x else y).HasValue (max a b) := by
  split
  · next less =>
    rwa [max_eq_left ((right.lt_iff left).mp less).le]
  · next notLess =>
    rwa [max_eq_right (not_lt.mp (mt (right.lt_iff left).mpr notLess))]

theorem HasValue.lesser (left : x.HasValue a) (right : y.HasValue b) :
    (if x < y then x else y).HasValue (min a b) := by
  split
  · next less =>
    rwa [min_eq_left ((left.lt_iff right).mp less).le]
  · next notLess =>
    rwa [min_eq_right (not_lt.mp (mt (left.lt_iff right).mpr notLess))]

end Binary

/-! ## The ratio of the magnitudes -/

/-- The arguments without a direction. -/
def Undirected (y x : Single) : Prop :=
  y = .nan ∨ (∃ negative, y = .infinite negative) ∧ (x = .nan ∨ ∃ negative, x = .infinite negative)

variable {x y : Single} {a b t : ℚ}

private theorem magnitudeRatio_of_undirected (undirected : Undirected y x) :
    magnitudeRatio x.abs y.abs = .nan := by
  rcases undirected with rfl | ⟨⟨negative, rfl⟩, rfl | ⟨negative, rfl⟩⟩
  · show magnitudeRatio x.abs .nan = .nan
    simp [magnitudeRatio, Binary.not_nan_lt, Binary.not_lt_nan, Binary.ValueEq]
  · show magnitudeRatio .nan (.infinite false) = .nan
    decide +kernel
  · show magnitudeRatio (.infinite false) (.infinite false) = .nan
    decide +kernel

/-- The exact ratio of magnitudes is between zero and one. -/
theorem min_div_max_mem (nonneg : 0 ≤ a) (nonneg' : 0 ≤ b) :
    min a b / max a b ∈ Set.Icc 0 1 :=
  ⟨div_nonneg (le_min nonneg nonneg') (nonneg.trans (le_max_left a b)),
    div_le_one_of_le₀ min_le_max (nonneg.trans (le_max_left a b))⟩

/-- The ratio of finite magnitudes is the rounded exact one, which is zero at the origin. -/
theorem hasValue_magnitudeRatio (width : x.HasValue a) (height : y.HasValue b) (nonneg : 0 ≤ a)
    (nonneg' : 0 ≤ b) :
    (magnitudeRatio x y).HasValue (single.nearest (min a b / max a b)) := by
  have larger := width.greater height
  have smaller := width.lesser height
  have unit := min_div_max_mem nonneg nonneg'
  unfold magnitudeRatio
  dsimp only
  generalize (if y < x then x else y) = divisor at larger ⊢
  generalize (if x < y then x else y) = dividend at smaller ⊢
  simp only [larger.valueEq_iff Binary.hasValue_zero]
  split
  · next zero =>
    rw [zero, div_zero, nearest_zero]
    exact Binary.hasValue_zero
  · next nonzero =>
    have small : |min a b / max a b| ≤ 1 := (abs_of_nonneg unit.1).trans_le unit.2
    exact (smaller.rounds_div larger nonzero).hasValue
      (Binary.single_le_largest (by norm_num) small)

theorem nearest_mem_unit (unit : t ∈ Set.Icc 0 1) : single.nearest t ∈ Set.Icc 0 1 :=
  ⟨single.nearest_nonneg unit.1, nearest_le grid_one unit.2⟩

/-- A finite magnitude over an infinite one is zero. -/
theorem magnitudeRatio_infinite (value : x.HasValue a) :
    (magnitudeRatio x (.infinite false)).HasValue 0 ∧
      (magnitudeRatio (.infinite false) x).HasValue 0 := by
  unfold magnitudeRatio
  simp only [if_neg (Binary.not_infinite_lt x), if_pos value.lt_infinite,
    if_neg (Binary.not_infinite_valueEq_of_isFinite false Binary.hasValue_zero.1)]
  exact ⟨value.div_infinite false, value.div_infinite false⟩

/-- A NaN abscissa loses both comparisons, and the ordinate is divided by itself. -/
theorem magnitudeRatio_nan (value : y.HasValue b) :
    (magnitudeRatio .nan y).HasValue 0 ∨ (magnitudeRatio .nan y).HasValue 1 := by
  unfold magnitudeRatio
  rw [if_neg (Binary.not_lt_nan y), if_neg (Binary.not_nan_lt y)]
  simp only [value.valueEq_iff Binary.hasValue_zero]
  split
  · exact .inl Binary.hasValue_zero
  · next nonzero =>
    have quotient := value.rounds_div value nonzero
    rw [div_self nonzero] at quotient
    have one := quotient.hasValue (Binary.single_le_largest (by norm_num) abs_one.le)
    rw [nearest_of_grid grid_one] at one
    exact .inr one

theorem exists_ratio (directed : ¬Undirected y x) :
    ∃ t ∈ Set.Icc 0 1, (magnitudeRatio x.abs y.abs).HasValue t := by
  have zero : (0 : ℚ) ∈ Set.Icc 0 1 := ⟨le_rfl, zero_le_one⟩
  have one : (1 : ℚ) ∈ Set.Icc 0 1 := ⟨zero_le_one, le_rfl⟩
  cases y with
  | nan => exact absurd (.inl rfl) directed
  | infinite negative =>
    cases x with
    | nan => exact absurd (.inr ⟨⟨_, rfl⟩, .inl rfl⟩) directed
    | infinite negative => exact absurd (.inr ⟨⟨_, rfl⟩, .inr ⟨_, rfl⟩⟩) directed
    | finite sign units fits =>
      exact ⟨0, zero, (magnitudeRatio_infinite (Binary.hasValue_finite sign units fits).abs).1⟩
  | finite sign units fits =>
    have height := (Binary.hasValue_finite sign units fits).abs
    cases x with
    | nan =>
      rcases magnitudeRatio_nan height with ratio | ratio
      · exact ⟨0, zero, ratio⟩
      · exact ⟨1, one, ratio⟩
    | infinite negative => exact ⟨0, zero, (magnitudeRatio_infinite height).2⟩
    | finite sign' units' fits' =>
      have width := (Binary.hasValue_finite sign' units' fits').abs
      exact ⟨_, nearest_mem_unit (min_div_max_mem (abs_nonneg _) (abs_nonneg _)),
        hasValue_magnitudeRatio width height (abs_nonneg _) (abs_nonneg _)⟩

/-! ## The reflections -/

/-- The angle in the first octant. -/
def octantAngle (y x : Single) : Single :=
  arcTangentCoefficients.eval (magnitudeRatio x.abs y.abs)

/-- The angle in the first quadrant. -/
def quadrantAngle (y x : Single) : Single :=
  if x.abs < y.abs then halfPi - octantAngle y x else octantAngle y x

/-- The angle in the upper half plane. -/
def upperAngle (y x : Single) : Single :=
  if x < 0 then pi - quadrantAngle y x else quadrantAngle y x

theorem arcTangent2_eq (y x : Single) :
    arcTangent2 y x = if y < 0 then -upperAngle y x else upperAngle y x := rfl

/-- The true angle in the first quadrant, from that in the first octant. -/
noncomputable def quadrantOf (steep : Prop) [Decidable steep] (angle : ℝ) : ℝ :=
  if steep then Real.pi / 2 - angle else angle

/-- The true angle in the upper half plane, from that in the first quadrant. -/
noncomputable def upperOf (leftward : Prop) [Decidable leftward] (angle : ℝ) : ℝ :=
  if leftward then Real.pi - angle else angle

/-- The value lies between bounds and near a true angle, apart from a share of the error of a half
turn. -/
structure Heading (x : Single) (low high : ℚ) (angle : ℝ) (share error : ℚ) : Prop where
  within : x.Within low high
  near : |(x.toRat : ℝ) - (angle + share * (piValue - Real.pi))| ≤ error

theorem Heading.abs_sub_le {low high share error : ℚ} {angle : ℝ}
    (heading : Heading x low high angle share error) (nonneg : 0 ≤ share) :
    |(x.toRat : ℝ) - angle| ≤ error + share * (875 / 10 ^ 10) := by
  obtain ⟨above, below⟩ := piValue_sub_pi_bounds
  have nonneg' : (0 : ℝ) ≤ share := by exact_mod_cast nonneg
  have split : (x.toRat : ℝ) - angle =
      (x.toRat - (angle + share * (piValue - Real.pi))) + share * (piValue - Real.pi) := by ring
  rw [split]
  refine (abs_add_le _ _).trans (add_le_add heading.near ?_)
  rw [abs_of_nonneg (mul_nonneg nonneg' above)]
  exact mul_le_mul_of_nonneg_left below nonneg'

/-- Reflection about half of so many half turns. The shares of both angles add up to that number,
and an angle that is greater than one rounding is not lost. -/
theorem Heading.reflect {low high low' high' share error c : ℚ} {angle : ℝ} {top : ℤ}
    (heading : Heading x low high angle share error) (turn : y.HasValue (c * piValue))
    (room : Room low' high' top) (lower : low' ≤ c * piValue - high)
    (upper : c * piValue - low ≤ high') :
    Heading (y - x) low' high' (c * Real.pi - angle) (c - share) (error + 2 ^ (top - 25)) ∧
      (y - x).toRat ≤ c * piValue - low + 2 ^ (top - 25) := by
  obtain ⟨a, value, aboveLow, belowHigh⟩ := heading.within.exists_hasValue
  have near := heading.near
  rw [value.2] at near
  have difference := room.tracks (turn.rounds_sub value) (by linarith) (by linarith)
  have rounding := abs_cast_sub_le difference.near
  have split : (((y - x).toRat : ℚ) : ℝ) -
      (c * Real.pi - angle + ((c - share : ℚ) : ℝ) * (piValue - Real.pi)) =
      ((y - x).toRat - (c * piValue - a : ℚ)) - (a - (angle + share * (piValue - Real.pi))) := by
    push_cast
    ring
  refine ⟨⟨difference.within, ?_⟩, by linarith [(abs_le.mp difference.near).2]⟩
  rw [split, Rat.cast_add, add_comm (error : ℝ)]
  exact (abs_sub _ _).trans (add_le_add rounding near)

/-- The greatest value short of a quarter turn. -/
def belowQuarter : ℚ := piValue / 2 - 1 / 2 ^ 23

/-- The least value past a quarter turn. -/
def aboveQuarter : ℚ := piValue / 2 + 1 / 2 ^ 23

private theorem room_firstQuadrant : Room leastArcTangent belowQuarter 1 := by
  have multiple : IsMultiple (-23) belowQuarter :=
    ⟨13176794, by norm_num [belowQuarter, piValue]⟩
  have grid := multiple.grid (F := single) (by decide)
    (by norm_num [belowQuarter, piValue, single, abs_le])
  refine ⟨⟨room_firstOctant.grid_low, grid, ?_, ?_⟩, by norm_num, ?_, ?_⟩ <;>
    norm_num [leastArcTangent, belowQuarter, piValue, single_largest]

private theorem room_secondQuadrant : Room aboveQuarter piValue 2 :=
  .of_check (by decide +kernel)

/-- The first quadrant ends short of the quarter turn. -/
theorem quadrantAngle_heading (ratio : (magnitudeRatio x.abs y.abs).HasValue t)
    (unit : t ∈ Set.Icc 0 1) : ∃ share : ℚ, 0 ≤ share ∧ share ≤ 1 / 2 ∧
      Heading (quadrantAngle y x) leastArcTangent belowQuarter
        (quadrantOf (x.abs < y.abs) (Real.arctan t)) share (746 / 10 ^ 9 + share / 2 ^ 23) := by
  obtain ⟨octant, value, lower, upper, near⟩ := abs_eval_sub_arctan_le ratio unit
  have heading : Heading (octantAngle y x) leastArcTangent (13 / 16) (Real.arctan t) 0
      (746 / 10 ^ 9) := by
    refine ⟨value.within lower upper, ?_⟩
    rw [octantAngle, value.2, Rat.cast_zero, zero_mul, add_zero]
    exact near.trans_eq (by norm_num)
  unfold quadrantAngle quadrantOf
  split
  · have turn : halfPi.HasValue (1 / 2 * piValue) := by
      rw [one_div_mul_eq_div]
      exact hasValue_halfPi
    have reflected := (heading.reflect turn room_firstQuadrant
      (by norm_num [leastArcTangent, piValue])
      (by norm_num [leastArcTangent, belowQuarter, piValue])).1
    refine ⟨1 / 2, by norm_num, le_rfl, reflected.within, ?_⟩
    refine (Eq.trans_le ?_ reflected.near).trans_eq ?_
    · push_cast
      congr 1
      ring
    · norm_num
  · refine ⟨0, le_rfl, by norm_num, ⟨heading.within.1, heading.within.2.1, ?_⟩, ?_⟩
    · exact heading.within.2.2.trans (by norm_num [belowQuarter, piValue])
    · exact heading.near.trans_eq (by norm_num)

/-- The upper half plane ends short of the half turn, and its left half starts past the quarter
turn. The half of the share that a steep point keeps makes up for its second rounding. -/
theorem upperAngle_spec (ratio : (magnitudeRatio x.abs y.abs).HasValue t)
    (unit : t ∈ Set.Icc 0 1) : ∃ angle : ℚ, (upperAngle y x).HasValue angle ∧ 0 < angle ∧
      angle < piValue ∧ (piValue / 2 < angle ↔ x < 0) ∧
      |(angle : ℝ) - upperOf (x < 0) (quadrantOf (x.abs < y.abs) (Real.arctan t))| ≤
        969 / 10 ^ 9 := by
  obtain ⟨share, shareNonneg, shareLe, heading⟩ := quadrantAngle_heading ratio unit
  have shareLe' : (share : ℝ) ≤ ((1 / 2 : ℚ) : ℝ) := Rat.cast_le.mpr shareLe
  have shareNonneg' : (0 : ℝ) ≤ share := by exact_mod_cast shareNonneg
  push_cast at shareLe'
  unfold upperAngle upperOf
  split
  · next leftward =>
    have turn : pi.HasValue (1 * piValue) := by
      rw [one_mul]
      exact hasValue_pi
    obtain ⟨reflected, less⟩ := heading.reflect turn room_secondQuadrant
      (by norm_num [aboveQuarter, belowQuarter, piValue]) (by norm_num [leastArcTangent, piValue])
    obtain ⟨angle, value, lower, upper⟩ := reflected.within.exists_hasValue
    have near := reflected.abs_sub_le (by linarith)
    rw [value.2] at less near
    refine ⟨angle, value, ?_, ?_, iff_of_true ?_ leftward, ?_⟩
    · exact lt_of_lt_of_le (by norm_num [aboveQuarter, piValue]) lower
    · exact lt_of_le_of_lt less (by norm_num [leastArcTangent, piValue])
    · exact lt_of_lt_of_le (by norm_num [aboveQuarter]) lower
    · push_cast at near
      norm_num at near ⊢
      linarith
  · next rightward =>
    obtain ⟨angle, value, lower, upper⟩ := heading.within.exists_hasValue
    have near := heading.abs_sub_le shareNonneg
    rw [value.2] at near
    refine ⟨angle, value, ?_, ?_, iff_of_false (not_lt.mpr ?_) rightward, ?_⟩
    · exact lt_of_lt_of_le (by norm_num [leastArcTangent]) lower
    · exact lt_of_le_of_lt upper (by norm_num [belowQuarter, piValue])
    · exact upper.trans (by norm_num [belowQuarter])
    · push_cast at near
      norm_num at near ⊢
      linarith

/-! ## The angle of a point -/

/-- NaN passes through the fraction and the reflections. -/
theorem arcTangent2_of_undirected (undirected : Undirected y x) : arcTangent2 y x = .nan := by
  have octant : octantAngle y x = .nan := by
    rw [octantAngle, magnitudeRatio_of_undirected undirected]
    decide +kernel
  have quadrant : quadrantAngle y x = .nan := by
    rw [quadrantAngle, octant]
    split
    · exact Binary.add_nan halfPi
    · rfl
  have upper : upperAngle y x = .nan := by
    rw [upperAngle, quadrant]
    split
    · exact Binary.add_nan pi
    · rfl
  rw [arcTangent2_eq, upper]
  split <;> rfl

/-- What the angle of a point tells about its quadrant. -/
structure InQuadrant (y x angle : Single) : Prop where
  finite : angle.isFinite = true
  positive : ¬y < 0 → 0 < angle
  negative : y < 0 → angle < 0
  below_pi : angle.abs < pi
  past_halfPi : halfPi < angle.abs ↔ x < 0

private theorem inQuadrant_of_hasValue {upper : Single} (value : upper.HasValue a)
    (positive : 0 < a) (below : a < piValue) (past : piValue / 2 < a ↔ x < 0) :
    InQuadrant y x (if y < 0 then -upper else upper) := by
  have magnitude : (if y < 0 then -upper else upper).abs.HasValue a := by
    split
    · have opposite := value.neg.abs
      rwa [abs_neg, abs_of_pos positive] at opposite
    · have same := value.abs
      rwa [abs_of_pos positive] at same
  refine ⟨?_, ?_, ?_, (magnitude.lt_iff hasValue_pi).mpr below,
    (hasValue_halfPi.lt_iff magnitude).trans past⟩
  · split
    · exact value.neg.1
    · exact value.1
  · intro above
    rw [if_neg above]
    exact (Binary.hasValue_zero.lt_iff value).mpr positive
  · intro beneath
    rw [if_pos beneath]
    exact (value.neg.lt_iff Binary.hasValue_zero).mpr (neg_lt_zero.mpr positive)

/-- The angle is NaN for arguments without a direction. For all others, a NaN abscissa among them,
it is finite, not zero, on the side of the ordinate's sign, short of the half turn, and past the
quarter turn exactly where the abscissa is negative. -/
theorem arcTangent2_inQuadrant (y x : Single) :
    (arcTangent2 y x = .nan ↔ Undirected y x) ∧
      (Undirected y x ∨ InQuadrant y x (arcTangent2 y x)) := by
  by_cases directed : Undirected y x
  · exact ⟨iff_of_true (arcTangent2_of_undirected directed) directed, .inl directed⟩
  · obtain ⟨t, unit, ratio⟩ := exists_ratio directed
    obtain ⟨angle, value, positive, below, past, -⟩ := upperAngle_spec ratio unit
    have inQuadrant := inQuadrant_of_hasValue (y := y) value positive below past
    rw [← arcTangent2_eq] at inQuadrant
    refine ⟨iff_of_false ?_ directed, .inr inQuadrant⟩
    intro lost
    have finite := inQuadrant.finite
    rw [lost] at finite
    cases finite

/-- A NaN abscissa is taken for one on the diagonal. -/
example : arcTangent2 1 .nan = arcTangent2 1 1 := by decide +kernel

end FlightMath
