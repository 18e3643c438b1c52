import FlightMath.Proofs.Trig.Accuracy

/-! # Which angles are accepted

The sine accepts the finite angles below thirty-three radians either way. The cosine asks the same
of the rounded angle a quarter turn on, so it rejects the uppermost quarter turn that the sine
accepts. Where both accept, the squares of sine and cosine add up to nearly one.
-/

namespace FlightMath

open FloatFormat Angle

variable {x : Single} {q : ℚ}

/-! ## Acceptance -/

/-- A finite angle is accepted below thirty-three radians and out of range from there on. -/
theorem sineRejection?_of_hasValue (value : x.HasValue q) :
    sineRejection? x = if |q| < 33 then none else some .outOfRange := by
  obtain ⟨whole, truncated, magnitude⟩ := value.truncate
  have floor : |q| < 33 ↔ whole.natAbs < 33 := by
    rw [magnitude, Nat.floor_lt (abs_nonneg q)]
    norm_num
  have limit : sineLimit = 32 := rfl
  simp only [sineRejection?, wholeRadians, truncated, floor]
  by_cases outside : whole < -sineLimit ∨ sineLimit < whole
  · rw [if_pos outside, if_neg (by omega)]
  · rw [if_neg outside, if_pos (by omega)]

/-- The accepted angles are the finite ones below thirty-three radians. -/
theorem sineRejection?_eq_none_iff_hasValue :
    sineRejection? x = none ↔ ∃ angle, x.HasValue angle ∧ |angle| < 33 := by
  constructor
  · intro accepted
    obtain ⟨whole, accepted⟩ := (sineRejection?_eq_none_iff x).mp accepted
    obtain ⟨angle, value, below, -⟩ := hasValue_of_wholeRadians accepted
    exact ⟨angle, value, below⟩
  · rintro ⟨angle, value, below⟩
    rw [sineRejection?_of_hasValue value, if_pos below]

/-! ## A quarter turn on -/

/-- Half a unit below thirty-three is a tie that goes to thirty-three. -/
private theorem nearest_tie_below_thirtyThree : single.nearest (33 - 1 / 2 ^ 19) = 33 := by
  have tie := nearest_of_binade (F := single)
    (show 2 ^ (single.precision - 1) * 2 ≤ 33 * 2 ^ 19 - 1 by norm_num [single])
    (by norm_num [single]) (show -(single.unitExponent : ℤ) ≤ -18 by decide)
  have even : roundHalfEven (33 * 2 ^ 19 - 1) 2 = 33 * 2 ^ 18 := by decide
  rw [even] at tie
  norm_num at tie ⊢
  exact tie

private theorem grid_below_thirtyThree : single.Grid (33 - 1 / 2 ^ 18) := by
  have multiple : IsMultiple (-18) (33 - 1 / 2 ^ 18) := ⟨33 * 2 ^ 18 - 1, by norm_num⟩
  refine multiple.grid (by decide) ?_
  norm_num [single, abs_le]

/-- A number is rounded to less than thirty-three exactly if it is more than half a unit below, and
so nearer to the next value down. -/
theorem nearest_lt_thirtyThree_iff : single.nearest q < 33 ↔ q < 33 - 1 / 2 ^ 19 := by
  constructor
  · intro below
    by_contra above
    have mono := nearest_mono (F := single) (not_lt.mp above)
    rw [nearest_tie_below_thirtyThree] at mono
    exact absurd below (not_lt.mpr mono)
  · intro below
    by_contra above
    rcases le_or_gt q (33 - 1 / 2 ^ 18) with far | near
    · have bound := nearest_le grid_below_thirtyThree far
      norm_num at bound above
      linarith
    · have bound := abs_nearest_sub_le (q := q) grid_below_thirtyThree
      rw [abs_of_nonneg (by linarith), abs_of_nonpos (by linarith)] at bound
      linarith

/-- The angle a quarter turn on from an accepted one is accepted unless it reaches thirty-three. -/
theorem sineRejection?_quarterTurnOn (value : x.HasValue q) (below : |q| < 33) :
    sineRejection? (quarterTurnOn x) =
      if q + piValue / 2 < 33 - 1 / 2 ^ 19 then none else some .outOfRange := by
  obtain ⟨lower, upper⟩ := abs_lt.mp below
  have bounded : |q + piValue / 2| ≤ single.largest := by
    rw [single_largest, abs_le]
    norm_num [piValue]
    constructor <;> linarith
  have onward := value.add hasValue_halfPi bounded
  have least : -32 ≤ single.nearest (q + piValue / 2) := by
    have multiple : IsMultiple 0 (-32) := ⟨-32, by norm_num⟩
    refine le_nearest (multiple.grid (by decide) (by norm_num [single])) ?_
    norm_num [piValue]
    linarith
  rw [quarterTurnOn, sineRejection?_of_hasValue onward]
  refine if_congr ?_ rfl rfl
  rw [← nearest_lt_thirtyThree_iff, abs_lt]
  exact ⟨And.right, fun less => ⟨by linarith, less⟩⟩

private theorem sine_of_sineRejection? (mode : ApproxMode) {reason : SineRejection}
    (rejected : sineRejection? x = some reason) : sine mode x = 0 := by
  unfold sineRejection? at rejected
  split at rejected
  · next other found => exact sine_of_rejected mode found
  · cases rejected

/-! ## Squares of sine and cosine -/

/-- Two numbers near a true cosine and sine have squares that add up to nearly one. The part of
first order is an inner product with a unit vector. -/
private theorem abs_sq_add_sq_sub_one_le {c s : ℚ} {angle cosineError sineError : ℝ} (bound : ℝ)
    (cosineNear : |c - Real.cos angle| ≤ cosineError) (sineNear : |s - Real.sin angle| ≤ sineError)
    (positive : 0 ≤ bound) (squares : sineError ^ 2 + cosineError ^ 2 ≤ bound ^ 2) :
    |((c ^ 2 + s ^ 2 - 1 : ℚ) : ℝ)| ≤ 2 * bound + bound ^ 2 := by
  have unit := Real.sin_sq_add_cos_sq angle
  have sineSquare := sq_le_sq' (abs_le.mp sineNear).1 (abs_le.mp sineNear).2
  have cosineSquare := sq_le_sq' (abs_le.mp cosineNear).1 (abs_le.mp cosineNear).2
  obtain ⟨e, sineEq⟩ : ∃ e, (s : ℝ) - Real.sin angle = e := ⟨_, rfl⟩
  obtain ⟨f, cosineEq⟩ : ∃ f, (c : ℝ) - Real.cos angle = f := ⟨_, rfl⟩
  rw [sineEq] at sineSquare
  rw [cosineEq] at cosineSquare
  have inner : (e * Real.sin angle + f * Real.cos angle) ^ 2 ≤ bound ^ 2 := by
    have lagrange : (e * Real.sin angle + f * Real.cos angle) ^ 2 =
        (e ^ 2 + f ^ 2) * (Real.sin angle ^ 2 + Real.cos angle ^ 2) -
          (e * Real.cos angle - f * Real.sin angle) ^ 2 := by ring
    rw [lagrange, unit]
    linarith [sq_nonneg (e * Real.cos angle - f * Real.sin angle)]
  have firstOrder := abs_le_of_sq_le_sq inner positive
  have split : ((c ^ 2 + s ^ 2 - 1 : ℚ) : ℝ) =
      2 * (e * Real.sin angle + f * Real.cos angle) + (e ^ 2 + f ^ 2) := by
    rw [← sineEq, ← cosineEq]
    push_cast
    linear_combination unit
  rw [split]
  refine (abs_add_le _ _).trans (add_le_add ?_ ?_)
  · rw [abs_mul, abs_two]
    linarith
  · rw [abs_of_nonneg (by positivity)]
    linarith

/-- Where the angle and the one a quarter turn on are accepted, at most five turns are taken off
either. -/
theorem exists_sine_cosine_normal (mode : ApproxMode) (value : x.HasValue q) (below : |q| < 33)
    (onward : |single.nearest (q + piValue / 2)| < 33) :
    ∃ s c : ℚ, (sine mode x).HasValue s ∧ (cosine mode x).HasValue c ∧ |s| ≤ 1 ∧ |c| ≤ 1 ∧
      |c ^ 2 + s ^ 2 - 1| ≤ 1524 / 10 ^ 8 := by
  have half : piValue ≤ 315 / 100 := by norm_num [piValue]
  have half' : 314 / 100 ≤ piValue := by norm_num [piValue]
  have bounded : |q + piValue / 2| ≤ 2 ^ (6 : ℤ) := by
    refine (abs_add_le _ _).trans ?_
    rw [abs_of_pos (by linarith : 0 < piValue / 2)]
    norm_num
    linarith
  obtain ⟨s, hasSine, sineLe, sineNear⟩ :=
    abs_sine_sub_sin_le mode value below 5 (by norm_num; linarith)
  obtain ⟨c, hasCosine, cosineLe, cosineNear⟩ := abs_cosine_sub_cos_le_of_accepted mode value
    (by norm_num) (by norm_num) bounded onward 5 (by norm_num; linarith)
  have excess := abs_sq_add_sq_sub_one_le (761 / 10 ^ 8) cosineNear sineNear (by norm_num)
    (by norm_num [sineError])
  have bound := excess.trans (show _ ≤ ((1524 / 10 ^ 8 : ℚ) : ℝ) by norm_num)
  exact ⟨s, c, hasSine, hasCosine, sineLe, cosineLe, by exact_mod_cast bound⟩

/-- Of the angles whose whole radians the sine accepts, the cosine accepts those that stay more than
half a unit below thirty-three a quarter turn on, and there the squares of both add up to one within
`1e-4`. It answers the others with zero. -/
theorem sine_cosine_normal_or_rejected (mode : ApproxMode) (x : Single) {whole : ℤ}
    (truncated : x.truncate = .ok whole) (lower : -32 ≤ whole) (upper : whole ≤ 32) :
    sineRejection? x = none ∧ (sine mode x).isFinite = true ∧ (cosine mode x).isFinite = true ∧
      if x.toRat + halfPi.toRat < 33 - 1 / 2 ^ 19 then
        sineRejection? (quarterTurnOn x) = none ∧
          |(sine mode x).toRat ^ 2 + (cosine mode x).toRat ^ 2 - 1| ≤ 1 / 10 ^ 4
      else sineRejection? (quarterTurnOn x) = some .outOfRange ∧ cosine mode x = 0 := by
  have accepted := (wholeRadians_eq_ok_iff x whole).mpr ⟨truncated, lower, upper⟩
  obtain ⟨q, value, below, -⟩ := hasValue_of_wholeRadians accepted
  refine ⟨(sineRejection?_eq_none_iff x).mpr ⟨whole, accepted⟩, (sine_within mode x).1,
    (sine_within mode _).1, ?_⟩
  rw [sineRejection?_quarterTurnOn value below, value.2, hasValue_halfPi.2]
  split
  · next inside =>
    refine ⟨rfl, ?_⟩
    have onward : sineRejection? (quarterTurnOn x) = none := by
      rw [sineRejection?_quarterTurnOn value below, if_pos inside]
    obtain ⟨angle, onwardValue, onwardBelow⟩ := sineRejection?_eq_none_iff_hasValue.mp onward
    have rounded := (value.rounds_add hasValue_halfPi).hasValue_of_isFinite onwardValue.1
    obtain ⟨s, c, hasSine, hasCosine, -, -, normal⟩ := exists_sine_cosine_normal mode value below
      (rounded.2.symm.trans onwardValue.2 ▸ onwardBelow)
    rw [hasSine.2, hasCosine.2, add_comm (s ^ 2)]
    exact normal.trans (by norm_num)
  · next beyond =>
    have rejected : sineRejection? (quarterTurnOn x) = some .outOfRange := by
      rw [sineRejection?_quarterTurnOn value below, if_neg beyond]
    exact ⟨rfl, sine_of_sineRejection? mode rejected⟩

/-- The greatest angle whose cosine is accepted. -/
theorem sine_cosine_normal_greatest :
    (31.429201 : Single).truncate = .ok 31 ∧
      |(sine .fast 31.429201).toRat ^ 2 + (cosine .fast 31.429201).toRat ^ 2 - 1| ≤ 1 / 10 ^ 4 := by
  have truncated : (31.429201 : Single).truncate = .ok 31 := by decide +kernel
  have inside : (31.429201 : Single).toRat + halfPi.toRat < 33 - 1 / 2 ^ 19 := by decide +kernel
  have normal := (sine_cosine_normal_or_rejected .fast 31.429201 truncated (by norm_num)
    (by norm_num)).2.2.2
  rw [if_pos inside] at normal
  exact ⟨truncated, normal.2⟩

/-- The sine accepts thirty-two radians, and the cosine does not. -/
theorem not_sine_cosine_normal_thirtyTwo : (32 : Single).truncate = .ok 32 ∧
    sineRejection? (32 : Single) = none ∧ cosine .accurate 32 = 0 ∧
    ¬ |(sine .accurate 32).toRat ^ 2 + (cosine .accurate 32).toRat ^ 2 - 1| ≤ 1 / 10 ^ 4 := by
  decide +kernel

end FlightMath
