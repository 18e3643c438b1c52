import FlightMath.Proofs.Loop
import FlightMath.Proofs.Rounding.Values
import FlightMath.Trig.Sine

/-! # Range reduction

Unwinding takes whole turns off an angle until it is within a half turn of zero, and folding then
reflects it to within a quarter turn. Folding is exact. A step of unwinding is exact when it ends
below eight, and otherwise moves the angle by at most `2 ^ (-21)`, since a whole turn is that close
to the grid of the binades above eight. The last step always ends below eight.
-/

namespace FlightMath

open FloatFormat

namespace Angle

/-- The exact value of a half turn. -/
def piValue : ℚ := 13176795 / 2 ^ 22

private theorem hasValue_turns : pi.HasValue piValue ∧ halfPi.HasValue (piValue / 2) ∧
    twoPi.HasValue (2 * piValue) := by
  decide +kernel

theorem hasValue_pi : pi.HasValue piValue := hasValue_turns.1

theorem hasValue_halfPi : halfPi.HasValue (piValue / 2) := hasValue_turns.2.1

theorem hasValue_twoPi : twoPi.HasValue (2 * piValue) := hasValue_turns.2.2

theorem isMultiple_piValue : IsMultiple (-22) piValue :=
  ⟨13176795, by norm_num [piValue]⟩

/-! ## One step of unwinding -/

/-- The difference of a grid value and a multiple of its spacing is on the grid if it is no longer
than the significand. -/
theorem grid_sub {angle shift : ℚ} {low : ℤ} (grid : single.Grid angle)
    (multiple : IsMultiple low shift) (coarse : -149 ≤ low) (start : 2 ^ (23 + low) ≤ |angle|)
    (stop : |angle - shift| ≤ 2 ^ (24 + low)) : single.Grid (angle - shift) :=
  ((grid.isMultiple low coarse start).sub multiple).grid coarse stop

variable {angle : ℚ}

/-- A step that ends below eight is exact. -/
theorem nearest_sub_turn_of_le (grid : single.Grid angle) (above : piValue < angle)
    (below : angle - 2 * piValue ≤ 8) :
    single.nearest (angle - 2 * piValue) = angle - 2 * piValue := by
  apply nearest_of_grid
  unfold piValue at *
  have positive : |angle| = angle := abs_of_pos (by linarith)
  rcases lt_or_ge angle 4 with small | large
  · have turn : IsMultiple (-22) (2 * (13176795 / 2 ^ 22)) := ⟨26353590, by norm_num⟩
    refine grid_sub grid turn (by norm_num) ?_ ?_
    · norm_num [positive]
      linarith
    · norm_num [abs_le]
      constructor <;> linarith
  · have turn : IsMultiple (-21) (2 * (13176795 / 2 ^ 22)) := ⟨13176795, by norm_num⟩
    refine grid_sub grid turn (by norm_num) ?_ ?_
    · norm_num [positive]
      linarith
    · norm_num [abs_le] at below ⊢
      constructor <;> linarith

/-- Any step from below thirty-four ends within `2 ^ (-21)` of the exact difference: a turn and
`2 ^ (-21)` more is a multiple of both spacings that the difference can need. -/
theorem abs_nearest_sub_turn_le (grid : single.Grid angle) (above : 8 ≤ angle - 2 * piValue)
    (below : angle < 34) :
    |single.nearest (angle - 2 * piValue) - (angle - 2 * piValue)| ≤ 1 / 2 ^ 21 := by
  have near : single.Grid (angle - (2 * piValue + 1 / 2 ^ 21)) := by
    unfold piValue at *
    have positive : |angle| = angle := abs_of_pos (by linarith)
    rcases lt_or_ge angle 16 with small | large
    · have turn : IsMultiple (-20) (2 * (13176795 / 2 ^ 22) + 1 / 2 ^ 21) :=
        ⟨6588398, by norm_num⟩
      refine grid_sub grid turn (by norm_num) ?_ ?_
      · norm_num [positive]
        linarith
      · norm_num [abs_le] at above ⊢
        constructor <;> linarith
    · have turn : IsMultiple (-19) (2 * (13176795 / 2 ^ 22) + 1 / 2 ^ 21) :=
        ⟨3294199, by norm_num⟩
      refine grid_sub grid turn (by norm_num) ?_ ?_
      · norm_num [positive]
        linarith
      · norm_num [abs_le] at above ⊢
        constructor <;> linarith
  refine (abs_nearest_sub_le near).trans_eq ?_
  have offset : angle - (2 * piValue + 1 / 2 ^ 21) - (angle - 2 * piValue) = -(1 / 2 ^ 21) := by
    ring
  rw [offset, abs_neg, abs_of_pos (by norm_num)]

/-! ## All steps -/

/-- One step on exact values: a whole turn off, rounded. -/
def lessTurn (angle : ℚ) : ℚ :=
  single.nearest (angle - 2 * piValue)

/-- A step that is not the last one loses at most `2 ^ (-21)`, and leaves more than a half turn. -/
private theorem lessTurn_of_lt (grid : single.Grid angle) (above : piValue < angle)
    (below : angle < 34) (more : piValue < angle - 2 * piValue) :
    piValue < lessTurn angle ∧ |lessTurn angle - (angle - 2 * piValue)| ≤ 1 / 2 ^ 21 := by
  unfold lessTurn
  rcases le_or_gt (angle - 2 * piValue) 8 with small | large
  · rw [nearest_sub_turn_of_le grid above small, sub_self, abs_zero]
    exact ⟨more, by norm_num⟩
  · have error := abs_nearest_sub_turn_le grid large.le below
    refine ⟨?_, error⟩
    have lower := (abs_le.mp error).1
    norm_num [piValue] at lower large ⊢
    linarith

/-- Enough steps bring an angle within a half turn of zero. Each step but the last may lose
`2 ^ (-21)`. -/
theorem exists_unwinding {turns : ℕ} {angle : ℚ} (grid : single.Grid angle)
    (above : piValue < angle) (below : angle < 34) (enough : angle < turns + 1) :
    ∃ (count : ℕ) (reduced : ℚ), Loop (piValue < ·) lessTurn count angle reduced ∧
      1 ≤ count ∧ count ≤ turns ∧ |reduced| ≤ piValue ∧
      |reduced - (angle - count * (2 * piValue))| ≤ ((count - 1 : ℕ) : ℚ) / 2 ^ 21 := by
  induction turns generalizing angle with
  | zero =>
    unfold piValue at above
    norm_num at enough
    linarith
  | succ turns ih =>
    push_cast at enough
    rcases le_or_gt (angle - 2 * piValue) piValue with last | more
    · have exact : lessTurn angle = angle - 2 * piValue :=
        nearest_sub_turn_of_le grid above (last.trans (by norm_num [piValue]))
      refine ⟨1, angle - 2 * piValue, .round above ?_, le_rfl, by omega, ?_, ?_⟩
      · rw [exact]
        exact .stop (not_lt.mpr last)
      · rw [abs_le]
        exact ⟨by linarith, last⟩
      · norm_num
    · have step := lessTurn_of_lt grid above below more
      have upper := (abs_le.mp step.2).2
      obtain ⟨count, reduced, rest, positive, few, bounded, error⟩ := ih
        (show single.Grid (lessTurn angle) from grid_nearest _) step.1
        (by norm_num [piValue] at upper ⊢; linarith) (by norm_num [piValue] at upper ⊢; linarith)
      refine ⟨count + 1, reduced, .round above rest, by omega, by omega, bounded, ?_⟩
      have triangle := abs_sub_le reduced (lessTurn angle - count * (2 * piValue))
        (angle - (count + 1 : ℕ) * (2 * piValue))
      have second : lessTurn angle - count * (2 * piValue) -
          (angle - (count + 1 : ℕ) * (2 * piValue)) =
          lessTurn angle - (angle - 2 * piValue) := by
        push_cast
        ring
      have steps : ((count + 1 - 1 : ℕ) : ℚ) = ((count - 1 : ℕ) : ℚ) + 1 := by
        exact_mod_cast (show count + 1 - 1 = count - 1 + 1 by omega)
      rw [second] at triangle
      rw [steps, add_div]
      linarith [step.2]

/-- Below the greatest value a step off stays there. -/
theorem abs_sub_turn_le_largest (above : piValue < angle) (below : angle ≤ single.largest) :
    |angle - 2 * piValue| ≤ single.largest := by
  have turn : 2 * piValue ≤ single.largest := by
    rw [single_largest]
    norm_num [piValue]
  rw [abs_le]
  constructor <;> unfold piValue at * <;> linarith

private theorem lessTurn_le_largest (above : piValue < angle) (below : angle ≤ single.largest) :
    lessTurn angle ≤ single.largest :=
  (abs_le.mp (abs_nearest_le single.grid_largest (abs_sub_turn_le_largest above below))).2

/-- A bound on an angle is a bound on the whole turns that are taken off it. -/
theorem natAbs_le_of_reduced {angle reduced : ℚ} {count : ℤ} {turns : ℕ}
    (within : |reduced| ≤ piValue)
    (near : |reduced - (angle - count * (2 * piValue))| ≤ ((count.natAbs - 1 : ℕ) : ℚ) / 2 ^ 21)
    (enough : |angle| + piValue < (turns + 1) * (2 * piValue - 1 / 2 ^ 21)) :
    count.natAbs ≤ turns := by
  have magnitude : ((count.natAbs : ℕ) : ℚ) = |(count : ℚ)| := by
    rw [Nat.cast_natAbs, Int.cast_abs]
  have positive : 0 < 2 * piValue - 1 / 2 ^ 21 := by norm_num [piValue]
  have fewer : ((count.natAbs - 1 : ℕ) : ℚ) ≤ |(count : ℚ)| := by
    rw [← magnitude]
    exact_mod_cast Nat.sub_le _ 1
  have triangle := abs_add_three angle (-reduced) (reduced - (angle - count * (2 * piValue)))
  have total : angle + -reduced + (reduced - (angle - count * (2 * piValue))) =
      count * (2 * piValue) := by ring
  rw [total, abs_mul, abs_neg, abs_of_pos (by norm_num [piValue] : 0 < 2 * piValue)] at triangle
  have product : |(count : ℚ)| * (2 * piValue - 1 / 2 ^ 21) <
      (turns + 1) * (2 * piValue - 1 / 2 ^ 21) := by
    linarith
  have strict : ((count.natAbs : ℕ) : ℚ) < turns + 1 := by
    rw [magnitude]
    exact lt_of_mul_lt_mul_right product positive.le
  exact Nat.lt_add_one_iff.mp (by exact_mod_cast strict)

end Angle

open Angle

/-! ## The two loops -/

section Unwinding

variable {x y w : Single} {angle reduced : ℚ} {rounds turns : ℕ}

/-- The loop that takes turns off follows the one on exact values. -/
theorem Loop.above_of_exact (loop : Loop (piValue < ·) lessTurn rounds angle reduced)
    (value : x.HasValue angle) (below : angle ≤ single.largest) :
    ∃ y : Single, Loop (pi < ·) (· - twoPi) rounds x y ∧ y.HasValue reduced := by
  have followed : ∃ y : Single, Loop (pi < ·) (· - twoPi) rounds x y ∧
      (y.HasValue reduced ∧ reduced ≤ single.largest) := by
    refine loop.simulate (fun q (y : Single) => y.HasValue q ∧ q ≤ single.largest) ?_ ?_
      ⟨value, below⟩
    · intro q y ⟨value, _⟩
      exact (hasValue_pi.lt_iff value).symm
    · intro q y ⟨value, below⟩ above
      exact ⟨value.sub hasValue_twoPi (abs_sub_turn_le_largest above below),
        lessTurn_le_largest above below⟩
  obtain ⟨y, loop', value', -⟩ := followed
  exact ⟨y, loop', value'⟩

/-- Adding turns from below is taking turns off the opposite angle. -/
theorem Loop.below_of_exact (loop : Loop (piValue < ·) lessTurn rounds angle reduced)
    (value : x.HasValue (-angle)) (below : angle ≤ single.largest) :
    ∃ y : Single, Loop (· < -pi) (· + twoPi) rounds x y ∧ y.HasValue (-reduced) := by
  have followed : ∃ y : Single, Loop (· < -pi) (· + twoPi) rounds x y ∧
      (y.HasValue (-reduced) ∧ reduced ≤ single.largest) := by
    refine loop.simulate (fun q (y : Single) => y.HasValue (-q) ∧ q ≤ single.largest) ?_ ?_
      ⟨value, below⟩
    · intro q y ⟨value, _⟩
      exact neg_lt_neg_iff.symm.trans (value.lt_iff hasValue_pi.neg).symm
    · intro q y ⟨value, below⟩ above
      have opposite : -q + 2 * piValue = -(q - 2 * piValue) := by ring
      have next := value.add hasValue_twoPi
        (by rw [opposite, abs_neg]; exact abs_sub_turn_le_largest above below)
      rw [opposite, nearest_neg] at next
      exact ⟨next, lessTurn_le_largest above below⟩
  obtain ⟨y, loop', value', -⟩ := followed
  exact ⟨y, loop', value'⟩

/-- A bound that the loop does not reach does not show. -/
theorem Loop.unwindAbove_eq (loop : Loop (pi < ·) (· - twoPi) rounds x y) (few : rounds ≤ turns) :
    unwindAbove turns x = y := by
  induction loop generalizing turns with
  | stop fails =>
    cases turns with
    | zero => rfl
    | succ turns => exact if_neg fails
  | round holds _ ih =>
    cases turns with
    | zero => omega
    | succ turns =>
      rw [unwindAbove, if_pos holds]
      exact ih (by omega)

theorem Loop.unwindBelow_eq (loop : Loop (· < -pi) (· + twoPi) rounds x y)
    (few : rounds ≤ turns) : unwindBelow turns x = y := by
  induction loop generalizing turns with
  | stop fails =>
    cases turns with
    | zero => rfl
    | succ turns => exact if_neg fails
  | round holds _ ih =>
    cases turns with
    | zero => omega
    | succ turns =>
      rw [unwindBelow, if_pos holds]
      exact ih (by omega)

/-- The two loops take `x` to `w`, in so many rounds of one of them. The other does not run. -/
def Unwinds (rounds : ℕ) (x w : Single) : Prop :=
  ∃ (above below : ℕ) (y : Single), Loop (pi < ·) (· - twoPi) above x y ∧
    Loop (· < -pi) (· + twoPi) below y w ∧ (above = 0 ∨ below = 0) ∧ above + below = rounds

theorem Unwinds.principal_eq (unwinds : Unwinds rounds x w) (few : rounds ≤ turns) :
    principal turns x = w := by
  obtain ⟨above, below, y, first, second, -, total⟩ := unwinds
  rw [principal, first.unwindAbove_eq (by omega), second.unwindBelow_eq (by omega)]

/-- The loops end within a half turn of zero, and within the loss of all but one of the rounds of
the angle less whole turns. -/
theorem exists_unwinds (value : x.HasValue angle) (below : |angle| < 34)
    (enough : |angle| < turns + 1) :
    ∃ (w : Single) (reduced : ℚ) (count : ℤ), Unwinds count.natAbs x w ∧ count.natAbs ≤ turns ∧
      w.HasValue reduced ∧ |reduced| ≤ piValue ∧
      |reduced - (angle - count * (2 * piValue))| ≤ ((count.natAbs - 1 : ℕ) : ℚ) / 2 ^ 21 := by
  have small : ∀ q : ℚ, q < 34 → q ≤ single.largest := by
    intro q less
    rw [single_largest]
    linarith
  obtain ⟨lower, upper⟩ := abs_lt.mp below
  obtain ⟨enoughBelow, enoughAbove⟩ := abs_lt.mp enough
  rcases lt_or_ge piValue angle with above | within
  · obtain ⟨count, reduced, loop, -, few, bounded, error⟩ :=
      exists_unwinding value.grid above upper enoughAbove
    obtain ⟨w, first, result⟩ := loop.above_of_exact value (small _ upper)
    have inside : ¬ w < -pi := fun less =>
      not_lt.mpr (abs_le.mp bounded).1 ((result.lt_iff hasValue_pi.neg).mp less)
    exact ⟨w, reduced, count, ⟨count, 0, w, first, .stop inside, .inr rfl, rfl⟩, few, result,
      bounded, error⟩
  · have first : Loop (pi < ·) (· - twoPi) 0 x x :=
      .stop fun less => not_lt.mpr within ((hasValue_pi.lt_iff value).mp less)
    rcases lt_or_ge piValue (-angle) with above | inside
    · obtain ⟨count, reduced, loop, -, few, bounded, error⟩ :=
        exists_unwinding value.neg.grid above (by linarith) (by linarith)
      rw [← neg_neg angle] at value
      obtain ⟨w, second, result⟩ := loop.below_of_exact value (small _ (by linarith))
      refine ⟨w, -reduced, -count, ?_, ?_, result, by rwa [abs_neg], ?_⟩
      · rw [Int.natAbs_neg, Int.natAbs_natCast]
        exact ⟨0, count, x, first, second, .inl rfl, Nat.zero_add count⟩
      · rwa [Int.natAbs_neg, Int.natAbs_natCast]
      · have opposite : -reduced - (angle - ((-count : ℤ) : ℚ) * (2 * piValue)) =
            -(reduced - (-angle - count * (2 * piValue))) := by
          push_cast
          ring
        rwa [opposite, abs_neg, Int.natAbs_neg, Int.natAbs_natCast]
    · have second : Loop (· < -pi) (· + twoPi) 0 x x := by
        refine .stop fun less => not_lt.mpr ?_ ((value.lt_iff hasValue_pi.neg).mp less)
        linarith
      refine ⟨x, angle, 0, ⟨0, 0, x, first, second, .inl rfl, rfl⟩, Nat.zero_le _, value,
        abs_le.mpr ⟨by linarith, within⟩, ?_⟩
      norm_num

/-- The principal angle is the end of the loops. -/
theorem exists_principal (value : x.HasValue angle) (below : |angle| < 34)
    (enough : |angle| < turns + 1) :
    ∃ (reduced : ℚ) (count : ℤ), Unwinds count.natAbs x (principal turns x) ∧
      (principal turns x).HasValue reduced ∧ |reduced| ≤ piValue ∧
      |reduced - (angle - count * (2 * piValue))| ≤ ((count.natAbs - 1 : ℕ) : ℚ) / 2 ^ 21 := by
  obtain ⟨w, reduced, count, unwinds, few, result, bounded, error⟩ :=
    exists_unwinds value below enough
  rw [unwinds.principal_eq few]
  exact ⟨reduced, count, unwinds, result, bounded, error⟩

end Unwinding

/-! ## Folding -/

/-- The reflection of an angle about the nearer quarter turn, if it is beyond that. -/
def Angle.foldValue (angle : ℚ) : ℚ :=
  if piValue / 2 < angle then piValue - angle
  else if angle < -(piValue / 2) then -piValue - angle
  else angle

theorem Angle.abs_foldValue_le {angle : ℚ} (within : |angle| ≤ piValue) :
    |foldValue angle| ≤ piValue / 2 := by
  obtain ⟨lower, upper⟩ := abs_le.mp within
  rw [abs_le]
  unfold foldValue
  split
  · constructor <;> linarith
  · split
    · constructor <;> linarith
    · constructor <;> linarith

/-- The two differences of a reflection are on the grid. -/
theorem Angle.grid_reflection {angle : ℚ} (grid : single.Grid angle)
    (above : piValue / 2 < angle) (within : angle ≤ piValue) :
    single.Grid (angle - piValue / 2) ∧ single.Grid (piValue - angle) := by
  have whole : IsMultiple (-23) piValue := ⟨26353590, by norm_num [piValue]⟩
  have half : IsMultiple (-23) (piValue / 2) := ⟨13176795, by norm_num [piValue]⟩
  have one : 1 ≤ |angle| := by
    unfold piValue at above
    exact le_trans (by linarith) (le_abs_self angle)
  constructor
  · refine grid_sub grid half (by norm_num) (by norm_num [one]) ?_
    unfold piValue at *
    norm_num [abs_le] at above within ⊢
    constructor <;> linarith
  · rw [← neg_sub]
    refine (grid_sub grid whole (by norm_num) (by norm_num [one]) ?_).neg
    unfold piValue at *
    norm_num [abs_le] at above within ⊢
    constructor <;> linarith

/-- Folding loses nothing. -/
theorem hasValue_fold {x : Single} {angle : ℚ} (value : x.HasValue angle)
    (within : |angle| ≤ piValue) : (fold x).HasValue (foldValue angle) := by
  obtain ⟨lower, upper⟩ := abs_le.mp within
  have four : piValue < 4 := by norm_num [piValue]
  have positive : 0 < piValue := by norm_num [piValue]
  have representable {q : ℚ} (above : -4 ≤ q) (below : q ≤ 4) : |q| ≤ single.largest :=
    Binary.single_le_largest (by norm_num) (abs_le.mpr ⟨above, below⟩)
  unfold fold foldValue
  simp only [hasValue_halfPi.lt_iff value, value.lt_iff hasValue_halfPi.neg]
  split
  · next above =>
    obtain ⟨first, second⟩ := grid_reflection value.grid above upper
    have inner := value.sub hasValue_halfPi (representable (by linarith) (by linarith))
    rw [nearest_of_grid first] at inner
    have difference : piValue / 2 - (angle - piValue / 2) = piValue - angle := by ring
    have outer := hasValue_halfPi.sub inner
    rw [difference, nearest_of_grid second] at outer
    exact outer (representable (by linarith) (by linarith))
  · split
    · next below =>
      obtain ⟨first, second⟩ := grid_reflection value.neg.grid
        (show piValue / 2 < -angle by linarith) (by linarith)
      have sum : piValue / 2 + angle = -(-angle - piValue / 2) := by ring
      have inner := hasValue_halfPi.add value (representable (by linarith) (by linarith))
      rw [nearest_of_grid (sum ▸ first.neg)] at inner
      have difference : -(piValue / 2) - (piValue / 2 + angle) = -(piValue - -angle) := by ring
      have outer := hasValue_halfPi.neg.sub inner
      rw [difference, nearest_of_grid second.neg] at outer
      have reflected : -(piValue - -angle) = -piValue - angle := by ring
      rw [reflected] at outer
      exact outer (representable (by linarith) (by linarith))
    · exact value

/-! ## Acceptance -/

/-- An angle below thirty-three is accepted, and its whole radians bound the turns to take off. -/
theorem exists_wholeRadians {x : Single} {angle : ℚ} (value : x.HasValue angle)
    (below : |angle| < 33) :
    ∃ whole, wholeRadians x = .ok whole ∧ |angle| < whole.natAbs + 1 := by
  obtain ⟨whole, truncated, magnitude⟩ := value.truncate
  have floor : whole.natAbs < 33 := by
    rw [magnitude, Nat.floor_lt (abs_nonneg angle)]
    exact_mod_cast below
  refine ⟨whole, (wholeRadians_eq_ok_iff x whole).mpr ⟨truncated, ?_, ?_⟩, ?_⟩
  · unfold sineLimit
    omega
  · unfold sineLimit
    omega
  · rw [magnitude]
    exact Nat.lt_floor_add_one _

/-- An accepted angle is finite and below thirty-three. -/
theorem hasValue_of_wholeRadians {x : Single} {whole : ℤ} (accepted : wholeRadians x = .ok whole) :
    ∃ angle, x.HasValue angle ∧ |angle| < 33 ∧ |angle| < whole.natAbs + 1 := by
  obtain ⟨truncated, lower, upper⟩ := (wholeRadians_eq_ok_iff x whole).mp accepted
  have value := Binary.hasValue_toRat ((Binary.isFinite_iff_truncate x).mpr ⟨whole, truncated⟩)
  obtain ⟨same, truncated', magnitude⟩ := value.truncate
  obtain rfl : same = whole := by simpa [truncated] using truncated'.symm
  have next := Nat.lt_floor_add_one |x.toRat|
  rw [← magnitude] at next
  have limit : same.natAbs ≤ 32 := by
    unfold sineLimit at lower upper
    omega
  have limit' : (same.natAbs : ℚ) ≤ 32 := by exact_mod_cast limit
  exact ⟨x.toRat, value, by linarith, next⟩

end FlightMath
