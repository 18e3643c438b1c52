import FlightMath.Proofs.Rounding.Agreement
import FlightMath.Proofs.Trig.Range

/-! # The sine is odd

Opposite angles take different ways to their sines: one loop takes whole turns off and the other
adds them, and the two reflections sum the same terms in another order. Step by step the results on
one side still are the opposites of those on the other, up to the sign of a zero. The loops come in
a fixed order, which is not mirrored; it does not matter because only one of them runs.
-/

namespace FlightMath

open Binary (Agrees)
open Angle

variable {x x' : Single}

/-! ## Acceptance -/

/-- An angle is accepted along with its opposite. -/
theorem wholeRadians_neg (x : Single) : wholeRadians (-x) = (wholeRadians x).map (- ·) := by
  unfold wholeRadians
  rw [Binary.truncate_neg]
  cases x.truncate with
  | error reason => rfl
  | ok whole =>
    have outside : -whole < -sineLimit ∨ sineLimit < -whole ↔
        whole < -sineLimit ∨ sineLimit < whole := by omega
    simp only [Except.map, outside]
    split <;> rfl

/-! ## Unwinding -/

/-- Adding turns from below is the mirror image of taking turns off. -/
theorem unwindBelow_agrees (turns : ℕ) (opposite : x'.Agrees (-x)) :
    (unwindBelow turns x').Agrees (-unwindAbove turns x) := by
  induction turns generalizing x x' with
  | zero => exact opposite
  | succ turns ih =>
    have guard : x' < -pi ↔ pi < x :=
      (opposite.lt_iff (.refl (-pi))).trans (Binary.neg_lt_neg_iff x pi)
    simp only [unwindBelow, unwindAbove, guard]
    split
    · exact ih (opposite.add_neg (by rw [Binary.neg_neg]))
    · exact opposite

private theorem unwindAbove_agrees (turns : ℕ) (opposite : x'.Agrees (-x)) :
    (unwindAbove turns x').Agrees (-unwindBelow turns x) :=
  (unwindBelow_agrees turns opposite.opposite).opposite

private theorem unwindAbove_of_not_lt (turns : ℕ) (within : ¬ pi < x) :
    unwindAbove turns x = x := by
  cases turns with
  | zero => rfl
  | succ turns => exact if_neg within

private theorem unwindBelow_of_not_lt (turns : ℕ) (within : ¬ x < -pi) :
    unwindBelow turns x = x := by
  cases turns with
  | zero => rfl
  | succ turns => exact if_neg within

/-- The loops may change places. -/
theorem unwindAbove_unwindBelow {angle : ℚ} {turns : ℕ} (value : x.HasValue angle)
    (below : |angle| < 34) (enough : |angle| < turns + 1) :
    unwindAbove turns (unwindBelow turns x) = principal turns x := by
  obtain ⟨w, reduced, count, unwinds, few, result, bounded, -⟩ := exists_unwinds value below enough
  rw [unwinds.principal_eq few]
  obtain ⟨lower, upper⟩ := abs_le.mp bounded
  have notAbove : ¬ pi < w := mt (hasValue_pi.lt_iff result).mp (not_lt.mpr upper)
  have notBelow : ¬ w < -pi := mt (result.lt_iff hasValue_pi.neg).mp (not_lt.mpr lower)
  obtain ⟨above, below, y, first, second, one, total⟩ := unwinds
  have firstEnd : unwindAbove turns x = y := first.unwindAbove_eq (by omega)
  have secondEnd : unwindBelow turns y = w := second.unwindBelow_eq (by omega)
  rcases one with rfl | rfl
  · cases first
    rw [secondEnd, unwindAbove_of_not_lt turns notAbove]
  · cases second
    have inside : ¬ x < -pi := by
      cases first with
      | stop => exact notBelow
      | round past => exact fun short => absurd (Binary.lt_trans past short) (by decide +kernel)
    rw [unwindBelow_of_not_lt turns inside, firstEnd]

private theorem principal_agrees {angle : ℚ} {turns : ℕ} (value : x.HasValue angle)
    (below : |angle| < 34) (enough : |angle| < turns + 1) :
    (principal turns (-x)).Agrees (-principal turns x) := by
  rw [← unwindAbove_unwindBelow value below enough]
  exact unwindBelow_agrees turns (unwindAbove_agrees turns (.refl (-x)))

/-! ## Folding -/

/-- The reflections about the two quarter turns are mirror images. -/
theorem fold_agrees (opposite : x'.Agrees (-x)) : (fold x').Agrees (-fold x) := by
  have above : halfPi < x' ↔ x < -halfPi := by
    rw [opposite.opposite.lt_iff (.refl (-halfPi)), Binary.neg_lt_neg_iff]
  have below : x' < -halfPi ↔ halfPi < x := by
    rw [opposite.lt_iff (.refl (-halfPi)), Binary.neg_lt_neg_iff]
  unfold fold
  simp only [above, below]
  by_cases right : halfPi < x
  · have notLeft : ¬ x < -halfPi := fun left =>
      absurd (Binary.lt_trans right left) (by decide +kernel)
    rw [if_neg notLeft, if_pos right, if_pos right, Binary.add_comm halfPi]
    exact (Agrees.refl (-halfPi)).sub_neg (opposite.add_neg (by rw [Binary.neg_neg]))
  · rw [if_neg right, if_neg right]
    split
    · rw [Binary.add_comm halfPi]
      exact Agrees.sub_neg (by rw [Binary.neg_neg]) (opposite.add_neg (.refl (-halfPi)))
    · exact opposite

/-! ## The polynomial and the sine -/

/-- The correction is an odd power times a factor in the square, which loses the sign. -/
theorem SineCoefficients.eval_agrees (coefficients : SineCoefficients) (opposite : x'.Agrees (-x)) :
    (coefficients.eval x').Agrees (-coefficients.eval x) := by
  have square : (x' * x').Agrees (x * x) := by
    have product := opposite.mul opposite
    rwa [Binary.neg_mul, Binary.mul_neg, Binary.neg_neg] at product
  have cube := opposite.mul square
  have factor := Agrees.add (.refl coefficients.cubic) (square.mul (Agrees.add
    (.refl coefficients.quintic) (square.mul (Agrees.add (.refl coefficients.septic)
      (square.mul (.refl coefficients.nonic))))))
  have correction := cube.mul factor
  rw [Binary.neg_mul, Binary.neg_mul] at correction
  exact opposite.add_neg correction

private theorem sine_agrees (mode : ApproxMode) (x : Single) :
    (sine mode (-x)).Agrees (-sine mode x) := by
  have acceptance := wholeRadians_neg x
  cases found : wholeRadians x with
  | error reason =>
    rw [found] at acceptance
    rw [sine_of_rejected mode found, sine_of_rejected mode acceptance, Binary.zero_eq]
    exact Binary.zero_agrees _ _
  | ok whole =>
    rw [found] at acceptance
    obtain ⟨angle, value, below, enough⟩ := hasValue_of_wholeRadians found
    unfold sine
    simp only [found, acceptance, Except.map, Int.natAbs_neg]
    exact mode.sine.eval_agrees (fold_agrees (principal_agrees value (by linarith) enough))

/-- The sine of the opposite angle is the opposite of the sine, as a number, and as a value unless
it is zero. -/
theorem sine_neg (mode : ApproxMode) (x : Single) :
    (sine mode (-x)).ValueEq (-sine mode x) ∧
      (sine mode (-x) = -sine mode x ∨ (sine mode x).ValueEq 0) := by
  have agree := sine_agrees mode x
  constructor
  · refine agree.valueEq fun lost => ?_
    have finite := (sine_within mode (-x)).1
    rw [lost] at finite
    cases finite
  · rcases agree.eq_or_zero with same | ⟨negative, otherNegative, -, zero⟩
    · exact .inl same
    · refine .inr ?_
      rw [← Binary.neg_neg (sine mode x), zero, Binary.zero_eq]
      exact (Binary.zero_agrees (!otherNegative) false).valueEq (by simp [Binary.zero])

/-- A rejected angle is answered with the positive zero, and so is its opposite. -/
example : sine .fast (-100) ≠ -sine .fast 100 := by
  decide +kernel

end FlightMath
