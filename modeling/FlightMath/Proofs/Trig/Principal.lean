import FlightMath.Proofs.Trig.Range

/-! # Soundness of the range reduction

The sine rejects an angle that is not finite or reaches thirty-three radians, and reduces any other
one. One loop at most runs and takes off at most five whole turns, which lose `2 ^ (-19)` at most in
all. The reflection that follows is exact.
-/

namespace FlightMath

open FloatFormat Angle

variable {x : Single}

/-- An angle is rejected because it is not finite or because it reaches thirty-three radians. -/
theorem rejected_of_wholeRadians {reason : SineRejection}
    (rejected : wholeRadians x = .error reason) :
    reason = .notFinite ∧ x.isFinite = false ∨
      reason = .outOfRange ∧ x.isFinite = true ∧ 33 ≤ |x.toRat| := by
  unfold wholeRadians at rejected
  split at rejected
  · next _ failed =>
    refine .inl ⟨(Except.error.inj rejected).symm, Bool.eq_false_iff.mpr fun finite => ?_⟩
    obtain ⟨whole, truncated⟩ := (Binary.isFinite_iff_truncate x).mp finite
    rw [failed] at truncated
    cases truncated
  · next whole truncated =>
    split at rejected
    · next outside =>
      have finite := (Binary.isFinite_iff_truncate x).mpr ⟨whole, truncated⟩
      refine .inr ⟨(Except.error.inj rejected).symm, finite, ?_⟩
      obtain ⟨same, truncated', magnitude⟩ := (Binary.hasValue_toRat finite).truncate
      obtain rfl : same = whole := by simpa [truncated] using truncated'.symm
      have limit : 33 ≤ ⌊|x.toRat|⌋₊ := by
        rw [← magnitude]
        unfold sineLimit at outside
        omega
      exact_mod_cast (Nat.le_floor_iff (abs_nonneg _)).mp limit
    · cases rejected

/-- The angle `x` is unwound to `reduced`, and that is reflected to `folded`. -/
structure Reduces (x reduced folded : Single) : Prop where
  /-- At most one of the loops runs, for one round a turn. -/
  unwound : ∃ turns : ℤ, turns.natAbs ≤ 5 ∧ Unwinds turns.natAbs x reduced ∧
    |reduced.toRat - (x.toRat - turns * twoPi.toRat)| ≤ 1 / 2 ^ 19
  reduced_within : reduced.Within (-pi.toRat) pi.toRat
  folded_within : folded.Within (-halfPi.toRat) halfPi.toRat
  /-- The reflection about the nearer quarter turn is exact. -/
  reflected : folded.toRat =
    if halfPi < reduced then pi.toRat - reduced.toRat
    else if reduced < -halfPi then -pi.toRat - reduced.toRat
    else reduced.toRat

/-- Below thirty-three radians the loops take off five turns or fewer. -/
theorem reduces_of_hasValue {q : ℚ} (value : x.HasValue q) (below : |q| < 33) {turns : ℕ}
    (enough : |q| < turns + 1) : Reduces x (principal turns x) (fold (principal turns x)) := by
  obtain ⟨reduced, count, unwinds, principalValue, bounded, error⟩ :=
    exists_principal value (by linarith) enough
  have foldedValue := hasValue_fold principalValue bounded
  have few : count.natAbs ≤ 5 := by
    refine natAbs_le_of_reduced bounded error ?_
    norm_num [piValue]
    linarith
  refine ⟨⟨count, few, unwinds, ?_⟩, ?_, ?_, ?_⟩
  · rw [principalValue.2, value.2, hasValue_twoPi.2]
    refine error.trans ?_
    have rounds : ((count.natAbs - 1 : ℕ) : ℚ) ≤ 4 := by exact_mod_cast Nat.sub_le_sub_right few 1
    linarith
  · rw [hasValue_pi.2]
    exact principalValue.within (abs_le.mp bounded).1 (abs_le.mp bounded).2
  · have range := abs_le.mp (abs_foldValue_le bounded)
    rw [hasValue_halfPi.2]
    exact foldedValue.within range.1 range.2
  · rw [foldedValue.2, principalValue.2, hasValue_pi.2]
    simp only [foldValue, hasValue_halfPi.lt_iff principalValue,
      principalValue.lt_iff hasValue_halfPi.neg]

/-- The sine rejects exactly the angles that are not finite or reach thirty-three radians, and
answers them with zero. Any other angle is soundly reduced before the polynomial. -/
theorem sine_reduction_sound (mode : ApproxMode) (x : Single) :
    match wholeRadians x with
    | .error reason =>
        (reason = .notFinite ∧ x.isFinite = false ∨
          reason = .outOfRange ∧ x.isFinite = true ∧ 33 ≤ |x.toRat|) ∧ sine mode x = 0
    | .ok whole =>
        (x.isFinite = true ∧ |x.toRat| < 33) ∧
          Reduces x (principal whole.natAbs x) (fold (principal whole.natAbs x)) ∧
          sine mode x = mode.sine.eval (fold (principal whole.natAbs x)) := by
  split
  · next reason rejected =>
    exact ⟨rejected_of_wholeRadians rejected, sine_of_rejected mode rejected⟩
  · next whole accepted =>
    obtain ⟨angle, value, below, enough⟩ := hasValue_of_wholeRadians accepted
    refine ⟨⟨value.1, by rwa [value.2]⟩, reduces_of_hasValue value below enough, ?_⟩
    rw [sine, accepted]

/-- The greatest accepted angle takes all five turns. -/
example : principal 4 32.999996 ≠ principal 5 32.999996 ∧
    principal 32 32.999996 = principal 5 32.999996 := by
  decide +kernel

end FlightMath
