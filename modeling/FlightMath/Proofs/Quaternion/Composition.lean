import FlightMath.Proofs.Quaternion.RoundTrip

/-! # Composing rotations

The exact squared modulus of a product is the product of the squared moduli, so composing rotations
only accumulates their own deviations from one. A computed product errs relative to its exact size,
apart from what is lost below the normal numbers, and a partial product never gets small enough for
that to matter. One more rotation therefore changes the squared modulus by at most a
hundred-thousandth of itself, and a sequence of them by that factor for each.
-/

open scoped Quaternion

namespace FlightMath.Quaternion

variable {p q : Quaternion}

theorem IsRotation.le_sq_norm (rotation : q.IsRotation) : 1 - 1 / 10 ^ 6 ≤ ‖q.toReal‖ ^ 2 := by
  have unit := (Rat.cast_le (K := ℝ)).mpr (abs_le.mp rotation.unit).1
  rw [sq_norm_toReal]
  push_cast at unit
  linarith

/-! ## One more rotation -/

/-- The computed product of a value of moderate size and a rotation has nearly the exact norm. -/
theorem abs_norm_mul_sub_le (finite : p.IsFinite) (rotation : q.IsRotation)
    (large : 1 / 10 ^ 5 ≤ ‖p.toReal‖ ^ 2) (small : ‖p.toReal‖ ^ 2 ≤ 10 ^ 5) :
    (p * q).IsFinite ∧ |‖(p * q).toReal‖ - ‖p.toReal‖ * ‖q.toReal‖| ≤
      ‖p.toReal‖ * ‖q.toReal‖ / 10 ^ 6 := by
  have nonneg := norm_nonneg p.toReal
  have lower : 1 / 10 ^ 3 ≤ ‖p.toReal‖ := by
    refine (sq_le_sq₀ (by norm_num) nonneg).mp (le_trans ?_ large)
    norm_num
  have upper : ‖p.toReal‖ ≤ 10 ^ 3 := by
    refine (sq_le_sq₀ nonneg (by norm_num)).mp (small.trans ?_)
    norm_num
  have unitLower : 1 / 10 ≤ ‖q.toReal‖ := by
    refine (sq_le_sq₀ (by norm_num) (norm_nonneg _)).mp (le_trans ?_ rotation.le_sq_norm)
    norm_num
  have productLower : 1 / 10 ^ 3 * (1 / 10) ≤ ‖p.toReal‖ * ‖q.toReal‖ :=
    mul_le_mul lower unitLower (by norm_num) nonneg
  have productUpper : ‖p.toReal‖ * ‖q.toReal‖ ≤ 10 ^ 3 * (1 + 1 / 10 ^ 6) :=
    mul_le_mul upper rotation.norm_le (norm_nonneg _) (by norm_num)
  obtain ⟨productFinite, near⟩ := mul_near finite rotation.finite (productUpper.trans (by norm_num))
  refine ⟨productFinite, ?_⟩
  have difference := (abs_norm_sub_norm_le _ _).trans near
  rw [norm_mul] at difference
  linarith

/-- One more rotation changes the squared modulus by at most a hundred-thousandth of itself. -/
theorem squaredModulus_mul_bounds (finite : p.IsFinite) (rotation : q.IsRotation)
    (large : 1 / 10 ^ 5 ≤ p.squaredModulus) (small : p.squaredModulus ≤ 10 ^ 5) :
    (p * q).IsFinite ∧ (1 - 1 / 10 ^ 5) * p.squaredModulus ≤ (p * q).squaredModulus ∧
      (p * q).squaredModulus ≤ (1 + 1 / 10 ^ 5) * p.squaredModulus := by
  have large' := (Rat.cast_le (K := ℝ)).mpr large
  have small' := (Rat.cast_le (K := ℝ)).mpr small
  push_cast at large' small'
  rw [← sq_norm_toReal] at large' small'
  obtain ⟨productFinite, near⟩ := abs_norm_mul_sub_le finite rotation large' small'
  obtain ⟨below, above⟩ := abs_le.mp near
  have size : 0 ≤ ‖p.toReal‖ * ‖q.toReal‖ := mul_nonneg (norm_nonneg _) (norm_nonneg _)
  have square := sq_nonneg ‖p.toReal‖
  refine ⟨productFinite, (Rat.cast_le (K := ℝ)).mp ?_, (Rat.cast_le (K := ℝ)).mp ?_⟩
  · have least : (1 - 1 / 10 ^ 6) * (‖p.toReal‖ * ‖q.toReal‖) ≤ ‖(p * q).toReal‖ := by linarith
    push_cast
    rw [← sq_norm_toReal, ← sq_norm_toReal]
    calc (1 - 1 / 10 ^ 5) * ‖p.toReal‖ ^ 2
        ≤ (1 - 1 / 10 ^ 6) ^ 2 * ((1 - 1 / 10 ^ 6) * ‖p.toReal‖ ^ 2) := by linarith
      _ ≤ (1 - 1 / 10 ^ 6) ^ 2 * (‖q.toReal‖ ^ 2 * ‖p.toReal‖ ^ 2) := by
        gcongr
        exact rotation.le_sq_norm
      _ = ((1 - 1 / 10 ^ 6) * (‖p.toReal‖ * ‖q.toReal‖)) ^ 2 := by ring
      _ ≤ ‖(p * q).toReal‖ ^ 2 := pow_le_pow_left₀ (mul_nonneg (by norm_num) size) least 2
  · have most : ‖(p * q).toReal‖ ≤ (1 + 1 / 10 ^ 6) * (‖p.toReal‖ * ‖q.toReal‖) := by linarith
    push_cast
    rw [← sq_norm_toReal, ← sq_norm_toReal]
    calc ‖(p * q).toReal‖ ^ 2
        ≤ ((1 + 1 / 10 ^ 6) * (‖p.toReal‖ * ‖q.toReal‖)) ^ 2 :=
          pow_le_pow_left₀ (norm_nonneg _) most 2
      _ = (1 + 1 / 10 ^ 6) ^ 2 * (‖q.toReal‖ ^ 2 * ‖p.toReal‖ ^ 2) := by ring
      _ ≤ (1 + 1 / 10 ^ 6) ^ 2 * ((1 + 1 / 10 ^ 6) * ‖p.toReal‖ ^ 2) := by
        gcongr
        exact rotation.sq_norm_le
      _ ≤ (1 + 1 / 10 ^ 5) * ‖p.toReal‖ ^ 2 := by linarith

/-! ## Sequences of rotations -/

/-- Below a hundred thousand steps the bounds stay away from zero and from infinity: they multiply
to at most one. -/
private theorem moderate_drift {steps : ℕ} (few : steps < 100000) :
    1 / 10 ^ 5 ≤ (1 - 1 / 10 ^ 5 : ℚ) ^ steps ∧ (1 + 1 / 10 ^ 5 : ℚ) ^ steps ≤ 10 ^ 5 := by
  have count : (steps : ℚ) + 1 ≤ 100000 := by exact_mod_cast few
  have bernoulli := one_add_mul_le_pow (show (-2 : ℚ) ≤ -(1 / 10 ^ 5) by norm_num) steps
  rw [← sub_eq_add_neg] at bernoulli
  have lower : 1 / 10 ^ 5 ≤ (1 - 1 / 10 ^ 5 : ℚ) ^ steps := by linarith
  refine ⟨lower, ?_⟩
  have inverse : (1 - 1 / 10 ^ 5 : ℚ) ^ steps * (1 + 1 / 10 ^ 5) ^ steps ≤ 1 := by
    rw [← mul_pow]
    exact pow_le_one₀ (by norm_num) (by norm_num)
  have scaled := mul_le_mul_of_nonneg_right lower
    (show (0 : ℚ) ≤ (1 + 1 / 10 ^ 5) ^ steps by positivity)
  linarith

private theorem isFinite_identity : identity.IsFinite := by
  constructor <;> decide +kernel

private theorem squaredModulus_identity : identity.squaredModulus = 1 := by decide +kernel

/-- A product of up to a hundred thousand rotations, from the identity on, is finite, and its
squared modulus is off by at most a hundred-thousandth for each of them. -/
theorem squaredModulus_foldl_mul_bounds {rotations : List Quaternion}
    (unit : ∀ q ∈ rotations, q.IsRotation) (few : rotations.length ≤ 100000) :
    (rotations.foldl (· * ·) identity).IsFinite ∧
      (1 - 1 / 10 ^ 5) ^ rotations.length ≤
        (rotations.foldl (· * ·) identity).squaredModulus ∧
      (rotations.foldl (· * ·) identity).squaredModulus ≤
        (1 + 1 / 10 ^ 5) ^ rotations.length := by
  induction rotations using List.reverseRecOn with
  | nil =>
    rw [List.foldl_nil, squaredModulus_identity, List.length_nil, pow_zero, pow_zero]
    exact ⟨isFinite_identity, le_rfl, le_rfl⟩
  | append_singleton rotations last ih =>
    rw [List.length_append, List.length_singleton] at few
    have rest := fun q member => unit q (List.mem_append_left _ member)
    obtain ⟨finite, lower, upper⟩ := ih rest (Nat.le_of_succ_le few)
    obtain ⟨least, greatest⟩ := moderate_drift (Nat.lt_of_succ_le few)
    rw [List.foldl_append, List.foldl_cons, List.foldl_nil, List.length_append,
      List.length_singleton, pow_succ' _ rotations.length, pow_succ' _ rotations.length]
    generalize rotations.foldl (· * ·) identity = product at *
    obtain ⟨nextFinite, below, above⟩ := squaredModulus_mul_bounds finite
      (unit last (List.mem_append_right _ (List.mem_singleton_self last))) (least.trans lower)
      (upper.trans greatest)
    refine ⟨nextFinite, le_trans ?_ below, above.trans ?_⟩
    · exact mul_le_mul_of_nonneg_left lower (by norm_num)
    · exact mul_le_mul_of_nonneg_left upper (by norm_num)

/-- The longest sequence, of a rotation whose components had to be rounded. -/
theorem squaredModulus_foldl_mul_bounds_longest :
    (∀ q ∈ List.replicate 100000 (⟨0.6, 0, -0.8, 0⟩ : Quaternion), q.IsRotation) ∧
      (1 - 1 / 10 ^ 5) ^ 100000 ≤ ((List.replicate 100000
        (⟨0.6, 0, -0.8, 0⟩ : Quaternion)).foldl (· * ·) identity).squaredModulus := by
  have unit : ∀ q ∈ List.replicate 100000 (⟨0.6, 0, -0.8, 0⟩ : Quaternion), q.IsRotation := by
    intro q member
    rw [List.eq_of_mem_replicate member]
    refine ⟨⟨?_, ?_, ?_, ?_⟩, ?_⟩ <;> decide +kernel
  have length := List.length_replicate (n := 100000) (a := (⟨0.6, 0, -0.8, 0⟩ : Quaternion))
  have bounds := squaredModulus_foldl_mul_bounds unit length.le
  rw [length] at bounds
  exact ⟨unit, bounds.2.1⟩

end FlightMath.Quaternion
