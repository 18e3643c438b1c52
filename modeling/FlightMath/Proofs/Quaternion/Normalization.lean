import FlightMath.Proofs.Rounding.Sign
import FlightMath.Quaternion.Basic
import FlightMath.Vector3

/-! # Vectors and their quaternions are normalized alike

A vector is also a quaternion whose real part is zero, and each has a length and a normalization of
its own. The square of the real part is a positive zero, which leaves the first square of the vector
as it is, so both lengths come from the same rounded sums. The real part stays zero as well: over a
length that is not zero, be it infinite, the quotient of zero is zero.
-/

namespace FlightMath

open Binary

/-- The quaternion of a vector. -/
def Vector3.toQuaternion (v : Vector3) : Quaternion :=
  .ofVector v.x v.y v.z

namespace Quaternion

/-- The norm of a vector's quaternion is the sum of the vector's squares. -/
theorem norm_toQuaternion (v : Vector3) :
    v.toQuaternion.norm = v.x * v.x + v.y * v.y + v.z * v.z := by
  have real : (0 : Single) * 0 = 0 := by decide +kernel
  show (0 : Single) * 0 + v.x * v.x + v.y * v.y + v.z * v.z = _
  rw [real, zero_add_mul_self]

private theorem modulus_toQuaternion (v : Vector3) : v.toQuaternion.modulus = v.length := by
  rw [modulus, norm_toQuaternion, Vector3.length]

private theorem canNormalize_toQuaternion_iff (v : Vector3) :
    v.toQuaternion.CanNormalize ↔ v.CanNormalize := by
  rw [CanNormalize, modulus_toQuaternion, Vector3.CanNormalize]

/-- The length of a vector without NaN is at least zero. -/
private theorem zero_le_length {v : Vector3} (numbers : ∀ c ∈ v.toList, c ≠ .nan) :
    0 ≤ v.length := by
  simp only [Vector3.toList, List.forall_mem_cons] at numbers
  obtain ⟨x, y, z, -⟩ := numbers
  exact zero_le_sqrt
    (zero_le_add (zero_le_add (zero_le_mul_self x) (zero_le_mul_self y)) (zero_le_mul_self z))

/-- Zero over a length that is not zero is zero. -/
private theorem zero_div_length {v : Vector3} (numbers : ∀ c ∈ v.toList, c ≠ .nan)
    (length : v.CanNormalize) : 0 / v.length = 0 := by
  rcases zero_le_iff.mp (zero_le_length numbers) with infinite | ⟨q, value, nonneg⟩
  · rw [infinite]
    decide +kernel
  · have nonzero : q ≠ 0 := mt (value.valueEq_iff hasValue_zero).mpr length
    exact zero_div_of_pos value (lt_of_le_of_ne nonneg nonzero.symm)

/-- Normalizing the quaternion of a vector is normalizing the vector. -/
theorem normalize?_toQuaternion {v : Vector3} (numbers : ∀ c ∈ v.toList, c ≠ .nan) :
    v.toQuaternion.normalize? = v.normalize?.map Vector3.toQuaternion := by
  by_cases length : v.CanNormalize
  · rw [normalize?_of_canNormalize ((canNormalize_toQuaternion_iff v).mpr length),
      Vector3.normalize?_of_canNormalize length, modulus_toQuaternion]
    have real := zero_div_length numbers length
    show some (Quaternion.mk (0 / v.length) _ _ _) = some (Quaternion.mk 0 _ _ _)
    rw [real]
    rfl
  · rw [(normalize?_eq_none_iff _).mpr (mt (canNormalize_toQuaternion_iff v).mp length),
      (Vector3.normalize?_eq_none_iff v).mpr length]
    rfl

/-- A vector without NaN and its quaternion have the same length, can both be normalized or neither,
are both left as they are or neither, and have the same components afterwards, the real part being
zero. -/
theorem normalize_toQuaternion_agrees (v : Vector3) (numbers : ∀ c ∈ v.toList, c ≠ .nan) :
    (ofVector v.x v.y v.z).modulus = v.length ∧
      ((ofVector v.x v.y v.z).CanNormalize ↔ v.CanNormalize) ∧
      (ofVector v.x v.y v.z).normalize =
        ⟨0, v.normalize.x, v.normalize.y, v.normalize.z⟩ ∧
      ((ofVector v.x v.y v.z).normalize? = none ↔ v.normalize? = none) := by
  have same := normalize?_toQuaternion numbers
  refine ⟨modulus_toQuaternion v, canNormalize_toQuaternion_iff v, ?_, ?_⟩
  · show (v.toQuaternion.normalize?.getD v.toQuaternion) = v.normalize.toQuaternion
    rw [same, Option.getD_map]
    rfl
  · show v.toQuaternion.normalize? = none ↔ v.normalize? = none
    rw [same, Option.map_eq_none_iff]

/-- A vector with an infinite length, a negative zero and a component without a square. -/
theorem normalize_toQuaternion_agrees_infinite :
    let v : Vector3 := ⟨.infinite true, zero true, 1e-40⟩
    (∀ c ∈ v.toList, c ≠ .nan) ∧ (ofVector v.x v.y v.z).modulus = v.length ∧
      (ofVector v.x v.y v.z).normalize = ⟨0, v.normalize.x, v.normalize.y, v.normalize.z⟩ := by
  intro v
  have numbers : ∀ c ∈ v.toList, c ≠ .nan := by decide +kernel
  obtain ⟨modulus, -, components, -⟩ := normalize_toQuaternion_agrees v numbers
  exact ⟨numbers, modulus, components⟩

end Quaternion

end FlightMath
