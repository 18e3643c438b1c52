import FlightMath.Proofs.Rounding.Squares
import FlightMath.Quaternion.Basic
import FlightMath.Vector3

/-! # Scaling to unit length

Vectors and quaternions are scaled alike: each component is divided by the rounded root of the
rounded sum of squares. If that sum is a normal number, the squares of the quotients add up to one
within `1e-6`. It need not be: the squares of finite components may overflow, and every quotient is
zero then, or fall below the normal numbers, where they keep too few bits.
-/

namespace FlightMath

open FloatFormat

/-- A finite value that is not below the normal numbers. -/
structure Binary.Normal (x : Single) : Prop where
  finite : x.isFinite = true
  least : 1 / 2 ^ 126 ≤ |x.toRat|

/-- Finite components whose squares add up to one within `1e-6`. -/
structure UnitLength (components : List Single) : Prop where
  finite : ∀ c ∈ components, c.isFinite = true
  near : |sumSquares components - 1| ≤ 1 / 10 ^ 6

variable {c divisor first : Single} {components rest : List Single} {a root : ℚ}

private theorem sq_toRat_le_sumSquares (mem : c ∈ components) :
    c.toRat ^ 2 ≤ sumSquares components := by
  refine List.single_le_sum ?_ _ (List.mem_map_of_mem mem)
  intro square squareMem
  obtain ⟨other, -, rfl⟩ := List.mem_map.mp squareMem
  exact sq_nonneg _

/-! ## Quotients -/

/-- The square of a rounded quotient, with its error. -/
private theorem near_div_sq (value : c.HasValue a) (hasRoot : divisor.HasValue root)
    (positive : 0 < root) (le : |a| ≤ 2 * root) : (c / divisor).isFinite = true ∧
      |(c / divisor).toRat ^ 2 - a ^ 2 / root ^ 2| ≤
        a ^ 2 / root ^ 2 * (1 / 2 ^ 23 + 1 / 2 ^ 40) + 1 / 2 ^ 147 := by
  have size : |a / root| ≤ 2 := by
    rw [abs_div, abs_of_pos positive]
    exact (div_le_iff₀ positive).mpr le
  have quotient := (value.rounds_div hasRoot positive.ne').hasValue
    (Binary.single_le_largest (by norm_num) size)
  have error := Binary.abs_single_nearest_sub_le_mixed (a / root)
  rw [quotient.2, ← div_pow]
  refine ⟨quotient.1, ?_⟩
  generalize a / root = q at *
  have sum : |single.nearest q + q| ≤ 2 * |q| + (|q| / 2 ^ 24 + 1 / 2 ^ 150) := by
    have triangle := abs_add_le (single.nearest q - q) (2 * q)
    rw [abs_mul, abs_two, show single.nearest q - q + 2 * q = single.nearest q + q by ring]
      at triangle
    linarith
  rw [sq_sub_sq, mul_comm, abs_mul, ← sq_abs q]
  refine (mul_le_mul error sum (abs_nonneg _) (by positivity)).trans ?_
  nlinarith [abs_nonneg q]

/-- The quotients of all components by one divisor. -/
theorem near_map_div (hasRoot : divisor.HasValue root) (positive : 0 < root)
    (finite : ∀ c ∈ components, c.isFinite = true)
    (le : ∀ c ∈ components, |c.toRat| ≤ 2 * root) :
    (∀ c ∈ components.map (· / divisor), c.isFinite = true) ∧
      |sumSquares (components.map (· / divisor)) - sumSquares components / root ^ 2| ≤
        sumSquares components / root ^ 2 * (1 / 2 ^ 23 + 1 / 2 ^ 40) +
          components.length * (1 / 2 ^ 147) := by
  induction components with
  | nil => simp [sumSquares]
  | cons c rest ih =>
    obtain ⟨restFinite, restNear⟩ := ih (fun other mem => finite other (List.mem_cons_of_mem c mem))
      (fun other mem => le other (List.mem_cons_of_mem c mem))
    obtain ⟨headFinite, headNear⟩ := near_div_sq
      (Binary.hasValue_toRat (finite c List.mem_cons_self)) hasRoot positive
      (le c List.mem_cons_self)
    refine ⟨?_, ?_⟩
    · rw [List.map_cons, List.forall_mem_cons]
      exact ⟨headFinite, restFinite⟩
    · unfold sumSquares at restNear ⊢
      simp only [List.map_cons, List.sum_cons, List.length_cons] at restNear ⊢
      rw [add_div, add_sub_add_comm]
      refine (abs_add_le _ _).trans ((add_le_add headNear restNear).trans_eq ?_)
      push_cast
      ring

/-! ## Unit length -/

/-- A normal rounded sum of at most four squares is near the exact one, relative to both. The error
does not reach from a sum of squares down to a negative normal number. -/
theorem abs_sub_sumSquares_le (few : rest.length ≤ 3)
    (normal : (roundedSquares first rest).Normal) :
    1 / 2 ^ 126 ≤ (roundedSquares first rest).toRat ∧
      |(roundedSquares first rest).toRat - sumSquares (first :: rest)| ≤
        (roundedSquares first rest).toRat * (48 / 10 ^ 8) := by
  have near := (Binary.near_roundedSquares (few.trans (by norm_num)) normal.finite).2.near
  have nonneg := sumSquares_nonneg (first :: rest)
  have least := normal.least
  generalize sumSquares (first :: rest) = exact at *
  generalize (roundedSquares first rest).toRat = q at *
  have few' : ((rest.length + 1 : ℕ) : ℚ) ≤ 4 := by exact_mod_cast Nat.succ_le_succ few
  have shares :
      (rest.length + 1 : ℕ) * Binary.squareError exact ≤ 4 * Binary.squareError exact := by
    refine mul_le_mul_of_nonneg_right few' ?_
    unfold Binary.squareError
    positivity
  unfold Binary.squareError at shares
  obtain ⟨lower, upper⟩ := abs_le.mp (near.trans shares)
  have positive : 1 / 2 ^ 126 ≤ q := by
    rcases abs_cases q with ⟨same, -⟩ | ⟨opposite, -⟩ <;> linarith
  exact ⟨positive, abs_le.mpr ⟨by linarith, by linarith⟩⟩

/-- A normal sum of squares has a root that is not zero and scales the components to unit length. -/
theorem unitLength_of_normal (few : rest.length ≤ 3)
    (normal : (roundedSquares first rest).Normal) :
    ¬ (roundedSquares first rest).sqrt.ValueEq 0 ∧
      UnitLength ((first :: rest).map (· / (roundedSquares first rest).sqrt)) := by
  obtain ⟨finite, -⟩ := Binary.near_roundedSquares (few.trans (by norm_num)) normal.finite
  obtain ⟨least, sumNear⟩ := abs_sub_sumSquares_le few normal
  obtain ⟨root, hasRoot, positive, rootNear⟩ :=
    (Binary.hasValue_toRat normal.finite).sqrt_sq_near least
  have size := fun (c : Single) (mem : c ∈ first :: rest) => sq_toRat_le_sumSquares mem
  have nonneg := sumSquares_nonneg (first :: rest)
  generalize (roundedSquares first rest).toRat = q at *
  obtain ⟨sumLower, sumUpper⟩ := abs_le.mp sumNear
  obtain ⟨rootLower, rootUpper⟩ := abs_le.mp rootNear
  have squarePositive : 0 < root ^ 2 := by positivity
  obtain ⟨quotientsFinite, quotientsNear⟩ := near_map_div hasRoot positive finite
    fun c mem => abs_le_of_sq_le_sq (by linarith [size c mem]) (by linarith)
  refine ⟨?_, quotientsFinite, ?_⟩
  · rw [hasRoot.valueEq_iff Binary.hasValue_zero]
    exact positive.ne'
  · have ratio : |sumSquares (first :: rest) / root ^ 2 - 1| ≤ 61 / 10 ^ 8 := by
      rw [div_sub_one squarePositive.ne', abs_div, abs_of_pos squarePositive,
        div_le_iff₀ squarePositive, abs_le]
      constructor <;> linarith
    have few' : ((first :: rest).length : ℚ) ≤ 4 := by exact_mod_cast Nat.succ_le_succ few
    refine (abs_sub_le _ _ _).trans ((add_le_add quotientsNear ratio).trans ?_)
    linarith [(abs_le.mp ratio).2]

/-- A vector whose squared length, and a quaternion whose norm, is computed as a normal number can
be normalized, to unit length within `1e-6`. -/
theorem normalize_unitLength (v : Vector3) (q : Quaternion) :
    ((v.x * v.x + v.y * v.y + v.z * v.z).Normal →
      v.CanNormalize ∧ UnitLength v.normalize.toList) ∧
    (q.norm.Normal → q.CanNormalize ∧ UnitLength q.normalize.toList) := by
  constructor
  · intro normal
    obtain ⟨nonzero, unit⟩ := unitLength_of_normal (by norm_num)
      (show (roundedSquares v.x [v.y, v.z]).Normal from normal)
    have canNormalize : v.CanNormalize := nonzero
    rw [Vector3.normalize, Vector3.normalizeOr, Vector3.normalize?_of_canNormalize canNormalize]
    exact ⟨canNormalize, unit⟩
  · intro normal
    obtain ⟨nonzero, unit⟩ := unitLength_of_normal (by norm_num)
      (show (roundedSquares q.w [q.x, q.y, q.z]).Normal from normal)
    have canNormalize : q.CanNormalize := nonzero
    rw [Quaternion.normalize, Quaternion.normalize?_of_canNormalize canNormalize]
    exact ⟨canNormalize, unit⟩

/-- The least normal squared length, and a norm close to overflow. -/
theorem normalize_unitLength_extremes :
    let v : Vector3 := ⟨1.0842021724855044e-19, 0, 1e-30⟩
    let q : Quaternion := ⟨9223372036854775808, -9223372036854775808, 0, 9223372036854775808⟩
    (v.x * v.x + v.y * v.y + v.z * v.z).Normal ∧ q.norm.Normal ∧
      UnitLength v.normalize.toList ∧ UnitLength q.normalize.toList := by
  intro v q
  have lengthNormal : (v.x * v.x + v.y * v.y + v.z * v.z).Normal :=
    ⟨by decide +kernel, by decide +kernel⟩
  have normNormal : q.norm.Normal := ⟨by decide +kernel, by decide +kernel⟩
  exact ⟨lengthNormal, normNormal, ((normalize_unitLength v q).1 lengthNormal).2,
    ((normalize_unitLength v q).2 normNormal).2⟩

/-- Finite components are not enough: the square of `2 ^ 64` overflows, and the quotients by the
infinite length are zero. -/
theorem not_unitLength_normalize_huge :
    let v : Vector3 := ⟨18446744073709551616, 0, 0⟩
    (∀ c ∈ v.toList, c.isFinite = true) ∧ v.CanNormalize ∧ v.normalize = ⟨0, 0, 0⟩ ∧
      ¬ UnitLength v.normalize.toList := by
  intro v
  have zero : v.normalize = ⟨0, 0, 0⟩ := by decide +kernel
  refine ⟨by decide +kernel, by decide +kernel, zero, fun unit => ?_⟩
  have near := unit.near
  rw [zero] at near
  exact absurd near (by decide +kernel)

end FlightMath
