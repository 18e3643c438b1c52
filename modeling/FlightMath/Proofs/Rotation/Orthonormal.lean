import FlightMath.Proofs.Trig.Guard
import FlightMath.Rotation

/-! # Rotation matrices are nearly orthonormal

The matrix of three turns is a polynomial in their cosines and sines. In exact arithmetic its rows
are orthonormal up to the excess of each pair's squared length over one, whatever the angles. The
excess is small where sine and cosine are accurate, and the rounding of the entries adds little.
-/

namespace FlightMath

open FloatFormat Angle Matrix

/-! ## Exact turns -/

/-- The exact cosine and sine of a turn, as the matrix takes them. -/
structure TurnValue where
  cosine : ℚ
  sine : ℚ

namespace TurnValue

/-- How far the squared length is above one. -/
def excess (t : TurnValue) : ℚ :=
  t.cosine ^ 2 + t.sine ^ 2 - 1

/-- A turn with components up to one, whose squared length is near one. -/
structure Normal (t : TurnValue) (error : ℚ) : Prop where
  cosine_le : |t.cosine| ≤ 1
  sine_le : |t.sine| ≤ 1
  excess_le : |t.excess| ≤ error

/-- The entries of the matrix of a roll, a pitch and a yaw before any rounding. -/
def matrix (roll pitch yaw : TurnValue) : Matrix (Fin 3) (Fin 3) ℚ :=
  !![yaw.cosine * pitch.cosine, -pitch.cosine * yaw.sine, pitch.sine;
    yaw.sine * roll.cosine + roll.sine * yaw.cosine * pitch.sine,
      yaw.cosine * roll.cosine - roll.sine * yaw.sine * pitch.sine, -roll.sine * pitch.cosine;
    roll.sine * yaw.sine - yaw.cosine * roll.cosine * pitch.sine,
      roll.sine * yaw.cosine + yaw.sine * roll.cosine * pitch.sine, pitch.cosine * roll.cosine]

/-- How far the products of rows are from those of an orthonormal matrix. -/
def defect (roll pitch yaw : TurnValue) : Matrix (Fin 3) (Fin 3) ℚ :=
  let upper := pitch.cosine * roll.sine * pitch.sine * yaw.excess
  let outer := -(pitch.cosine * roll.cosine * pitch.sine * yaw.excess)
  let lower := roll.sine * roll.cosine * ((1 - pitch.sine ^ 2) * yaw.excess - pitch.excess)
  !![pitch.excess + pitch.cosine ^ 2 * yaw.excess, upper, outer;
    upper,
      roll.excess + roll.sine ^ 2 * pitch.excess +
        (roll.cosine ^ 2 + roll.sine ^ 2 * pitch.sine ^ 2) * yaw.excess, lower;
    outer, lower,
      roll.excess + roll.cosine ^ 2 * pitch.excess +
        (roll.sine ^ 2 + roll.cosine ^ 2 * pitch.sine ^ 2) * yaw.excess]

/-- The products of rows depend on the turns through their excesses alone. -/
theorem matrix_mul_transpose (roll pitch yaw : TurnValue) :
    matrix roll pitch yaw * (matrix roll pitch yaw)ᵀ = 1 + defect roll pitch yaw := by
  ext i j
  fin_cases i <;> fin_cases j <;>
    simp [matrix, defect, excess, mul_apply, Fin.sum_univ_three] <;> ring

variable {roll pitch yaw : TurnValue} {error : ℚ}

/-- A product of a factor up to one and a small one is small. -/
theorem abs_mul_le_of_le_one {a b bound : ℚ} (factor : |a| ≤ 1) (small : |b| ≤ bound) :
    |a * b| ≤ bound := by
  have product := abs_mul_le_mul factor small
  rwa [one_mul] at product

theorem abs_sq_le_one {a : ℚ} (le : |a| ≤ 1) : |a ^ 2| ≤ 1 := by
  rw [sq]
  exact abs_mul_le_of_le_one le le

/-- The second and third diagonal entries have one form, with the roll's components exchanged. -/
theorem abs_diagonal_le {a b other : ℚ} {pitch yaw : TurnValue}
    (length : |a ^ 2 + b ^ 2 - 1| ≤ error) (le : |b| ≤ 1) (factor : |other| ≤ 1)
    (pitchSmall : |pitch.excess| ≤ error) (yawSmall : |yaw.excess| ≤ error) :
    |a ^ 2 + b ^ 2 - 1 + b ^ 2 * pitch.excess + (a ^ 2 + b ^ 2 * other ^ 2) * yaw.excess| ≤
      3 * error + error ^ 2 := by
  have second := abs_mul_le_of_le_one (abs_sq_le_one le) pitchSmall
  have size : |a ^ 2 + b ^ 2 * other ^ 2| ≤ 1 + error := by
    have square : b ^ 2 * other ^ 2 ≤ b ^ 2 * 1 :=
      mul_le_mul_of_nonneg_left (le_of_abs_le (abs_sq_le_one factor)) (sq_nonneg b)
    rw [abs_of_nonneg (by positivity)]
    linarith [(abs_le.mp length).2]
  have third := abs_mul_le_mul size yawSmall
  refine (abs_add_three _ _ _).trans ?_
  linarith

/-- The row products of exact turns are near those of an orthonormal matrix. -/
theorem abs_defect_le (rollNormal : roll.Normal error) (pitchNormal : pitch.Normal error)
    (yawNormal : yaw.Normal error) (i j : Fin 3) :
    |defect roll pitch yaw i j| ≤ 3 * error + error ^ 2 := by
  obtain ⟨rollCosine, rollSine, rollExcess⟩ := rollNormal
  obtain ⟨pitchCosine, pitchSine, pitchExcess⟩ := pitchNormal
  obtain ⟨yawCosine, yawSine, yawExcess⟩ := yawNormal
  have nonneg : 0 ≤ error := (abs_nonneg _).trans rollExcess
  have square : 0 ≤ error ^ 2 := sq_nonneg error
  have first : |pitch.excess + pitch.cosine ^ 2 * yaw.excess| ≤ 3 * error + error ^ 2 := by
    have scaled := abs_mul_le_of_le_one (abs_sq_le_one pitchCosine) yawExcess
    refine (abs_add_le _ _).trans ?_
    linarith
  have second := abs_diagonal_le rollExcess rollSine pitchSine pitchExcess yawExcess
  have third : |roll.excess + roll.cosine ^ 2 * pitch.excess +
      (roll.sine ^ 2 + roll.cosine ^ 2 * pitch.sine ^ 2) * yaw.excess| ≤ 3 * error + error ^ 2 := by
    rw [excess, add_comm (roll.cosine ^ 2)] at rollExcess ⊢
    exact abs_diagonal_le rollExcess rollCosine pitchSine pitchExcess yawExcess
  have upper : |pitch.cosine * roll.sine * pitch.sine * yaw.excess| ≤ 3 * error + error ^ 2 := by
    have factor := abs_mul_le_of_le_one (abs_mul_le_of_le_one pitchCosine rollSine) pitchSine
    linarith [abs_mul_le_of_le_one factor yawExcess]
  have outer : |-(pitch.cosine * roll.cosine * pitch.sine * yaw.excess)| ≤
      3 * error + error ^ 2 := by
    have factor := abs_mul_le_of_le_one (abs_mul_le_of_le_one pitchCosine rollCosine) pitchSine
    rw [abs_neg]
    linarith [abs_mul_le_of_le_one factor yawExcess]
  have lower : |roll.sine * roll.cosine * ((1 - pitch.sine ^ 2) * yaw.excess - pitch.excess)| ≤
      3 * error + error ^ 2 := by
    have rest : |1 - pitch.sine ^ 2| ≤ 1 := by
      rw [abs_of_nonneg (sub_nonneg.mpr (le_of_abs_le (abs_sq_le_one pitchSine)))]
      linarith [sq_nonneg pitch.sine]
    have scaled := abs_mul_le_of_le_one rest yawExcess
    have difference := abs_sub ((1 - pitch.sine ^ 2) * yaw.excess) pitch.excess
    refine abs_mul_le_of_le_one (abs_mul_le_of_le_one rollSine rollCosine) ?_
    linarith
  fin_cases i <;> fin_cases j
  exacts [first, upper, outer, upper, second, lower, outer, lower, third]

/-- No entry of a row whose squares add up to nearly one is above two. -/
theorem abs_matrix_le (rollNormal : roll.Normal error) (pitchNormal : pitch.Normal error)
    (yawNormal : yaw.Normal error) (small : 3 * error + error ^ 2 ≤ 3) (i j : Fin 3) :
    |matrix roll pitch yaw i j| ≤ 2 := by
  have defectSmall := abs_defect_le rollNormal pitchNormal yawNormal i i
  have row := congrFun (congrFun (matrix_mul_transpose roll pitch yaw) i) i
  rw [mul_apply, Matrix.add_apply, one_apply_eq] at row
  have entry : matrix roll pitch yaw i j * (matrix roll pitch yaw)ᵀ j i ≤
      ∑ k, matrix roll pitch yaw i k * (matrix roll pitch yaw)ᵀ k i :=
    Finset.single_le_sum (fun k _ => mul_self_nonneg (matrix roll pitch yaw i k))
      (Finset.mem_univ j)
  refine abs_le_of_sq_le_sq ?_ two_pos.le
  rw [sq]
  change matrix roll pitch yaw i j * matrix roll pitch yaw i j ≤ _ at entry
  linarith [(abs_le.mp defectSmall).2]

end TurnValue

/-! ## Rounded entries -/

/-- The entries of a matrix as exact numbers. -/
def Matrix3.toRat (m : Matrix3) : Matrix (Fin 3) (Fin 3) ℚ :=
  !![m.first.x.toRat, m.first.y.toRat, m.first.z.toRat;
    m.second.x.toRat, m.second.y.toRat, m.second.z.toRat;
    m.third.x.toRat, m.third.y.toRat, m.third.z.toRat]

/-- Every entry is finite. -/
def Matrix3.IsFinite (m : Matrix3) : Prop :=
  ∀ row ∈ m.rows, ∀ entry ∈ row.toList, entry.isFinite = true

/-- The computed cosine and sine stand for exact ones. -/
structure Turn.HasValue (t : Turn) (value : TurnValue) : Prop where
  cosine : t.cosine.HasValue value.cosine
  sine : t.sine.HasValue value.sine

namespace Binary

variable {x y z : Single} {a b c first second error other : ℚ}

/-- The product of two values up to one is rounded by at most `2 ^ (-25)`, to a value up to one. -/
theorem mul_near (left : x.HasValue a) (right : y.HasValue b) (leftLe : |a| ≤ 1)
    (rightLe : |b| ≤ 1) :
    ∃ v, (x * y).HasValue v ∧ |v| ≤ 1 ∧ |v - a * b| ≤ 1 / 2 ^ 25 := by
  have bounded : |a * b| ≤ 2 ^ (0 : ℤ) := TurnValue.abs_mul_le_of_le_one leftLe rightLe
  refine ⟨_, left.mul right (single_le_largest (by norm_num) bounded),
    abs_nearest_le grid_one bounded, ?_⟩
  exact (abs_single_nearest_sub_le (by norm_num) bounded).trans (by norm_num)

/-- The sum of two values up to one, each with an error of its own. -/
theorem add_near (left : x.HasValue a) (right : y.HasValue b) (leftLe : |a| ≤ 1) (rightLe : |b| ≤ 1)
    (leftNear : |a - first| ≤ error) (rightNear : |b - second| ≤ other) :
    (x + y).Near (first + second) (1 / 2 ^ 24 + error + other) := by
  have bounded : |a + b| ≤ 2 ^ (1 : ℤ) := by
    refine (abs_add_le a b).trans ?_
    norm_num
    linarith
  refine (left.add right (single_le_largest (by norm_num) bounded)).near ?_
  have rounding := abs_single_nearest_sub_le (by norm_num) bounded
  have split : single.nearest (a + b) - (first + second) =
      (single.nearest (a + b) - (a + b)) + (a - first) + (b - second) := by ring
  rw [split]
  refine (abs_add_three _ _ _).trans
    (add_le_add (add_le_add (rounding.trans ?_) leftNear) rightNear)
  norm_num

/-- A rounded product, plus or minus a value times another rounded product. -/
theorem mixed_near (left : x.HasValue a) (right : y.HasValue b) (factor : z.HasValue c)
    (leftLe : |a| ≤ 1) (rightLe : |b| ≤ 1) (factorLe : |c| ≤ 1)
    (leftNear : |a - first| ≤ 1 / 2 ^ 25) (rightNear : |b - second| ≤ 1 / 2 ^ 25) :
    (x + y * z).Near (first + second * c) (5 / 2 ^ 25) ∧
      (x - y * z).Near (first - second * c) (5 / 2 ^ 25) := by
  obtain ⟨p, product, productLe, productNear⟩ := mul_near right factor rightLe factorLe
  have scaled : |b * c - second * c| ≤ 1 / 2 ^ 25 := by
    rw [← sub_mul, mul_comm]
    exact TurnValue.abs_mul_le_of_le_one factorLe rightNear
  have total := (abs_sub_le p (b * c) (second * c)).trans (add_le_add productNear scaled)
  have errors : (1 / 2 ^ 24 + 1 / 2 ^ 25 + (1 / 2 ^ 25 + 1 / 2 ^ 25) : ℚ) = 5 / 2 ^ 25 := by
    norm_num
  rw [← errors]
  constructor
  · exact add_near left product leftLe productLe leftNear total
  · have opposite : |-p - -(second * c)| ≤ 1 / 2 ^ 25 + 1 / 2 ^ 25 := by
      rwa [neg_sub_neg, abs_sub_comm]
    have split : first - second * c = first + -(second * c) := by ring
    rw [sub_eq_add_neg, split]
    exact add_near left product.neg leftLe (by rwa [abs_neg]) leftNear opposite

end Binary

/-- Every entry of the computed matrix is finite and near the exact one. -/
theorem Matrix3.ofTurns_near {roll pitch yaw : Turn} {rollValue pitchValue yawValue : TurnValue}
    {error : ℚ} (hasRoll : roll.HasValue rollValue) (hasPitch : pitch.HasValue pitchValue)
    (hasYaw : yaw.HasValue yawValue) (rollNormal : rollValue.Normal error)
    (pitchNormal : pitchValue.Normal error) (yawNormal : yawValue.Normal error) :
    (ofTurns roll pitch yaw).IsFinite ∧ ∀ i j,
      |(ofTurns roll pitch yaw).toRat i j - TurnValue.matrix rollValue pitchValue yawValue i j| ≤
        5 / 2 ^ 25 := by
  obtain ⟨rollCosine, rollSine⟩ := hasRoll
  obtain ⟨pitchCosine, pitchSine⟩ := hasPitch
  obtain ⟨yawCosine, yawSine⟩ := hasYaw
  obtain ⟨rollCosineLe, rollSineLe, -⟩ := rollNormal
  obtain ⟨pitchCosineLe, pitchSineLe, -⟩ := pitchNormal
  obtain ⟨yawCosineLe, yawSineLe, -⟩ := yawNormal
  have single : ∀ {x y : Single} {a b : ℚ}, x.HasValue a → y.HasValue b → |a| ≤ 1 → |b| ≤ 1 →
      (x * y).Near (a * b) (5 / 2 ^ 25) := by
    intro x y a b left right leftLe rightLe
    obtain ⟨v, value, -, near⟩ := Binary.mul_near left right leftLe rightLe
    exact value.near (near.trans (by norm_num))
  obtain ⟨yawCosRollCos, hasCosCos, cosCosLe, cosCosNear⟩ :=
    Binary.mul_near yawCosine rollCosine yawCosineLe rollCosineLe
  obtain ⟨yawSinRollCos, hasSinCos, sinCosLe, sinCosNear⟩ :=
    Binary.mul_near yawSine rollCosine yawSineLe rollCosineLe
  obtain ⟨rollSinYawCos, hasRollYawCos, rollYawCosLe, rollYawCosNear⟩ :=
    Binary.mul_near rollSine yawCosine rollSineLe yawCosineLe
  obtain ⟨rollSinYawSin, hasRollYawSin, rollYawSinLe, rollYawSinNear⟩ :=
    Binary.mul_near rollSine yawSine rollSineLe yawSineLe
  have firstX := single yawCosine pitchCosine yawCosineLe pitchCosineLe
  have firstY := single pitchCosine.neg yawSine (by rwa [abs_neg]) yawSineLe
  have firstZ : pitch.sine.Near pitchValue.sine (5 / 2 ^ 25) :=
    pitchSine.near (by norm_num)
  have secondX := (Binary.mixed_near hasSinCos hasRollYawCos pitchSine sinCosLe rollYawCosLe
    pitchSineLe sinCosNear rollYawCosNear).1
  have secondY := (Binary.mixed_near hasCosCos hasRollYawSin pitchSine cosCosLe rollYawSinLe
    pitchSineLe cosCosNear rollYawSinNear).2
  have secondZ := single rollSine.neg pitchCosine (by rwa [abs_neg]) pitchCosineLe
  have thirdX := (Binary.mixed_near hasRollYawSin hasCosCos pitchSine rollYawSinLe cosCosLe
    pitchSineLe rollYawSinNear cosCosNear).2
  have thirdY := (Binary.mixed_near hasRollYawCos hasSinCos pitchSine rollYawCosLe sinCosLe
    pitchSineLe rollYawCosNear sinCosNear).1
  have thirdZ := single pitchCosine rollCosine pitchCosineLe rollCosineLe
  constructor
  · simp only [IsFinite, rows, Vector3.toList, List.forall_mem_cons, List.not_mem_nil,
      IsEmpty.forall_iff, implies_true, and_true]
    exact ⟨⟨firstX.finite, firstY.finite, firstZ.finite⟩,
      ⟨secondX.finite, secondY.finite, secondZ.finite⟩,
      ⟨thirdX.finite, thirdY.finite, thirdZ.finite⟩⟩
  · intro i j
    fin_cases i <;> fin_cases j
    exacts [firstX.near, firstY.near, firstZ.near, secondX.near, secondY.near, secondZ.near,
      thirdX.near, thirdY.near, thirdZ.near]

/-! ## Row products -/

/-- Entries near those of another matrix have row products near those of that matrix. -/
theorem abs_mul_transpose_sub_le {m exact : Matrix (Fin 3) (Fin 3) ℚ} {error : ℚ}
    (near : ∀ i j, |m i j - exact i j| ≤ error) (small : ∀ i j, |exact i j| ≤ 2) (i j : Fin 3) :
    |(m * mᵀ) i j - (exact * exactᵀ) i j| ≤ 3 * (4 * error + error ^ 2) := by
  have term : ∀ k, |m i k * mᵀ k j - exact i k * exactᵀ k j| ≤ 4 * error + error ^ 2 := by
    intro k
    have split : m i k * m j k - exact i k * exact j k = (m i k - exact i k) * exact j k +
        exact i k * (m j k - exact j k) + (m i k - exact i k) * (m j k - exact j k) := by ring
    change |m i k * m j k - exact i k * exact j k| ≤ _
    rw [split]
    refine (abs_add_three _ _ _).trans ((add_le_add (add_le_add
      (abs_mul_le_mul (near i k) (small j k)) (abs_mul_le_mul (small i k) (near j k)))
      (abs_mul_le_mul (near i k) (near j k))).trans_eq ?_)
    ring
  rw [mul_apply, mul_apply, ← Finset.sum_sub_distrib]
  refine (Finset.abs_sum_le_sum_abs _ _).trans ((Finset.sum_le_card_nsmul _ _ _ fun k _ =>
    term k).trans_eq ?_)
  rw [Finset.card_univ, Fintype.card_fin, nsmul_eq_mul]
  norm_num

/-- Up to thirty-one radians both sine and cosine are accepted, and the excess is small. -/
theorem exists_normal_turn (mode : ApproxMode) {angle : Single} (within : angle.abs ≤ 31) :
    ∃ value, (Turn.ofAngle mode angle).HasValue value ∧ value.Normal (1524 / 10 ^ 8) := by
  obtain ⟨q, value, bounded⟩ := Binary.exists_hasValue_of_abs_le within
    (Binary.hasValue_ofNat 31 (by norm_num))
  have onward : |single.nearest (q + piValue / 2)| ≤ 131 / 4 := by
    have multiple : IsMultiple (-2) (131 / 4) := ⟨131, by norm_num⟩
    refine abs_nearest_le (multiple.grid (by decide) (by norm_num [FloatFormat.single, abs_le])) ?_
    refine (abs_add_le _ _).trans ?_
    norm_num [piValue]
    linarith
  obtain ⟨s, c, hasSine, hasCosine, sineLe, cosineLe, normal⟩ :=
    exists_sine_cosine_normal mode value (by linarith) (by linarith)
  exact ⟨⟨c, s⟩, ⟨hasCosine, hasSine⟩, ⟨cosineLe, sineLe, normal⟩⟩

/-- The matrix of any angles up to thirty-one radians has finite entries, and the products of its
rows are within `5e-5` of those of an orthonormal matrix. -/
theorem Matrix3.ofAngles_orthonormal (mode : ApproxMode) (angles : EulerAngles)
    (roll : angles.roll.abs ≤ 31) (pitch : angles.pitch.abs ≤ 31) (yaw : angles.yaw.abs ≤ 31) :
    (ofAngles mode angles).IsFinite ∧ ∀ i j,
      |((ofAngles mode angles).toRat * (ofAngles mode angles).toRatᵀ) i j -
        (1 : Matrix (Fin 3) (Fin 3) ℚ) i j| ≤ 5 / 10 ^ 5 := by
  obtain ⟨rollValue, hasRoll, rollNormal⟩ := exists_normal_turn mode roll
  obtain ⟨pitchValue, hasPitch, pitchNormal⟩ := exists_normal_turn mode pitch
  obtain ⟨yawValue, hasYaw, yawNormal⟩ := exists_normal_turn mode yaw
  obtain ⟨finite, near⟩ := ofTurns_near hasRoll hasPitch hasYaw rollNormal pitchNormal yawNormal
  refine ⟨finite, ?_⟩
  intro i j
  have small := TurnValue.abs_matrix_le rollNormal pitchNormal yawNormal (by norm_num)
  have rounding := abs_mul_transpose_sub_le near small i j
  have defect := TurnValue.abs_defect_le rollNormal pitchNormal yawNormal i j
  have exact :=
    congrFun (congrFun (TurnValue.matrix_mul_transpose rollValue pitchValue yawValue) i) j
  rw [Matrix.add_apply] at exact
  have difference : (TurnValue.matrix rollValue pitchValue yawValue *
      (TurnValue.matrix rollValue pitchValue yawValue)ᵀ) i j -
      (1 : Matrix (Fin 3) (Fin 3) ℚ) i j = TurnValue.defect rollValue pitchValue yawValue i j := by
    linarith
  rw [← difference] at defect
  refine ((abs_sub_le _ _ _).trans (add_le_add rounding defect)).trans ?_
  norm_num

/-- Three angles that each take another path through the reduction. -/
theorem Matrix3.ofAngles_orthonormal_of_turns :
    ((31 : Single).abs ≤ 31 ∧ (-7 : Single).abs ≤ 31 ∧ (2 : Single).abs ≤ 31) ∧ ∀ i j,
      |((ofAngles .fast ⟨31, -7, 2⟩).toRat * (ofAngles .fast ⟨31, -7, 2⟩).toRatᵀ) i j -
        (1 : Matrix (Fin 3) (Fin 3) ℚ) i j| ≤ 5 / 10 ^ 5 :=
  have roll : (31 : Single).abs ≤ 31 := by decide +kernel
  have pitch : (-7 : Single).abs ≤ 31 := by decide +kernel
  have yaw : (2 : Single).abs ≤ 31 := by decide +kernel
  ⟨⟨roll, pitch, yaw⟩, (ofAngles_orthonormal .fast ⟨31, -7, 2⟩ roll pitch yaw).2⟩

end FlightMath
