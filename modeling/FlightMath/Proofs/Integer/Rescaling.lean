import FlightMath.Span
import Mathlib.Algebra.Order.Field.Rat
import Mathlib.Algebra.Order.Floor.Semifield
import Mathlib.Data.Nat.Cast.Order.Field
import Mathlib.Data.Rat.Floor
import Mathlib.Order.Interval.Set.UnorderedInterval
import Mathlib.Tactic.Linarith
import Mathlib.Tactic.FieldSimp
import Mathlib.Tactic.Ring

/-! # Steps along spans of integers

A point of a span is a number of steps away from its start, whichever way the span runs. The map of
one span onto another scales that number by the ratio of the lengths and rounds it down, because a
point and the stop lie on one side of the start. What is proved of the map is then about quotients
of natural numbers.
-/

namespace FlightMath.Span

variable {source dest : Span ℤ}

/-! ## Points and their steps -/

/-- The number of steps from the start to the stop. -/
def length (span : Span ℤ) : ℕ :=
  (span.stop - span.start).natAbs

/-- One step from the start toward the stop; zero without width. -/
def direction (span : Span ℤ) : ℤ :=
  (span.stop - span.start).sign

/-- The point so many steps from the start. -/
def point (span : Span ℤ) (steps : ℕ) : ℤ :=
  span.start + span.direction * steps

private theorem direction_mul_length (span : Span ℤ) :
    span.direction * span.length = span.stop - span.start :=
  Int.sign_mul_natAbs _

@[simp] theorem point_zero (span : Span ℤ) : span.point 0 = span.start := by
  rw [point, Nat.cast_zero, mul_zero, add_zero]

@[simp] theorem point_length (span : Span ℤ) : span.point span.length = span.stop := by
  rw [point, direction_mul_length, add_sub_cancel]

private theorem point_succ (span : Span ℤ) (steps : ℕ) :
    span.point (steps + 1) = span.point steps + span.direction := by
  rw [point, point, Nat.cast_succ, mul_add, mul_one, add_assoc]

private theorem direction_trichotomy (span : Span ℤ) :
    span.direction = 1 ∨ span.direction = 0 ∨ span.direction = -1 :=
  Int.sign_trichotomy _

private theorem direction_eq_or (width : source.start ≠ source.stop) :
    source.direction = 1 ∨ source.direction = -1 := by
  unfold direction
  rcases width.lt_or_gt with rising | falling
  · exact .inl (Int.sign_eq_one_of_pos (by omega))
  · exact .inr (Int.sign_eq_neg_one_of_neg (by omega))

private theorem length_pos (width : source.start ≠ source.stop) : 0 < source.length := by
  unfold length
  omega

/-- Every number between the start and a point is a point with no more steps. -/
theorem exists_point (span : Span ℤ) (far : ℕ) {x : ℤ}
    (between : x ∈ Set.uIcc span.start (span.point far)) :
    ∃ steps ≤ far, x = span.point steps := by
  have bounds := Set.mem_uIcc.mp between
  unfold point at bounds ⊢
  rcases span.direction_trichotomy with forward | none | backward
  · rw [forward] at bounds ⊢
    exact ⟨(x - span.start).toNat, by omega, by omega⟩
  · rw [none] at bounds ⊢
    exact ⟨0, Nat.zero_le _, by omega⟩
  · rw [backward] at bounds ⊢
    exact ⟨(span.start - x).toNat, by omega, by omega⟩

private theorem exists_steps {span : Span ℤ} {x : ℤ} (between : x ∈ Set.uIcc span.start span.stop) :
    ∃ steps ≤ span.length, x = span.point steps :=
  exists_point span span.length (by rwa [point_length])

/-- A multiple moves away from the start as its factor grows, whatever the sign. -/
theorem add_mul_mem_uIcc {K : Type} [CommRing K] [LinearOrder K] [IsStrictOrderedRing K]
    {start step near far : K} (nonneg : 0 ≤ near) (le : near ≤ far) :
    start + step * near ∈ Set.uIcc start (start + step * far) := by
  rcases le_total 0 step with forward | backward
  · have first := mul_nonneg forward nonneg
    have second := mul_le_mul_of_nonneg_left le forward
    exact Set.mem_uIcc_of_le (by linarith) (by linarith)
  · have first := mul_nonpos_of_nonpos_of_nonneg backward nonneg
    have second := mul_le_mul_of_nonpos_left le backward
    exact Set.mem_uIcc_of_ge (by linarith) (by linarith)

private theorem point_mem {near far : ℕ} (le : near ≤ far) (span : Span ℤ) :
    span.point near ∈ Set.uIcc span.start (span.point far) :=
  add_mul_mem_uIcc (Int.natCast_nonneg near) (Int.ofNat_le.mpr le)

/-- A point of a span of words is a word. -/
private theorem inWidth_point {bits steps : ℕ} (startFits : InWidth bits dest.start)
    (stopFits : InWidth bits dest.stop) (le : steps ≤ dest.length) :
    InWidth bits (dest.point steps) := by
  have between := point_mem le dest
  rw [point_length] at between
  obtain ⟨startLower, startUpper⟩ := startFits
  obtain ⟨stopLower, stopUpper⟩ := stopFits
  rcases Set.mem_uIcc.mp between with ⟨lower, upper⟩ | ⟨lower, upper⟩
  · exact ⟨startLower.trans lower, upper.trans_lt stopUpper⟩
  · exact ⟨stopLower.trans lower, upper.trans_lt startUpper⟩

/-! ## The map on steps -/

/-- The sign of the divisor cancels in the quotient, and that of the factor stays in front. -/
private theorem mul_sign_mul_tdiv (factor divisor : ℤ) (steps : ℕ) :
    (factor * (divisor.sign * steps)).tdiv divisor =
      factor.sign * ((factor.natAbs * steps / divisor.natAbs : ℕ) : ℤ) := by
  have unsigned (n d : ℕ) : ((n : ℤ) * ((d : ℤ).sign * steps)).tdiv d =
      (n : ℤ).sign * ((n * steps / d : ℕ) : ℤ) := by
    rcases Nat.eq_zero_or_pos n with rfl | factorPos
    · simp
    rcases Nat.eq_zero_or_pos d with rfl | divisorPos
    · simp
    rw [Int.sign_natCast_of_ne_zero factorPos.ne', Int.sign_natCast_of_ne_zero divisorPos.ne',
      one_mul, one_mul, Int.ofNat_tdiv, Nat.cast_mul]
  obtain ⟨n, rfl | rfl⟩ := factor.eq_nat_or_neg <;>
    obtain ⟨d, rfl | rfl⟩ := divisor.eq_nat_or_neg <;>
    simp only [Int.sign_neg, Int.natAbs_neg, Int.natAbs_natCast, neg_mul, mul_neg, Int.neg_tdiv,
      Int.tdiv_neg, neg_neg, unsigned]

private theorem scaledSteps_le {steps : ℕ} (le : steps ≤ source.length) (dest : Span ℤ) :
    dest.length * steps / source.length ≤ dest.length := by
  apply Nat.div_le_of_le_mul
  rw [mul_comm source.length]
  exact Nat.mul_le_mul_left _ le

private theorem tdiv_point (source dest : Span ℤ) (steps : ℕ) :
    ((dest.stop - dest.start) * (source.point steps - source.start)).tdiv
        (source.stop - source.start) + dest.start =
      dest.point (dest.length * steps / source.length) := by
  have offset : source.point steps - source.start = (source.stop - source.start).sign * steps :=
    add_sub_cancel_left _ _
  rw [offset, mul_sign_mul_tdiv, add_comm]
  rfl

/-- The image of a point is the point with the scaled number of steps, rounded down. -/
theorem rescale?_point {steps : ℕ} (width : source.start ≠ source.stop)
    (startFits : InWidth wordBits dest.start) (stopFits : InWidth wordBits dest.stop)
    (le : steps ≤ source.length) :
    source.rescale? dest (source.point steps) =
      some (dest.point (dest.length * steps / source.length)) := by
  rw [rescale?_of_width _ _ (sub_ne_zero.mpr width.symm), tdiv_point, wrapWord,
    wrap_of_inWidth (by decide) (inWidth_point startFits stopFits (scaledSteps_le le dest))]

/-! ## The exact map -/

/-- The exact image under the affine map that takes one span onto the other. -/
def affine (source dest : Span ℤ) (x : ℤ) : ℚ :=
  dest.start + (dest.stop - dest.start) * (x - source.start) / (source.stop - source.start)

/-- The exact image is the scaled number of steps away from the start. -/
theorem affine_point (width : source.start ≠ source.stop) (dest : Span ℤ) (steps : ℕ) :
    source.affine dest (source.point steps) =
      dest.start + dest.direction * ((dest.length * steps : ℕ) / source.length : ℚ) := by
  have sourceWidth : (source.stop - source.start : ℚ) = source.direction * source.length := by
    exact_mod_cast (direction_mul_length source).symm
  have destWidth : (dest.stop - dest.start : ℚ) = dest.direction * dest.length := by
    exact_mod_cast (direction_mul_length dest).symm
  have offset : (source.point steps - source.start : ℚ) = source.direction * steps := by
    rw [point]
    push_cast
    ring
  have positive : (source.length : ℚ) ≠ 0 := by exact_mod_cast (length_pos width).ne'
  rw [affine, sourceWidth, destWidth, offset]
  rcases direction_eq_or width with forward | backward
  · rw [forward]
    push_cast
    field_simp
  · rw [backward]
    push_cast
    field_simp

/-- The integer `y` stands for the exact image of `x`, from the side of the target's start. -/
structure IsImage (source dest : Span ℤ) (x y : ℤ) : Prop where
  within : y ∈ Set.uIcc dest.start dest.stop
  /-- The quotient is added to the start and does not wrap. -/
  unwrapped : y = ((dest.stop - dest.start) * (x - source.start)).tdiv
    (source.stop - source.start) + dest.start
  near : |(y : ℚ) - source.affine dest x| < 1
  notBeyond : (y : ℚ) ∈ Set.uIcc (dest.start : ℚ) (source.affine dest x)

private theorem abs_direction_le_one (span : Span ℤ) : |(span.direction : ℚ)| ≤ 1 := by
  rcases span.direction_trichotomy with forward | none | backward
  · norm_num [forward]
  · norm_num [none]
  · norm_num [backward]

private theorem isImage_point {steps : ℕ} (width : source.start ≠ source.stop) (dest : Span ℤ)
    (le : steps ≤ source.length) :
    IsImage source dest (source.point steps)
      (dest.point (dest.length * steps / source.length)) := by
  have lower : ((dest.length * steps / source.length : ℕ) : ℚ) ≤
      ((dest.length * steps : ℕ) : ℚ) / source.length := Nat.cast_div_le
  have upper := Nat.lt_floor_add_one (((dest.length * steps : ℕ) : ℚ) / source.length)
  rw [Nat.floor_div_eq_div] at upper
  have exact : ((dest.point (dest.length * steps / source.length) : ℤ) : ℚ) =
      dest.start + dest.direction * ((dest.length * steps / source.length : ℕ) : ℚ) := by
    rw [point]
    push_cast
    rfl
  refine ⟨?_, (tdiv_point source dest steps).symm, ?_, ?_⟩
  · have between := point_mem (scaledSteps_le le dest) dest
    rwa [point_length] at between
  · rw [affine_point width, exact, add_sub_add_left_eq_sub, ← mul_sub, abs_mul]
    refine lt_of_le_of_lt (mul_le_of_le_one_left (abs_nonneg _) (abs_direction_le_one dest)) ?_
    rw [abs_lt]
    constructor <;> linarith
  · rw [affine_point width, exact]
    exact add_mul_mem_uIcc (Nat.cast_nonneg _) lower

/-! ## The rounded map -/

/-- The map takes one span along the other: the ends to the ends, every number between to one that
stands for its exact image, and a number nearer to the start to one that is no further from it. -/
structure Traverses (source dest : Span ℤ) : Prop where
  start : source.rescale? dest source.start = some dest.start
  stop : source.rescale? dest source.stop = some dest.stop
  image : ∀ x ∈ Set.uIcc source.start source.stop,
    ∃ y, source.rescale? dest x = some y ∧ IsImage source dest x y
  forward : ∀ x ∈ Set.uIcc source.start source.stop, ∀ x' ∈ Set.uIcc source.start x,
    ∃ y y', source.rescale? dest x = some y ∧ source.rescale? dest x' = some y' ∧
      y' ∈ Set.uIcc dest.start y

/-- A span of some width is mapped along a span of words. -/
theorem rescale_traverses (source dest : Span ℤ) (width : source.start ≠ source.stop)
    (startFits : InWidth wordBits dest.start) (stopFits : InWidth wordBits dest.stop) :
    Traverses source dest := by
  have image {steps : ℕ} (le : steps ≤ source.length) :=
    rescale?_point width startFits stopFits le
  refine ⟨?_, ?_, ?_, ?_⟩
  · have first := image (Nat.zero_le _)
    rwa [mul_zero, Nat.zero_div, point_zero, point_zero] at first
  · have last := image le_rfl
    rwa [Nat.mul_div_cancel _ (length_pos width), point_length, point_length] at last
  · intro x between
    obtain ⟨steps, le, rfl⟩ := exists_steps between
    exact ⟨_, image le, isImage_point width dest le⟩
  · intro x between x' nearer
    obtain ⟨steps, le, rfl⟩ := exists_steps between
    obtain ⟨fewer, le', rfl⟩ := exists_point source steps nearer
    refine ⟨_, _, image le, image (le'.trans le), point_mem ?_ dest⟩
    exact Nat.div_le_div_right (Nat.mul_le_mul_left _ le')

/-- A falling span onto the whole range of words. -/
theorem rescale_traverses_falling :
    (3 : ℤ) ≠ 0 ∧ InWidth wordBits (-2 ^ 31) ∧ InWidth wordBits (2 ^ 31 - 1) ∧
      Traverses ⟨3, 0⟩ ⟨-2 ^ 31, 2 ^ 31 - 1⟩ :=
  have width : (3 : ℤ) ≠ 0 := by decide
  have startFits : InWidth wordBits (-2 ^ 31) := by decide
  have stopFits : InWidth wordBits (2 ^ 31 - 1) := by decide
  ⟨width, startFits, stopFits, rescale_traverses ⟨3, 0⟩ _ width startFits stopFits⟩

/-! ## There and back -/

/-- A quotient scaled back by a smaller factor loses one at most. -/
private theorem mul_div_mul_div (steps : ℕ) {narrow wide : ℕ} (positive : 0 < narrow)
    (le : narrow ≤ wide) : narrow * (wide * steps / narrow) / wide = steps ∨
      narrow * (wide * steps / narrow) / wide + 1 = steps := by
  have lower : narrow * (wide * steps / narrow) ≤ wide * steps := Nat.mul_div_le _ _
  have upper : wide * steps < narrow * (wide * steps / narrow) + narrow :=
    Nat.lt_mul_div_succ _ positive
  generalize narrow * (wide * steps / narrow) = back at lower upper
  have most : back / wide ≤ steps := Nat.div_le_of_le_mul lower
  have least : steps < back / wide + 2 := by
    have next : back < wide * (back / wide + 1) := Nat.lt_mul_div_succ back (positive.trans_le le)
    refine Nat.lt_of_mul_lt_mul_left (a := wide) ?_
    rw [mul_add] at next ⊢
    omega
  omega

/-- Mapping onto a span that is no shorter and back again gives the number itself or the one a step
nearer to the start. -/
theorem rescale_rescale (source dest : Span ℤ) (width : source.start ≠ source.stop)
    (wider : |source.stop - source.start| ≤ |dest.stop - dest.start|)
    (sourceFits : InWidth wordBits source.start ∧ InWidth wordBits source.stop)
    (destFits : InWidth wordBits dest.start ∧ InWidth wordBits dest.stop)
    {x : ℤ} (between : x ∈ Set.uIcc source.start source.stop) :
    ∃ y, source.rescale? dest x = some y ∧
      (dest.rescale? source y = some x ∨
        x ≠ source.start ∧ dest.rescale? source y = some (x - source.direction)) := by
  obtain ⟨steps, le, rfl⟩ := exists_steps between
  have longer : source.length ≤ dest.length := by
    rw [Int.abs_eq_natAbs, Int.abs_eq_natAbs] at wider
    exact_mod_cast wider
  have positive := length_pos width
  have width' : dest.start ≠ dest.stop := by
    intro same
    have none : dest.length = 0 := by
      unfold length
      omega
    omega
  refine ⟨_, rescale?_point width destFits.1 destFits.2 le, ?_⟩
  rw [rescale?_point width' sourceFits.1 sourceFits.2 (scaledSteps_le le dest)]
  have alternatives := mul_div_mul_div steps positive longer
  generalize source.length * (dest.length * steps / source.length) / dest.length = back
    at alternatives ⊢
  rcases alternatives with rfl | rfl
  · exact .inl rfl
  · refine .inr ⟨?_, by rw [point_succ, add_sub_cancel_right]⟩
    rcases direction_eq_or width with forward | backward
    · rw [point, forward]
      omega
    · rw [point, backward]
      omega

/-- A falling span of three steps onto a rising one of four, where one step is lost. -/
theorem rescale_rescale_falling :
    (3 : ℤ) ≠ 0 ∧ |(0 : ℤ) - 3| ≤ |(4 : ℤ) - 0| ∧ (InWidth wordBits 3 ∧ InWidth wordBits 0) ∧
      (InWidth wordBits 0 ∧ InWidth wordBits 4) ∧ (2 : ℤ) ∈ Set.uIcc 3 0 ∧
      ∃ y, (⟨3, 0⟩ : Span ℤ).rescale? ⟨0, 4⟩ 2 = some y ∧
        ((⟨0, 4⟩ : Span ℤ).rescale? ⟨3, 0⟩ y = some 2 ∨
          (2 : ℤ) ≠ 3 ∧ (⟨0, 4⟩ : Span ℤ).rescale? ⟨3, 0⟩ y = some (2 - direction ⟨3, 0⟩)) :=
  have width : (3 : ℤ) ≠ 0 := by decide
  have wider : |(0 : ℤ) - 3| ≤ |(4 : ℤ) - 0| := by decide
  have sourceFits : InWidth wordBits 3 ∧ InWidth wordBits 0 := by decide
  have destFits : InWidth wordBits 0 ∧ InWidth wordBits 4 := by decide
  have between : (2 : ℤ) ∈ Set.uIcc 3 0 := Set.mem_uIcc.mpr (by decide)
  ⟨width, wider, sourceFits, destFits, between,
    rescale_rescale ⟨3, 0⟩ ⟨0, 4⟩ width wider sourceFits destFits between⟩

example : (⟨3, 0⟩ : Span ℤ).rescale? ⟨0, 4⟩ 2 = some 1 ∧
    (⟨0, 4⟩ : Span ℤ).rescale? ⟨3, 0⟩ 1 = some 3 := by
  decide

end FlightMath.Span
