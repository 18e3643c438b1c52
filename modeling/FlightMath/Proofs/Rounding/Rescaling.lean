import FlightMath.Proofs.Rounding.Agreement
import FlightMath.Proofs.Rounding.Order
import FlightMath.Span

/-! # Rescaling in 32-bit arithmetic

The map of one span onto another takes the offset from the start, multiplies it by the width of the
target, divides it by that of the source and adds the result to the target's start. If both spans
rise, or the target stands still, each of the four steps keeps the order. Distinct ends have a width
above zero, and the offset is finite, so that none of the steps gives NaN: the product may overflow,
but the quotient and the sum then stay infinite. If the source has no width, its quotient is never
finite.
-/

namespace FlightMath.Span

open Binary

variable {source dest : Span Single} {x x' : Single}

/-- The map takes the source along the target: the start to the start, no value between the ends to
NaN, and no value to an image below that of a lesser one. -/
structure Climbs (source dest : Span Single) : Prop where
  start : (source.rescaleSingle dest source.start).ValueEq dest.start
  number : ∀ x, source.start ≤ x → x ≤ source.stop → source.rescaleSingle dest x ≠ .nan
  mono : ∀ x x', source.start ≤ x → x ≤ x' → x' ≤ source.stop →
    source.rescaleSingle dest x ≤ source.rescaleSingle dest x'

/-! ## Widths and offsets -/

/-- The ends of a span of finite width are finite. -/
theorem exists_hasValue_ends {span : Span Single}
    (finite : (span.stop - span.start).isFinite = true) :
    ∃ a b, span.start.HasValue a ∧ span.stop.HasValue b := by
  obtain ⟨stop, start⟩ := isFinite_of_isFinite_sub finite
  exact ⟨_, _, hasValue_toRat start, hasValue_toRat stop⟩

/-- The width of a rising span is above zero, however near its ends are. -/
theorem exists_width_pos {span : Span Single} (rising : span.start < span.stop)
    (finite : (span.stop - span.start).isFinite = true) :
    ∃ width, (span.stop - span.start).HasValue width ∧ 0 < width := by
  obtain ⟨a, b, start, stop⟩ := exists_hasValue_ends finite
  exact ⟨_, (stop.rounds_sub start).hasValue_of_isFinite finite,
    stop.nearest_sub_pos start ((start.lt_iff stop).mp rising)⟩

/-- The offset of a value of the span is finite and not negative. -/
private theorem exists_offset {span : Span Single}
    (finite : (span.stop - span.start).isFinite = true) (lower : span.start ≤ x)
    (upper : x ≤ span.stop) : ∃ offset, (x - span.start).HasValue offset ∧ 0 ≤ offset := by
  obtain ⟨a, b, start, stop⟩ := exists_hasValue_ends finite
  have least : span.start - span.start ≤ x - span.start := start.sub_rising.le lower
  have greatest : x - span.start ≤ span.stop - span.start := start.sub_rising.le upper
  have none := hasValue_sub_self start
  have offset := hasValue_toRat (isFinite_of_between none.1 finite least greatest)
  exact ⟨_, offset, (none.le_iff offset).mp least⟩

/-! ## The map of a rising span -/

private theorem rescaleSingle_start (rising : source.start < source.stop)
    (finite : (source.stop - source.start).isFinite = true)
    (finite' : (dest.stop - dest.start).isFinite = true) :
    (source.rescaleSingle dest source.start).ValueEq dest.start := by
  obtain ⟨a, b, start, stop⟩ := exists_hasValue_ends finite
  obtain ⟨width, hasWidth, positive⟩ := exists_width_pos rising finite
  obtain ⟨c, d, destStart, destStop⟩ := exists_hasValue_ends finite'
  have zero : |(0 : ℚ)| ≤ FloatFormat.single.largest := by
    rw [abs_zero]
    exact (abs_nonneg a).trans start.abs_le_largest
  have product := (hasValue_toRat finite').rounds_mul (hasValue_sub_self start)
  rw [mul_zero] at product
  have quotient := (product.hasValue zero).rounds_div hasWidth positive.ne'
  rw [FloatFormat.nearest_zero, zero_div] at quotient
  have sum := (quotient.hasValue zero).rounds_add destStart
  rw [FloatFormat.nearest_zero, zero_add] at sum
  have image := sum.hasValue destStart.abs_le_largest
  rw [FloatFormat.nearest_of_grid destStart.grid] at image
  exact (image.valueEq_iff destStart).mpr rfl

/-- A greater value of a rising span has no lesser image, and neither image is NaN, though the
products may be infinite. -/
theorem rescaleSingle_le_rescaleSingle (rising : source.start < source.stop)
    (level : dest.start ≤ dest.stop) (finite : (source.stop - source.start).isFinite = true)
    (finite' : (dest.stop - dest.start).isFinite = true) (lower : source.start ≤ x)
    (le : x ≤ x') (upper : x' ≤ source.stop) :
    source.rescaleSingle dest x ≤ source.rescaleSingle dest x' := by
  obtain ⟨a, b, start, stop⟩ := exists_hasValue_ends finite
  obtain ⟨c, d, destStart, destStop⟩ := exists_hasValue_ends finite'
  obtain ⟨width, hasWidth, positive⟩ := exists_width_pos rising finite
  obtain ⟨factor, hasFactor, factorNonneg⟩ :=
    exists_offset finite' level (Binary.le_refl (ne_nan_of_isFinite destStop.1))
  obtain ⟨offset, hasOffset, -⟩ := exists_offset finite lower (Binary.le_trans le upper)
  obtain ⟨offset', hasOffset', -⟩ := exists_offset finite (Binary.le_trans lower le) upper
  have offsets : offset ≤ offset' := (hasOffset.le_iff hasOffset').mp (start.sub_rising.le le)
  have products := (hasFactor.rounds_mul hasOffset).le (hasFactor.rounds_mul hasOffset')
    (mul_le_mul_of_nonneg_left offsets factorNonneg)
  have quotients := (hasWidth.div_rising positive).le products
  exact destStart.add_rising.le quotients

/-! ## Sources without width -/

/-- The difference of equal values is a zero, or NaN at an infinity. -/
private theorem sub_of_valueEq {x y : Single} (equal : x.ValueEq y) :
    y - x = .nan ∨ (y - x).HasValue 0 := by
  rcases Agrees.eq_or_zero (.inl equal) with rfl | ⟨negative, otherNegative, rfl, rfl⟩
  · cases x with
    | nan => exact .inl rfl
    | infinite negative => cases negative <;> exact .inl rfl
    | finite negative units fits =>
      exact .inr (hasValue_sub_self (hasValue_finite negative units fits))
  · cases negative <;> cases otherNegative <;> exact .inr (by decide +kernel)

/-- A source without width has no finite image at all. -/
theorem isFinite_rescaleSingle_eq_false (equal : source.start.ValueEq source.stop)
    (dest : Span Single) (x : Single) : (source.rescaleSingle dest x).isFinite = false := by
  rw [rescaleSingle]
  generalize (dest.stop - dest.start) * (x - source.start) = product
  have quotient : (product / (source.stop - source.start)).isFinite = false := by
    rcases sub_of_valueEq equal with lost | zero
    · rw [lost, div_nan]
      rfl
    · exact zero.isFinite_div_eq_false product
  refine Bool.eq_false_iff.mpr fun finite => ?_
  rw [(isFinite_of_isFinite_add finite).1] at quotient
  cases quotient

/-! ## Both -/

/-- A rising span of finite width is taken along a target of finite width that does not fall. The
image under the map of a span without width is an infinity or NaN, whatever the other arguments
are. -/
theorem rescaleSingle_climbs_or_diverges (source dest : Span Single) :
    (source.start < source.stop → dest.start ≤ dest.stop →
      (source.stop - source.start).isFinite = true → (dest.stop - dest.start).isFinite = true →
        Climbs source dest) ∧
      (source.start.ValueEq source.stop →
        ∀ x, (source.rescaleSingle dest x).isFinite = false) := by
  refine ⟨fun rising level finite finite' => ⟨?_, ?_, ?_⟩, ?_⟩
  · exact rescaleSingle_start rising finite finite'
  · intro x lower upper
    have self := Binary.le_refl (ne_nan_of_le lower).2
    exact (ne_nan_of_le
      (rescaleSingle_le_rescaleSingle rising level finite finite' lower self upper)).1
  · intro x x' lower le upper
    exact rescaleSingle_le_rescaleSingle rising level finite finite' lower le upper
  · intro equal x
    exact isFinite_rescaleSingle_eq_false equal dest x

/-- Spans whose widths have an infinite product, and a source between the two zeros. -/
theorem rescaleSingle_climbs_or_diverges_overflowing :
    (-1e30 : Single) < 1e30 ∧ (0 : Single) ≤ 1e30 ∧ ((1e30 : Single) - -1e30).isFinite = true ∧
      ((1e30 : Single) - 0).isFinite = true ∧ Climbs ⟨-1e30, 1e30⟩ ⟨0, 1e30⟩ ∧
      (0 : Single).ValueEq (zero true) ∧
      (rescaleSingle ⟨0, zero true⟩ ⟨0, 1e30⟩ 5).isFinite = false := by
  have rising : (-1e30 : Single) < 1e30 := by decide +kernel
  have level : (0 : Single) ≤ 1e30 := by decide +kernel
  have finite : ((1e30 : Single) - -1e30).isFinite = true := by decide +kernel
  have finite' : ((1e30 : Single) - 0).isFinite = true := by decide +kernel
  have equal : (0 : Single).ValueEq (zero true) := by decide +kernel
  have climbs := (rescaleSingle_climbs_or_diverges ⟨-1e30, 1e30⟩ ⟨0, 1e30⟩).1 rising level finite
    finite'
  have diverges := (rescaleSingle_climbs_or_diverges ⟨0, zero true⟩ ⟨0, 1e30⟩).2 equal 5
  exact ⟨rising, level, finite, finite', climbs, equal, diverges⟩

example : rescaleSingle ⟨-1e30, 1e30⟩ ⟨0, 1e30⟩ 1e30 = .infinite false := by
  decide +kernel

end FlightMath.Span
