import FlightMath.Proofs.Median.Correct
import FlightMath.Proofs.Rounding.Agreement

/-! # Converting samples and taking their median

Windows are converted sample by sample before anything is compared: numbers to integers by
truncation, 64-bit values to 32-bit ones by rounding. Either conversion may identify samples, but
neither reverses their order. So the median of the converted window is the converted median of the
window as it came, though the network may end on another sample with the same image.
-/

namespace FlightMath

/-! ## Conversions keep the order -/

private theorem Double.toSingle_ne_nan {x : Double} (number : x ≠ .nan) : x.toSingle ≠ .nan :=
  Binary.convert_ne_nan number

private theorem Double.toSingle_le_toSingle {x y : Double} (le : x ≤ y) : x.toSingle ≤ y.toSingle :=
  Binary.convert_le_convert le

namespace Binary

/-- Integers of at most fifty-three bits are rounded to 32 bits only once. -/
theorem toSingle_ofInt {value : ℤ} (exact : |value| ≤ 2 ^ 53) :
    Double.toSingle (ofInt value) = ofInt value := by
  have small : value.natAbs ≤ 2 ^ 53 := by
    rw [Int.abs_eq_natAbs] at exact
    exact_mod_cast exact
  have fits : FloatFormat.double.Fits (value.natAbs * 2 ^ FloatFormat.double.unitExponent) := by
    refine ⟨?_, FloatFormat.double.onGrid_mul_two_pow _ small⟩
    refine (Nat.mul_le_mul_right _ small).trans_lt ?_
    rw [← Nat.pow_add]
    exact Nat.pow_lt_pow_right Nat.one_lt_two (by decide)
  rw [ofInt, round_one fits, Double.toSingle, convert_finite, Nat.mul_right_comm,
    round_mul_self _ _ (Nat.two_pow_pos _), ofInt]

private theorem ofInt_le_ofInt {F : FloatFormat} {a b : ℤ} (le : a ≤ b) :
    (ofInt a : Binary F) ≤ ofInt b :=
  (rounds_ofInt a).le (rounds_ofInt b) (by exact_mod_cast le)

/-- Only zero is rounded to a zero. -/
private theorem eq_zero_of_ofInt {value : ℤ} (zero : (ofInt value : Single).HasValue 0) :
    value = 0 := by
  have nearest := ((rounds_ofInt value).hasValue_of_isFinite zero.1).2.symm.trans zero.2
  by_contra nonzero
  rcases lt_or_gt_of_ne nonzero with negative | positive
  · have below : FloatFormat.single.nearest value ≤ -1 :=
      FloatFormat.nearest_le FloatFormat.grid_one.neg
        (by exact_mod_cast Int.le_sub_one_of_lt negative)
    linarith
  · have above : 1 ≤ FloatFormat.single.nearest value :=
      FloatFormat.le_nearest FloatFormat.grid_one (by exact_mod_cast positive)
    linarith

/-- Integers that are rounded to equal values are rounded to one, a zero having no sign then. -/
private theorem ofInt_eq_of_valueEq {a b : ℤ} (equal : (ofInt a : Single).ValueEq (ofInt b)) :
    (ofInt a : Single) = ofInt b := by
  rcases (show (ofInt a : Single).Agrees (ofInt b) from .inl equal).eq_or_zero with
    same | ⟨negative, otherNegative, left, right⟩
  · exact same
  · have zero (sign : Bool) : (zero sign : Single).HasValue 0 := by
      cases sign <;> decide +kernel
    have first : a = 0 := eq_zero_of_ofInt (by rw [left]; exact zero negative)
    have second : b = 0 := eq_zero_of_ofInt (by rw [right]; exact zero otherNegative)
    rw [first, second]

end Binary

/-! ## Maps on windows -/

/-- Images under a map that does not reverse the order of values. -/
theorem respects_of_le {F : FloatFormat} {n : ℕ} {window : Vector (Binary F) n}
    {f : Binary F → ℤ} (numbers : ∀ x ∈ window, x ≠ .nan)
    (monotone : ∀ x y, x ≤ y → f x ≤ f y) : Network.Respects f window := by
  intro a memA b memB
  constructor
  · intro less
    by_contra missed
    have le := Binary.le_of_not_lt (numbers a memA) (numbers b memB) missed
    exact (monotone a b le).not_gt less
  · intro less
    exact (monotone b a (Binary.le_of_lt less)).lt_or_eq

/-- Integers as 32-bit values. -/
theorem respects_ofInt {n : ℕ} (window : Vector ℤ n) :
    Network.Respects (Binary.ofInt : ℤ → Single) window := by
  intro a _ b _
  constructor
  · intro less
    by_contra missed
    exact Binary.not_lt_of_le (Binary.ofInt_le_ofInt (not_lt.mp missed)) less
  · intro less
    have le : (Binary.ofInt b : Single) ≤ Binary.ofInt a := Binary.ofInt_le_ofInt less.le
    by_cases strict : (Binary.ofInt b : Single) < Binary.ofInt a
    · exact .inl strict
    · have numbers := Binary.ne_nan_of_le le
      have ge := Binary.le_of_not_lt numbers.2 numbers.1 strict
      exact .inr (Binary.ofInt_eq_of_valueEq (Binary.valueEq_of_le_of_le le ge))

section Windows

variable {size : WindowSize}

/-- The median commutes with a map that keeps the order of the window's samples. -/
theorem medianOf?_toList_map {α β : Type} [LT α] [DecidableLT α] [LT β] [DecidableLT β]
    {f : α → β} {window : Vector α size.toNat} (respects : Network.Respects f window) :
    medianOf? size (window.toList.map f) = .ok (f (size.network.select window)) := by
  rw [← Vector.toList_map, medianOf?_toList, Network.select_map _ respects]

/-- The median of rounded samples is the rounded median, but for the sign of a zero. -/
theorem singleMedianOf?_toList {window : Vector Double size.toNat}
    (numbers : ∀ x ∈ window, x ≠ .nan) :
    ∃ median, singleMedianOf? size window.toList = .ok median ∧
      median.ValueEq (size.network.select window).toSingle := by
  have rounded : ∀ x ∈ window.map Double.toSingle, x ≠ .nan := by
    intro x mem
    obtain ⟨sample, member, rfl⟩ := Vector.mem_map.mp mem
    exact Double.toSingle_ne_nan (numbers sample member)
  have places : Network.Respects (fun x : Double => x.toSingle.place) window := by
    apply respects_of_le numbers
    intro x y le
    have keeps := Double.toSingle_le_toSingle le
    have numbers := Binary.ne_nan_of_le keeps
    exact (Binary.le_iff_place numbers.1 numbers.2).mp keeps
  refine ⟨size.network.select (window.map Double.toSingle), ?_, ?_⟩
  · rw [singleMedianOf?, ← Vector.toList_map, medianOf?_toList]
  · rw [Binary.valueEq_iff_place (rounded _ (size.network.select_mem _))
      (Double.toSingle_ne_nan (numbers _ (size.network.select_mem window))),
      ← Network.select_map _ (respects_place rounded), Vector.map_map]
    exact Network.select_map _ places

/-- The median of truncated samples is the truncated median. -/
theorem intMedianOf?_real {window : Vector Double size.toNat}
    (finite : ∀ x ∈ window, x.isFinite = true) :
    intMedianOf? size (window.toList.map .real) =
      .ok (size.network.select window).wholePart := by
  have numbers : ∀ x ∈ window, x ≠ .nan := fun x mem =>
    Binary.ne_nan_of_isFinite (finite x mem)
  have truncated : truncateSamples (window.toList.map .real) =
      .ok (window.toList.map Binary.wholePart) := by
    apply truncateSamples_map
    intro x mem
    exact Binary.truncate_eq_wholePart (finite x (Vector.mem_toList_iff.mp mem))
  rw [intMedianOf?, truncated]
  exact medianOf?_toList_map
    (respects_of_le numbers fun x y => Binary.wholePart_le_wholePart)

/-- The median of integers as 64-bit values is the rounding of the integers' median. -/
theorem singleMedianOf?_ofInt {window : Vector ℤ size.toNat}
    (exact : ∀ value ∈ window, |value| ≤ 2 ^ 53) :
    singleMedianOf? size (window.toList.map Binary.ofInt) =
      .ok (Binary.ofInt (size.network.select window)) := by
  have rounded : (window.toList.map Binary.ofInt).map Double.toSingle =
      window.toList.map Binary.ofInt := by
    rw [List.map_map]
    apply List.map_congr_left
    intro value mem
    rw [Function.comp_apply, Binary.toSingle_ofInt (exact value (Vector.mem_toList_iff.mp mem))]
  rw [singleMedianOf?, rounded]
  exact medianOf?_toList_map (respects_ofInt window)

end Windows

/-! ## Median functions -/

/-- The 32-bit median of a window without NaN is the rounding of its middle entry, and the integer
median of a finite one is the truncation of the same entry. On integers that 64 bits hold exactly,
the 32-bit median is the rounding of the integer median. -/
theorem median_converted_middle (size : WindowSize) :
    (∀ values : List Double, values.length = size.toNat → (∀ x ∈ values, x ≠ .nan) →
      ∃ middle, (values.mergeSort fun x y => decide (x ≤ y))[size.toNat / 2]? = some middle ∧
        (∃ median, singleMedianOf? size values = .ok median ∧ singleMedian? values = .ok median ∧
          median.ValueEq middle.toSingle) ∧
        ((∀ x ∈ values, x.isFinite = true) → ∃ whole, middle.truncate = .ok whole ∧
          intMedianOf? size (values.map .real) = .ok whole ∧
          intMedian? (values.map .real) = .ok whole)) ∧
    ∀ values : List ℤ, values.length = size.toNat → (∀ value ∈ values, |value| ≤ 2 ^ 53) →
      ∃ middle, intMedianOf? size (values.map .int) = .ok middle ∧
        intMedian? (values.map .int) = .ok middle ∧
        singleMedianOf? size (values.map Binary.ofInt) = .ok (Binary.ofInt middle) ∧
        singleMedian? (values.map Binary.ofInt) = .ok (Binary.ofInt middle) := by
  constructor
  · intro values length numbers
    obtain ⟨window, rfl⟩ := WindowSize.exists_window length
    have numbers' : ∀ x ∈ window, x ≠ .nan := fun x mem =>
      numbers x (Vector.mem_toList_iff.mpr mem)
    obtain ⟨middle, found, equal⟩ := select_valueEq_middle size window numbers'
    obtain ⟨median, fixed, rounded⟩ := singleMedianOf?_toList numbers'
    refine ⟨middle, found, ⟨median, fixed, ?_, rounded.trans equal.convert⟩, fun finite => ?_⟩
    · rw [singleMedian?_of_length length, fixed]
    · have truncated := intMedianOf?_real fun x mem => finite x (Vector.mem_toList_iff.mpr mem)
      have member := List.mem_mergeSort.mp (List.mem_of_getElem? found)
      rw [equal.wholePart_eq] at truncated
      refine ⟨middle.wholePart, Binary.truncate_eq_wholePart (finite middle member), truncated, ?_⟩
      rw [intMedian?_of_length (by rw [List.length_map, length]), truncated]
  · intro values length exact
    obtain ⟨window, rfl⟩ := WindowSize.exists_window length
    have integers : intMedianOf? size (window.toList.map .int) =
        .ok (size.network.select window) := by
      rw [intMedianOf?, truncateSamples_int]
      exact medianOf?_toList size window
    have rounded := singleMedianOf?_ofInt fun value mem =>
      exact value (Vector.mem_toList_iff.mpr mem)
    refine ⟨size.network.select window, integers, ?_, rounded, ?_⟩
    · rw [intMedian?_of_length (by rw [List.length_map, length]), integers]
    · rw [singleMedian?_of_length (by rw [List.length_map, length]), rounded]

/-- Samples of which two are rounded to one value and the third overflows, and integers of which one
has more bits than 32-bit values do. -/
theorem median_converted_middle_collapsing :
    (∃ middle, ([16777217, -1e300, 16777216.75].mergeSort
        fun x y : Double => decide (x ≤ y))[1]? = some middle ∧
      (∃ median, singleMedian? [16777217, -1e300, 16777216.75] = .ok median ∧
        median.ValueEq middle.toSingle) ∧
      ∃ whole, middle.truncate = .ok whole ∧
        intMedian? ([16777217, -1e300, 16777216.75].map .real) = .ok whole) ∧
    ∃ middle, intMedian? ([9007199254740992, 16777217, -7].map .int) = .ok middle ∧
      singleMedian? ([9007199254740992, 16777217, -7].map Binary.ofInt) =
        .ok (Binary.ofInt middle) := by
  obtain ⟨middle, found, ⟨median, -, single, rounded⟩, truncated⟩ :=
    (median_converted_middle .three).1 [16777217, -1e300, 16777216.75] rfl (by decide +kernel)
  obtain ⟨whole, wholeEq, -, int⟩ := truncated (by decide +kernel)
  obtain ⟨middle', -, int', -, single'⟩ := (median_converted_middle .three).2
    [9007199254740992, 16777217, -7] rfl (by decide)
  exact ⟨⟨middle, found, ⟨median, single, rounded⟩, whole, wholeEq, int⟩, middle', int', single'⟩

end FlightMath
