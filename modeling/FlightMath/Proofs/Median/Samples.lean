import FlightMath.Median.Window
import FlightMath.Proofs.Rounding.Order

/-! # Medians are samples

A comparison with NaN always fails, so with NaN among its samples a window is ordered by nothing and
its median is not a middle entry. The network still only exchanges entries, whatever the comparisons
answer: what it leaves is the window of rounded samples in another order, and the median is one of
these samples.
-/

namespace FlightMath

namespace Binary

variable {F : FloatFormat} {values : List (Binary F)} {x : Binary F}

/-- The value lies between the least and the greatest of the listed values other than NaN. -/
def InRange (values : List (Binary F)) (x : Binary F) : Prop :=
  ∃ least ∈ values, ∃ greatest ∈ values,
    (∀ y ∈ values, y ≠ .nan → least ≤ y ∧ y ≤ greatest) ∧ least ≤ x ∧ x ≤ greatest

/-- A listed value is NaN or lies in the range of the list. -/
private theorem eq_nan_or_inRange (mem : x ∈ values) : x = .nan ∨ InRange values x := by
  by_cases number : x = .nan
  · exact .inl number
  · obtain ⟨least, leastMem, greatest, greatestMem, between⟩ :=
      exists_least_greatest ⟨x, mem, number⟩
    exact .inr ⟨least, leastMem, greatest, greatestMem, between, between x mem number⟩

end Binary

/-- The network only rearranges the rounded samples of a window, NaN and infinities among them, and
the 32-bit median exists and is one of them: NaN, or a value in the range of the others. -/
theorem singleMedian_mem_samples (size : WindowSize) (samples : List Double)
    (length : samples.length = size.toNat) :
    let inputs := samples.map Double.toSingle
    ∃ window median, size.window? inputs = .ok window ∧
      (size.network.run window).toList.Perm inputs ∧
      (size.network.run window)[size.network.middle] = median ∧
      singleMedianOf? size samples = .ok median ∧ singleMedian? samples = .ok median ∧
      median ∈ inputs ∧ (median = .nan ∨ Binary.InRange inputs median) := by
  intro inputs
  have inputsLength : inputs.length = size.toNat := by rw [List.length_map, length]
  obtain ⟨window, same⟩ := WindowSize.exists_window inputsLength
  have fixed : singleMedianOf? size samples = .ok (size.network.select window) := by
    rw [singleMedianOf?, ← medianOf?_toList, same]
  have member : size.network.select window ∈ inputs := by
    rw [← same]
    exact Vector.mem_toList_iff.mpr (size.network.select_mem window)
  refine ⟨window, size.network.select window, ?_, ?_, rfl, fixed, ?_, member,
    Binary.eq_nan_or_inRange member⟩
  · rw [← same, size.window?_toList]
  · rw [← same]
    exact (size.network.run_perm window).toList
  · rw [singleMedian?_of_length length, fixed]

/-- A window in which two NaNs stand between values that are out of order, and one sample is rounded
to a zero. -/
theorem singleMedian_mem_samples_unordered :
    let inputs := [Binary.infinite false, .nan, Binary.zero true, .nan, 1e-60].map Double.toSingle
    ∃ median, singleMedian? [Binary.infinite false, .nan, Binary.zero true, .nan, 1e-60] =
        .ok median ∧
      median ∈ inputs ∧ (median = .nan ∨ Binary.InRange inputs median) := by
  intro inputs
  obtain ⟨window, median, -, -, -, -, found, member, range⟩ :=
    singleMedian_mem_samples .five [Binary.infinite false, .nan, Binary.zero true, .nan, 1e-60] rfl
  exact ⟨median, found, member, range⟩

end FlightMath
