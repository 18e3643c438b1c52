import FlightMath.Median.Window
import FlightMath.Proofs.Median.ZeroOne
import FlightMath.Proofs.Rounding.Conversion
import FlightMath.Proofs.Rounding.Order

/-! # Medians are middle entries of sorted windows

The middle entry of a sorted window of odd length is at least a threshold just when most entries
are, and so is what the network selects. Windows of 32-bit values without NaN follow through the
places of their entries, which identify the two zeros and nothing else.
-/

namespace FlightMath

/-! ## Sorted windows of integers -/

section Sorted

variable {sorted : List ℤ} (pairwise : sorted.Pairwise (· ≤ ·)) {k : ℕ} (bound : k < sorted.length)
  {threshold : ℤ}

include pairwise in
private theorem getElem_le_getElem {i j : ℕ} (left : i < sorted.length) (right : j < sorted.length)
    (le : i ≤ j) : sorted[i] ≤ sorted[j] := by
  rcases le.eq_or_lt with rfl | less
  · exact le_rfl
  · exact List.pairwise_iff_getElem.mp pairwise i j left right less

include pairwise in
/-- If an entry reaches the threshold, so do all after it. -/
private theorem le_countP_of_le_getElem (reached : threshold ≤ sorted[k]) :
    sorted.length - k ≤ sorted.countP fun entry => decide (threshold ≤ entry) := by
  have all : (sorted.drop k).countP (fun entry => decide (threshold ≤ entry)) =
      (sorted.drop k).length := by
    apply List.countP_eq_length.mpr
    intro entry member
    obtain ⟨i, inside, rfl⟩ := List.mem_iff_getElem.mp member
    rw [List.getElem_drop]
    apply decide_eq_true
    exact reached.trans (getElem_le_getElem pairwise bound _ (Nat.le_add_right k i))
  rw [← List.length_drop, ← all]
  exact (List.drop_sublist k sorted).countP_le

include pairwise in
/-- If an entry misses the threshold, so do all before it. -/
private theorem countP_lt_of_getElem_lt (missed : sorted[k] < threshold) :
    (sorted.countP fun entry => decide (threshold ≤ entry)) < sorted.length - k := by
  have none : (sorted.take (k + 1)).countP (fun entry => decide (threshold ≤ entry)) = 0 := by
    apply List.countP_eq_zero.mpr
    intro entry member
    obtain ⟨i, inside, rfl⟩ := List.mem_iff_getElem.mp member
    rw [List.length_take] at inside
    rw [List.getElem_take, decide_eq_true_eq, not_le]
    exact (getElem_le_getElem pairwise _ bound (by omega)).trans_lt missed
  have rest := (sorted.drop (k + 1)).countP_le_length (p := fun entry => decide (threshold ≤ entry))
  have total := congrArg (List.countP fun entry => decide (threshold ≤ entry))
    (List.take_append_drop (k + 1) sorted)
  rw [List.countP_append, none] at total
  rw [List.length_drop] at rest
  omega

include pairwise in
/-- An entry of a sorted list reaches a threshold just when as many do as stand from there on. -/
theorem le_getElem_iff_countP :
    threshold ≤ sorted[k] ↔
      sorted.length - k ≤ sorted.countP fun entry => decide (threshold ≤ entry) := by
  constructor
  · exact le_countP_of_le_getElem pairwise bound
  · intro count
    by_contra missed
    have fewer := countP_lt_of_getElem_lt pairwise bound (not_le.mp missed)
    omega

end Sorted

/-- Two integers that reach the same thresholds are equal. -/
private theorem eq_of_le_iff {a b : ℤ} (same : ∀ threshold, threshold ≤ a ↔ threshold ≤ b) :
    a = b :=
  le_antisymm ((same a).mp le_rfl) ((same b).mpr le_rfl)

private theorem WindowSize.toNat_odd (size : WindowSize) : size.toNat % 2 = 1 := by
  cases size <;> rfl

/-- Reaching a threshold is a map that networks commute with. -/
theorem respects_threshold {n : ℕ} (threshold : ℤ) (window : Vector ℤ n) :
    Network.Respects (fun entry => decide (threshold ≤ entry)) window := by
  intro a _ b _
  simp only [Bool.lt_iff, decide_eq_false_iff_not, decide_eq_true_eq, decide_eq_decide]
  omega

/-- The entry that a network selects reaches a threshold just when most entries do. -/
theorem le_select_iff (size : WindowSize) (window : Vector ℤ size.toNat) (threshold : ℤ) :
    threshold ≤ size.network.select window ↔
      size.toNat < 2 * window.toList.countP fun entry => decide (threshold ≤ entry) := by
  have majority := size.network_selectsMajority (window.map fun entry => decide (threshold ≤ entry))
  rw [Network.select_map _ (respects_threshold threshold window), Vector.toList_map,
    List.count_eq_countP, List.countP_map, decide_eq_decide] at majority
  rw [majority]
  have same : (fun entry : ℤ => decide (threshold ≤ entry)) =
      (· == true) ∘ fun entry => decide (threshold ≤ entry) := by
    funext entry
    simp
  rw [← same]

/-- A network selects the middle entry of the sorted window. -/
theorem getElem?_mergeSort (size : WindowSize) (window : Vector ℤ size.toNat) :
    window.toList.mergeSort[size.toNat / 2]? = some (size.network.select window) := by
  have perm := window.toList.mergeSort_perm fun a b => decide (a ≤ b)
  have sorted : window.toList.mergeSort.Pairwise (· ≤ ·) := List.pairwise_mergeSort' (· ≤ ·) _
  have length : window.toList.mergeSort.length = size.toNat := by
    rw [List.length_mergeSort, Vector.length_toList]
  have odd := size.toNat_odd
  have bound : size.toNat / 2 < window.toList.mergeSort.length := by omega
  rw [List.getElem?_eq_getElem bound, Option.some_inj]
  apply eq_of_le_iff
  intro threshold
  rw [le_getElem_iff_countP sorted bound, le_select_iff, perm.countP_eq, length]
  omega

/-! ## Windows of values -/

section Values

variable {F : FloatFormat}

/-- Places are ordered as the values are. -/
theorem respects_place {n : ℕ} {window : Vector (Binary F) n} (numbers : ∀ x ∈ window, x ≠ .nan) :
    Network.Respects Binary.place window := by
  intro a memA b memB
  have order := Binary.lt_iff_place (numbers b memB) (numbers a memA)
  exact ⟨order.mpr, fun less => .inl (order.mp less)⟩

/-- A network selects a value equal to the middle entry of the sorted window. -/
theorem select_valueEq_middle (size : WindowSize) (window : Vector (Binary F) size.toNat)
    (numbers : ∀ x ∈ window, x ≠ .nan) :
    ∃ middle, (window.toList.mergeSort fun x y => decide (x ≤ y))[size.toNat / 2]? = some middle ∧
      (size.network.select window).ValueEq middle := by
  have places := getElem?_mergeSort size (window.map Binary.place)
  rw [Network.select_map _ (respects_place numbers), Vector.toList_map] at places
  have sorted : (window.toList.mergeSort fun x y => decide (x ≤ y)).map Binary.place =
      (window.toList.map Binary.place).mergeSort := by
    apply List.map_mergeSort
    intro x memX y memY
    apply decide_eq_decide.mpr
    exact Binary.le_iff_place (numbers x (Vector.mem_toList_iff.mp memX))
      (numbers y (Vector.mem_toList_iff.mp memY))
  rw [← sorted, List.getElem?_map] at places
  obtain ⟨middle, found, same⟩ := Option.map_eq_some_iff.mp places
  refine ⟨middle, found, ?_⟩
  have member : middle ∈ window :=
    Vector.mem_toList_iff.mp (List.mem_mergeSort.mp (List.mem_of_getElem? found))
  exact (Binary.valueEq_iff_place (numbers _ (size.network.select_mem window))
    (numbers middle member)).mpr same.symm

end Values

/-! ## Median functions -/

/-- Samples that all have integer parts are truncated to these. -/
theorem truncateSamples_map {α : Type} {sample : α → Number} {whole : α → ℤ} {values : List α}
    (truncates : ∀ value ∈ values, (sample value).truncate = .ok (whole value)) :
    truncateSamples (values.map sample) = .ok (values.map whole) := by
  have truncated : (values.map sample).mapM Number.truncate = .ok (values.map whole) := by
    induction values with
    | nil => rfl
    | cons value rest ih =>
      have tail := ih fun other mem => truncates other (List.mem_cons_of_mem _ mem)
      rw [List.map_cons, List.mapM_cons, truncates value List.mem_cons_self, tail]
      rfl
  rw [truncateSamples, truncated]
  rfl

theorem truncateSamples_int (values : List ℤ) :
    truncateSamples (values.map Number.int) = .ok values := by
  rw [truncateSamples_map fun value _ => Number.truncate_int value, List.map_id']

private theorem intMedianOf?_int {size : WindowSize} {values : List ℤ}
    (length : values.length = size.toNat) :
    ∃ middle, values.mergeSort[size.toNat / 2]? = some middle ∧
      intMedianOf? size (values.map Number.int) = .ok middle := by
  refine ⟨_, getElem?_mergeSort size ⟨values.toArray, by simpa using length⟩, ?_⟩
  rw [intMedianOf?, truncateSamples_int]
  exact medianOf?_of_length length

private theorem singleMedianOf?_toDouble {size : WindowSize} {values : List Single}
    (length : values.length = size.toNat) (numbers : ∀ x ∈ values, x ≠ .nan) :
    ∃ median middle, (values.mergeSort fun x y => decide (x ≤ y))[size.toNat / 2]? = some middle ∧
      singleMedianOf? size (values.map Single.toDouble) = .ok median ∧ median.ValueEq middle := by
  have rounded : (values.map Single.toDouble).map Double.toSingle = values := by
    rw [List.map_map]
    exact List.map_id'' Single.toSingle_toDouble values
  obtain ⟨middle, found, equal⟩ := select_valueEq_middle size
    ⟨values.toArray, by simpa using length⟩ fun x mem => numbers x (by simpa using mem)
  refine ⟨_, middle, found, ?_, equal⟩
  rw [singleMedianOf?, rounded]
  exact medianOf?_of_length length

/-- Both median functions on integers return the middle entry of the sorted window, and both on
32-bit values other than NaN return a value equal to it. -/
theorem median_eq_sorted_middle (size : WindowSize) :
    (∀ values : List ℤ, values.length = size.toNat →
      ∃ middle, values.mergeSort[size.toNat / 2]? = some middle ∧
        intMedianOf? size (values.map Number.int) = .ok middle ∧
        intMedian? (values.map Number.int) = .ok middle) ∧
    ∀ values : List Single, values.length = size.toNat → (∀ x ∈ values, x ≠ .nan) →
      ∃ median middle, (values.mergeSort fun x y => decide (x ≤ y))[size.toNat / 2]? = some middle ∧
        singleMedianOf? size (values.map Single.toDouble) = .ok median ∧
        singleMedian? (values.map Single.toDouble) = .ok median ∧ median.ValueEq middle := by
  constructor
  · intro values length
    obtain ⟨middle, found, fixed⟩ := intMedianOf?_int length
    refine ⟨middle, found, fixed, ?_⟩
    rw [intMedian?, List.length_map, length, windowSize?_toNat]
    exact fixed
  · intro values length numbers
    obtain ⟨median, middle, found, fixed, equal⟩ := singleMedianOf?_toDouble length numbers
    refine ⟨median, middle, found, fixed, ?_, equal⟩
    rw [singleMedian?, List.length_map, length, windowSize?_toNat]
    exact fixed

/-- A window of three integers with a repetition, and one of both zeros and an infinity. -/
theorem median_eq_sorted_middle_three :
    (∃ middle, [4, -9, 4].mergeSort[1]? = some middle ∧
      intMedian? ([4, -9, 4].map Number.int) = .ok middle) ∧
    ∃ median middle, ([Binary.zero false, .infinite true, Binary.zero true].mergeSort
        fun x y => decide (x ≤ y))[1]? = some middle ∧
      singleMedian? ([Binary.zero false, .infinite true, Binary.zero true].map Single.toDouble) =
        .ok median ∧ median.ValueEq middle := by
  obtain ⟨middle, found, -, fixed⟩ := (median_eq_sorted_middle .three).1 [4, -9, 4] rfl
  obtain ⟨median, middle', found', -, fixed', equal⟩ := (median_eq_sorted_middle .three).2
    [Binary.zero false, .infinite true, Binary.zero true] rfl (by decide)
  exact ⟨⟨middle, found, fixed⟩, ⟨median, middle', found', fixed', equal⟩⟩

end FlightMath
