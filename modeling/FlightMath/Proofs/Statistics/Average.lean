import FlightMath.Proofs.Statistics.Bounds

/-! # The mean is near the average

Each sample moves the center by its share of the deviation, up to an error of one and a half times
`limit / 2 ^ 22 + 1 / 2 ^ 149` for samples within the limit. The share itself draws the error of the
samples before it together, so the total is below that amount for each sample. The count is rounded
as well, which costs no more than any other rounding.
-/

namespace FlightMath

open FloatFormat

/-- The exact average. -/
def average (samples : List Single) : ℚ :=
  (samples.map Binary.toRat).sum / samples.length

/-- The part of the error that each sample is accountable for. -/
def errorShare (limit : ℚ) : ℚ :=
  limit / 2 ^ 22 + 1 / 2 ^ 149

/-- Fewer than `2 ^ 64` finite samples within a limit. -/
structure Bounded (limit : ℚ) (samples : List Single) : Prop where
  finite : ∀ sample ∈ samples, sample.isFinite = true
  within : ∀ sample ∈ samples, |sample.toRat| ≤ limit
  few : samples.length < 2 ^ 64

variable {limit : ℚ} {samples : List Single} {sample x : Single}

theorem Bounded.sublist {more : List Single} (bounded : Bounded limit more)
    (sublist : samples.Sublist more) : Bounded limit samples where
  finite sample mem := bounded.finite sample (sublist.subset mem)
  within sample mem := bounded.within sample (sublist.subset mem)
  few := sublist.length_le.trans_lt bounded.few

theorem Bounded.moderate (bounded : Bounded limit samples) (le : limit ≤ 2 ^ 126) :
    Moderate samples where
  finite := bounded.finite
  difference sample mem other mem' := by
    have value := Binary.hasValue_toRat (bounded.finite sample mem)
    have value' := Binary.hasValue_toRat (bounded.finite other mem')
    have within := bounded.within sample mem
    have within' := bounded.within other mem'
    have range : |sample.toRat - other.toRat| ≤ 2 ^ 127 := (abs_sub _ _).trans (by linarith)
    exact (value.sub value' (Binary.single_le_largest (by norm_num) range)).1
  few := bounded.few.trans (Nat.pow_lt_pow_right Nat.one_lt_two (by norm_num))

theorem Amid.abs_toRat_le (amid : Amid samples x) (bounded : Bounded limit samples) :
    |x.toRat| ≤ limit := by
  obtain ⟨low, lowMem, above⟩ := amid.above
  obtain ⟨high, highMem, below⟩ := amid.below
  exact abs_le.mpr ⟨(abs_le.mp (bounded.within low lowMem)).1.trans above,
    below.trans (abs_le.mp (bounded.within high highMem)).2⟩

/-! ## One step -/

/-- The center after a sample, against the exact one from the same old center. The deviation, its
share and the sum are rounded, and each of these errors takes in those before it. -/
private theorem abs_nextCenter_sub_le {center value divisor count : ℚ} (old : |center| ≤ limit)
    (new : |value| ≤ limit) (several : 2 ≤ divisor) (several' : 2 ≤ count)
    (close : |divisor - count| ≤ count / 2 ^ 23) :
    |nextCenter center value divisor - (center + (value - center) / count)| ≤
      3 / 2 * errorShare limit := by
  have positive : 0 < count := by linarith
  have nonneg : 0 ≤ limit := (abs_nonneg _).trans old
  have size : |value - center| ≤ 2 * limit := (abs_sub _ _).trans (by linarith)
  have exactSize : |center + (value - center) / count| ≤ limit := by
    have weights : center + (value - center) / count =
        (1 - 1 / count) * center + 1 / count * value := by
      field_simp
      ring
    have weight : 0 ≤ 1 / count := by positivity
    have weight' : 0 ≤ 1 - 1 / count := by
      rw [sub_nonneg, div_le_one positive]
      linarith
    rw [weights]
    refine (abs_add_le _ _).trans ?_
    rw [abs_mul, abs_mul, abs_of_nonneg weight, abs_of_nonneg weight']
    nlinarith
  unfold nextCenter errorShare
  generalize value - center = deviation at *
  have deviationError := Binary.abs_single_nearest_sub_le_mixed deviation
  have quotient := Binary.abs_div_sub_div_le deviationError close two_pos several positive.ne'
  have slip : |deviation / count| * (count / 2 ^ 23) = |deviation| / 2 ^ 23 := by
    rw [abs_div, abs_of_pos positive]
    field_simp
  rw [slip] at quotient
  have shareSize : |deviation / count| ≤ limit := by
    rw [abs_div, abs_of_pos positive, div_le_iff₀ positive]
    nlinarith
  have shareError := Binary.abs_single_nearest_sub_le_mixed (single.nearest deviation / divisor)
  have roundedSize := abs_sub_abs_le_abs_sub (single.nearest deviation / divisor)
    (deviation / count)
  generalize single.nearest deviation / divisor = share at *
  have moved := (abs_sub_le (single.nearest share) share (deviation / count)).trans
    (add_le_add shareError quotient)
  have sumError := Binary.abs_single_nearest_sub_le_mixed (center + single.nearest share)
  have sumSize := abs_sub_abs_le_abs_sub (center + single.nearest share)
    (center + deviation / count)
  have total := abs_sub_le (single.nearest (center + single.nearest share))
    (center + single.nearest share) (center + deviation / count)
  rw [add_sub_add_left_eq_sub] at sumSize total
  linarith

/-! ## The average -/

private theorem average_append_singleton (nonempty : samples ≠ []) :
    average (samples ++ [sample]) =
      average samples + (sample.toRat - average samples) / (samples.length + 1) := by
  have positive : (samples.length : ℚ) ≠ 0 := by
    exact_mod_cast (List.length_pos_iff.mpr nonempty).ne'
  simp only [average, List.map_append, List.map_singleton, List.sum_append, List.sum_singleton,
    List.length_append, List.length_singleton]
  push_cast
  field_simp
  ring

/-- A step with an error of one and a half shares adds no more than one share to the total. -/
private theorem abs_sub_step_le {old new center value share : ℚ} {count : ℕ} (positive : 1 ≤ count)
    (before : |old - center| ≤ count * share)
    (step : |new - (old + (value - old) / (count + 1))| ≤ 3 / 2 * share) :
    |new - (center + (value - center) / (count + 1))| ≤ (count + 1) * share := by
  have one : (1 : ℚ) ≤ count := by exact_mod_cast positive
  have nonneg : 0 ≤ share := by linarith [(abs_nonneg _).trans step]
  have split : new - (center + (value - center) / (count + 1)) =
      (new - (old + (value - old) / (count + 1))) + count / (count + 1) * (old - center) := by
    field_simp
    ring
  have contracted : (count : ℚ) / (count + 1) * count ≤ count - 1 / 2 := by
    rw [div_mul_eq_mul_div, div_le_iff₀ (by linarith)]
    nlinarith
  have drawn : |(count : ℚ) / (count + 1) * (old - center)| ≤ (count - 1 / 2) * share := by
    rw [abs_mul, abs_of_nonneg (by positivity)]
    calc (count : ℚ) / (count + 1) * |old - center|
        ≤ count / (count + 1) * (count * share) := by gcongr
      _ = count / (count + 1) * count * share := by ring
      _ ≤ (count - 1 / 2) * share := by gcongr
  rw [split]
  refine (abs_add_le _ _).trans ((add_le_add step drawn).trans_eq ?_)
  ring

/-! ## All steps -/

namespace Running

variable {state : Running}

/-- The state describes the samples, and its center is near their average. -/
structure Averages (limit : ℚ) (state : Running) (samples : List Single) : Prop
    extends Describes state samples where
  near : samples ≠ [] →
    |state.base.center.toRat - average samples| ≤ samples.length * errorShare limit

private theorem averages_nil (zero : state.count = 0) : state.Averages limit [] :=
  ⟨describes_nil zero, fun nonempty => absurd rfl nonempty⟩

/-- The first sample is its own average, and each later one adds a share to the error. -/
theorem Averages.push (averages : state.Averages limit samples) (le : limit ≤ 2 ^ 126)
    (bounded : Bounded limit (samples ++ [sample])) :
    (state.push sample).Averages limit (samples ++ [sample]) := by
  have moderate := bounded.moderate le
  have within := bounded.within sample (by simp)
  refine ⟨averages.toDescribes.push moderate, fun _ => ?_⟩
  by_cases zero : state.count = 0
  · have none : samples = [] := List.length_eq_zero_iff.mp (averages.count ▸ zero)
    subst none
    rw [push_of_count_eq_zero zero]
    have share : 0 ≤ errorShare limit := by
      have nonneg := (abs_nonneg _).trans within
      unfold errorShare
      positivity
    simpa [average] using share
  · have some : samples ≠ [] := fun none => zero (averages.count.trans (none ▸ rfl))
    have positive := List.length_pos_iff.mpr some
    have few := bounded.few
    rw [List.length_append, List.length_singleton] at few
    have before := bounded.sublist (List.sublist_append_left samples [sample])
    have old := (averages.base some).center
    have value := (Moments.hasValue_center_extend
      (old.mono (List.subset_append_left samples [sample])) moderate
      (List.mem_append_right samples (List.mem_singleton_self sample))
      (show 2 ≤ samples.length + 1 by omega) (by omega)).2
    have divisor := (Binary.nearest_nearest_mem_Icc (show 2 ≤ samples.length + 1 by omega)
      (by norm_num) (by omega)).2.1
    have step := abs_nextCenter_sub_le (old.abs_toRat_le before) within
      (by exact_mod_cast divisor) (by exact_mod_cast Nat.succ_le_succ positive)
      (Binary.abs_nearest_nearest_sub_le (Nat.le_add_left 1 samples.length))
    rw [push_of_count_ne_zero zero, averages.count, average_append_singleton some, value.2]
    push_cast at step ⊢
    rw [List.length_append, List.length_singleton]
    push_cast
    exact abs_sub_step_le positive (averages.near some) step

/-- After any run, the mean of the samples since the last clear is near their average, whatever came
before the clear. -/
theorem mean_near_average {commands : List Command} (le : limit ≤ 2 ^ 126)
    (bounded : Bounded limit (sinceClear commands)) (nonempty : sinceClear commands ≠ []) :
    (empty.after commands).mean.Near (average (sinceClear commands))
      ((sinceClear commands).length * (limit / 2 ^ 22 + 1 / 2 ^ 149)) := by
  have averages := sinceClear_induction
    (fun state samples => Bounded limit samples → state.Averages limit samples)
    (fun _ zero _ => averages_nil zero)
    (fun _ samples sample before bounded => (before (bounded.sublist
      (List.sublist_append_left samples [sample]))).push le bounded) commands bounded
  rw [averages.mean_eq nonempty]
  exact ⟨(averages.base nonempty).center.finite, averages.near nonempty⟩

/-- A run in which a sample that is not a number is cleared, and the mean swings over the whole
range of the others. -/
def swinging : List Command :=
  [.push .nan, .clear, .push 85070591730234615865843651857942052864, .query,
    .push (-85070591730234615865843651857942052864), .push 3]

theorem mean_near_average_swinging : Bounded (2 ^ 126) (sinceClear swinging) ∧
    sinceClear swinging ≠ [] ∧
    (empty.after swinging).mean.Near (average (sinceClear swinging))
      (3 * (2 ^ 126 / 2 ^ 22 + 1 / 2 ^ 149)) := by
  have bounded : Bounded (2 ^ 126) (sinceClear swinging) :=
    ⟨by decide +kernel, by decide +kernel, by decide +kernel⟩
  exact ⟨bounded, by decide +kernel, mean_near_average le_rfl bounded (by decide +kernel)⟩

end Running

end FlightMath
