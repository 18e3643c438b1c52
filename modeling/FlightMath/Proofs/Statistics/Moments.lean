import FlightMath.Proofs.Rounding.Counts
import FlightMath.Proofs.Rounding.Sign
import FlightMath.Statistics.Running

/-! # One more sample

The center moves toward the new sample by a rounded share of a rounded deviation. With at least two
samples the share never passes the exact deviation, so the new center lies between the old one and
the sample, and the two deviations whose product is added to the spread have the same sign. The
product may overflow but is not negative.
-/

namespace FlightMath

open FloatFormat
open scoped Interval

/-! ## The rounded share of a deviation -/

/-- From two samples on, rounding twice does not carry a share past the whole deviation. A small
deviation is exact, and a large one leaves room for both errors between its half and itself. -/
private theorem nearest_share_mem_Icc {deviation count : ℚ} (nonneg : 0 ≤ deviation)
    (multiple : IsMultiple (-149) deviation) (several : 2 ≤ count) :
    single.nearest (single.nearest deviation / count) ∈ Set.Icc 0 deviation := by
  have rounded := single.nearest_nonneg nonneg
  have positive : 0 < count := by linarith
  refine ⟨single.nearest_nonneg (div_nonneg rounded positive.le), ?_⟩
  rcases le_or_gt deviation (2 ^ (-125 : ℤ)) with small | large
  · have grid : single.Grid deviation :=
      multiple.grid (by decide) (by rwa [abs_of_nonneg nonneg])
    rw [nearest_of_grid grid]
    exact nearest_le grid (div_le_self nonneg (by linarith))
  · have unit : (2 : ℚ) ^ (-125 : ℤ) = 2 ^ 25 * (1 / 2 ^ 150) := by norm_num
    have half : single.nearest deviation / count ≤ single.nearest deviation / 2 := by gcongr
    have share := single.nearest_nonneg (div_nonneg rounded positive.le)
    have first := abs_le.mp (Binary.abs_single_nearest_sub_le_mixed deviation)
    have second := abs_le.mp
      (Binary.abs_single_nearest_sub_le_mixed (single.nearest deviation / count))
    rw [abs_of_nonneg nonneg] at first
    rw [abs_of_nonneg (div_nonneg rounded positive.le)] at second
    rw [unit] at large
    linarith [first.2, second.2]

/-- The center moved by the rounded share of the rounded deviation of a sample. -/
def nextCenter (center sample count : ℚ) : ℚ :=
  single.nearest (center + single.nearest (single.nearest (sample - center) / count))

/-- The new center lies between the old one and the sample. -/
theorem nextCenter_mem_uIcc {x y : Single} {center sample count : ℚ}
    (hasCenter : x.HasValue center) (hasSample : y.HasValue sample) (several : 2 ≤ count) :
    nextCenter center sample count ∈ [[center, sample]] := by
  have deviation : IsMultiple (-149) (sample - center) :=
    hasSample.isMultiple.sub hasCenter.isMultiple
  rw [Set.mem_uIcc, nextCenter]
  rcases le_total center sample with up | down
  · have share := nearest_share_mem_Icc (sub_nonneg.mpr up) deviation several
    exact .inl ⟨le_nearest hasCenter.grid (by linarith [share.1]),
      nearest_le hasSample.grid (by linarith [share.2])⟩
  · have opposite : single.nearest (single.nearest (-(sample - center)) / count) =
        -single.nearest (single.nearest (sample - center) / count) := by
      rw [nearest_neg, neg_div, nearest_neg]
    have share := nearest_share_mem_Icc (by linarith) deviation.neg several
    rw [opposite] at share
    exact .inr ⟨le_nearest hasSample.grid (by linarith [share.2]),
      nearest_le hasCenter.grid (by linarith [share.1])⟩

/-! ## Moderate samples -/

/-- Finite samples with finite differences, and not too many of them. -/
structure Moderate (samples : List Single) : Prop where
  finite : ∀ sample ∈ samples, sample.isFinite = true
  difference : ∀ sample ∈ samples, ∀ other ∈ samples, (sample - other).isFinite = true
  few : samples.length < 2 ^ 100

theorem Moderate.sublist {samples more : List Single} (moderate : Moderate more)
    (sublist : samples.Sublist more) : Moderate samples where
  finite sample mem := moderate.finite sample (sublist.subset mem)
  difference sample mem other mem' :=
    moderate.difference sample (sublist.subset mem) other (sublist.subset mem')
  few := sublist.length_le.trans_lt moderate.few

/-- A finite value with samples at or below it and at or above it. -/
structure Amid (samples : List Single) (x : Single) : Prop where
  finite : x.isFinite = true
  above : ∃ low ∈ samples, low.toRat ≤ x.toRat
  below : ∃ high ∈ samples, x.toRat ≤ high.toRat

theorem Amid.mono {samples more : List Single} {x : Single} (amid : Amid samples x)
    (subset : samples ⊆ more) : Amid more x := by
  obtain ⟨low, lowMem, above⟩ := amid.above
  obtain ⟨high, highMem, below⟩ := amid.below
  exact ⟨amid.finite, ⟨low, subset lowMem, above⟩, ⟨high, subset highMem, below⟩⟩

theorem Amid.toRat_eq {samples : List Single} {x : Single} {value : ℚ} (amid : Amid samples x)
    (same : ∀ sample ∈ samples, sample.toRat = value) : x.toRat = value := by
  obtain ⟨low, lowMem, above⟩ := amid.above
  obtain ⟨high, highMem, below⟩ := amid.below
  exact le_antisymm (same high highMem ▸ below) (same low lowMem ▸ above)

/-- The deviation of a sample from a value amid the samples does not overflow. -/
theorem Amid.hasValue_sub {samples : List Single} {x sample : Single} (amid : Amid samples x)
    (moderate : Moderate samples) (mem : sample ∈ samples) :
    (sample - x).HasValue (single.nearest (sample.toRat - x.toRat)) := by
  obtain ⟨low, lowMem, above⟩ := amid.above
  obtain ⟨high, highMem, below⟩ := amid.below
  have value {other : Single} (mem' : other ∈ samples) : other.HasValue other.toRat :=
    Binary.hasValue_toRat (moderate.finite other mem')
  have bounded {other : Single} (mem' : other ∈ samples) :
      |single.nearest (sample.toRat - other.toRat)| ≤ single.largest :=
    (((value mem).rounds_sub (value mem')).hasValue_of_isFinite
      (moderate.difference sample mem other mem')).abs_le_largest
  refine ((value mem).rounds_sub (Binary.hasValue_toRat amid.finite)).hasValue_nearest ?_
  exact abs_le.mpr ⟨(abs_le.mp (bounded highMem)).1.trans (nearest_mono (by linarith)),
    (nearest_mono (by linarith)).trans (abs_le.mp (bounded lowMem)).2⟩

/-! ## Moments of samples -/

/-- A center amid the samples, and a spread that is not negative and vanishes if they are equal. -/
structure Moments.Describes (moments : Moments) (samples : List Single) : Prop where
  center : Amid samples moments.center
  spread : 0 ≤ moments.spread
  constant : ∀ value, (∀ sample ∈ samples, sample.toRat = value) → moments.spread = 0

variable {moments : Moments} {samples : List Single} {sample : Single} {count : ℕ}

theorem Moments.describes_singleton (finite : sample.isFinite = true) :
    Moments.Describes ⟨sample, 0⟩ [sample] where
  center := ⟨finite, ⟨sample, List.mem_singleton_self sample, le_rfl⟩,
    ⟨sample, List.mem_singleton_self sample, le_rfl⟩⟩
  spread := Binary.hasValue_zero.zero_le_iff.mpr le_rfl
  constant _ _ := rfl

/-- The new center of two samples or more, which lies between the old one and the sample. -/
theorem Moments.hasValue_center_extend (amid : Amid samples moments.center)
    (moderate : Moderate samples) (mem : sample ∈ samples) (several : 2 ≤ count)
    (few : count ≤ 2 ^ 100) :
    nextCenter moments.center.toRat sample.toRat (single.nearest (double.nearest count)) ∈
        [[moments.center.toRat, sample.toRat]] ∧
      (moments.extend count sample).center.HasValue
        (nextCenter moments.center.toRat sample.toRat (single.nearest (double.nearest count))) := by
  have center := Binary.hasValue_toRat amid.finite
  have value := Binary.hasValue_toRat (moderate.finite sample mem)
  have deviation := amid.hasValue_sub moderate mem
  have countValue := Binary.hasValue_ofCount few
  have several' : 2 ≤ single.nearest (double.nearest count) := by
    exact_mod_cast (Binary.nearest_nearest_mem_Icc several (by norm_num) few).2.1
  generalize single.nearest (double.nearest count) = divisor at *
  have between := nextCenter_mem_uIcc center value several'
  refine ⟨between, ?_⟩
  have smaller : |single.nearest (sample.toRat - moments.center.toRat) / divisor| ≤
      single.largest := by
    rw [abs_div, abs_of_pos (by linarith : 0 < divisor)]
    exact (div_le_self (abs_nonneg _) (by linarith)).trans deviation.abs_le_largest
  have share := (deviation.rounds_div countValue (by linarith)).hasValue smaller
  refine (center.rounds_add share).hasValue_nearest ?_
  rcases Set.mem_uIcc.mp between with ⟨lower, upper⟩ | ⟨lower, upper⟩
  · exact (abs_le_max_abs_abs lower upper).trans
      (max_le center.abs_le_largest value.abs_le_largest)
  · exact (abs_le_max_abs_abs lower upper).trans
      (max_le value.abs_le_largest center.abs_le_largest)

/-- What lies between a value amid the samples and one of them is amid the samples. -/
theorem Amid.of_mem_uIcc {x y : Single} {q : ℚ} (amid : Amid samples x) (mem : sample ∈ samples)
    (value : y.HasValue q) (between : q ∈ [[x.toRat, sample.toRat]]) : Amid samples y := by
  obtain ⟨low, lowMem, above⟩ := amid.above
  obtain ⟨high, highMem, below⟩ := amid.below
  rcases Set.mem_uIcc.mp between with ⟨lower, upper⟩ | ⟨lower, upper⟩
  · exact ⟨value.1, ⟨low, lowMem, value.2 ▸ above.trans lower⟩, ⟨sample, mem, value.2 ▸ upper⟩⟩
  · exact ⟨value.1, ⟨sample, mem, value.2 ▸ lower⟩, ⟨high, highMem, value.2 ▸ upper.trans below⟩⟩

/-- The deviations of the sample from both centers do not have opposite signs. -/
private theorem nearest_mul_nearest_nonneg {old new sample : ℚ} (between : new ∈ [[old, sample]]) :
    0 ≤ single.nearest (sample - old) * single.nearest (sample - new) := by
  have opposite (q : ℚ) (nonpos : q ≤ 0) : single.nearest q ≤ 0 :=
    nearest_zero single ▸ nearest_mono nonpos
  rcases Set.mem_uIcc.mp between with ⟨lower, upper⟩ | ⟨lower, upper⟩
  · exact mul_nonneg (single.nearest_nonneg (by linarith)) (single.nearest_nonneg (by linarith))
  · exact mul_nonneg_of_nonpos_of_nonpos (opposite _ (by linarith)) (opposite _ (by linarith))

/-- From two samples on, one more adds to the spread what is not negative. The deviations of equal
samples are zero, and so is their product, whatever its sign. -/
theorem Moments.Describes.extend (describe : moments.Describes samples)
    (moderate : Moderate (samples ++ [sample])) (several : 2 ≤ count) (few : count ≤ 2 ^ 100) :
    (moments.extend count sample).Describes (samples ++ [sample]) := by
  have mem : sample ∈ samples ++ [sample] := List.mem_append_right _ (List.mem_singleton_self _)
  have old := describe.center.mono (List.subset_append_left samples [sample])
  obtain ⟨between, value⟩ := Moments.hasValue_center_extend old moderate mem several few
  have new := old.of_mem_uIcc mem value between
  have product := (old.hasValue_sub moderate mem).rounds_mul (new.hasValue_sub moderate mem)
  refine ⟨new, ?_, fun constant same => ?_⟩
  · rw [value.2] at product
    exact Binary.zero_le_add describe.spread (product.zero_le (nearest_mul_nearest_nonneg between))
  · rw [same sample mem, old.toRat_eq same, new.toRat_eq same, sub_self, nearest_zero,
      mul_zero] at product
    have added := product.hasValue Binary.hasValue_zero.abs_le_largest
    rw [nearest_zero] at added
    have before := describe.constant constant fun s mem' => same s (List.mem_append_left _ mem')
    show moments.spread + _ = 0
    rw [before]
    exact Binary.zero_add_of_hasValue_zero added

end FlightMath
