import FlightMath.Proofs.Rounding.Order
import FlightMath.Proofs.Statistics.Moments

/-! # The mean stays among the samples

On moderate samples the reported mean lies between the least and the greatest sample since the last
clear, and the reported variance and deviation are not negative. Both accumulators of the state
describe those samples as soon as they are read: each command keeps that, and so does every run.
-/

namespace FlightMath.Running

/-! ## The samples of a run -/

/-- The sample that a command adds. -/
def Command.sample? : Command → Option Single
  | .push sample => some sample
  | .clear => none
  | .query => none

/-- All samples of a run, cleared or not. -/
def pushed (commands : List Command) : List Single :=
  commands.filterMap Command.sample?

/-- The samples that a command leaves. -/
def retain (samples : List Single) : Command → List Single
  | .push sample => samples ++ [sample]
  | .clear => []
  | .query => samples

/-- The samples since the last clear. -/
def sinceClear (commands : List Command) : List Single :=
  commands.foldl retain []

variable {state : Running} {samples : List Single}

/-- What a command leaves, with all later samples, is part of what there was. -/
theorem retain_append_sublist (samples : List Single) (command : Command) (rest : List Command) :
    (retain samples command ++ pushed rest).Sublist (samples ++ pushed (command :: rest)) := by
  cases command with
  | push sample =>
    rw [retain, List.append_assoc]
    exact List.Sublist.refl _
  | clear => exact List.sublist_append_right samples (pushed rest)
  | query => exact List.Sublist.refl _

private theorem foldl_retain_sublist (samples : List Single) (commands : List Command) :
    (commands.foldl retain samples).Sublist (samples ++ pushed commands) := by
  induction commands generalizing samples with
  | nil => exact List.sublist_append_left samples []
  | cons command rest ih =>
    exact (ih (retain samples command)).trans (retain_append_sublist samples command rest)

/-- What holds of every state without samples and is kept by each new sample holds after every
run, for the samples since the last clear. -/
theorem sinceClear_induction (property : Running → List Single → Prop)
    (fresh : ∀ state, state.count = 0 → property state [])
    (push : ∀ state samples sample, property state samples →
      property (state.push sample) (samples ++ [sample])) (commands : List Command) :
    property (empty.after commands) (sinceClear commands) := by
  induction commands using List.reverseRecOn with
  | nil => exact fresh empty rfl
  | append_singleton before command ih =>
    rw [after_append, sinceClear, List.foldl_append]
    cases command with
    | push sample => exact push _ _ sample ih
    | clear => exact fresh _ rfl
    | query => exact ih

/-! ## States that describe their samples -/

/-- The state counts the samples, and what may be read of it at that count describes them. -/
structure Describes (state : Running) (samples : List Single) : Prop where
  count : state.count = samples.length
  base : samples ≠ [] → state.base.Describes samples
  center : samples ≠ [] → state.latest.center = state.base.center
  spread : 1 < samples.length → state.latest.spread = state.base.spread

/-- Without samples nothing is read. -/
theorem describes_nil (zero : state.count = 0) : state.Describes [] where
  count := zero
  base nonempty := absurd rfl nonempty
  center nonempty := absurd rfl nonempty
  spread several := absurd several (Nat.not_lt_zero 1)

theorem Describes.push (describe : state.Describes samples) {sample : Single}
    (moderate : Moderate (samples ++ [sample])) :
    (state.push sample).Describes (samples ++ [sample]) := by
  have few := moderate.few
  rw [List.length_append, List.length_singleton] at few
  by_cases zero : state.count = 0
  · have none : samples = [] := List.length_eq_zero_iff.mp (describe.count ▸ zero)
    subst none
    rw [push_of_count_eq_zero zero]
    exact ⟨rfl, fun _ => Moments.describes_singleton (moderate.finite sample (by simp)),
      fun _ => rfl, fun several => absurd several (Nat.lt_irrefl 1)⟩
  · have some : samples ≠ [] := fun none => zero (describe.count.trans (none ▸ rfl))
    have positive := List.length_pos_iff.mpr some
    rw [push_of_count_ne_zero zero, describe.count]
    exact ⟨by simp, fun _ => (describe.base some).extend moderate (by omega) (by omega),
      fun _ => rfl, fun _ => rfl⟩

theorem Describes.step (describe : state.Describes samples) {command : Command}
    (moderate : Moderate (retain samples command)) :
    (state.step command).Describes (retain samples command) := by
  cases command with
  | push sample => exact describe.push moderate
  | clear => exact describes_nil rfl
  | query => exact describe

/-- A run keeps describing the samples that its commands leave. -/
theorem Describes.after (describe : state.Describes samples) {commands : List Command}
    (moderate : Moderate (samples ++ pushed commands)) :
    (state.after commands).Describes (commands.foldl retain samples) := by
  induction commands generalizing state samples with
  | nil => exact describe
  | cons command rest ih =>
    have later := moderate.sublist (retain_append_sublist samples command rest)
    exact ih (describe.step (later.sublist (List.sublist_append_left _ _))) later

/-! ## What is reported -/

/-- The reported numbers are true to the samples. -/
structure Faithful (state : Running) (samples : List Single) : Prop where
  mean : ∃ low ∈ samples, ∃ high ∈ samples,
    (∀ sample ∈ samples, low ≤ sample ∧ sample ≤ high) ∧ low ≤ state.mean ∧ state.mean ≤ high
  variance : 0 ≤ state.variance
  standardDeviation : 0 ≤ state.standardDeviation
  constant : ∀ value, (∀ sample ∈ samples, sample.ValueEq value) →
    state.mean.ValueEq value ∧ state.variance = 0

/-- Nonempty samples have a least and a greatest one. -/
theorem exists_least_greatest (moderate : Moderate samples) (nonempty : samples ≠ []) :
    ∃ low ∈ samples, ∃ high ∈ samples, ∀ sample ∈ samples, low ≤ sample ∧ sample ≤ high := by
  have number (sample : Single) (mem : sample ∈ samples) : sample ≠ .nan :=
    Binary.ne_nan_of_isFinite (moderate.finite sample mem)
  obtain ⟨first, firstMem⟩ := List.exists_mem_of_ne_nil samples nonempty
  obtain ⟨low, lowMem, high, highMem, between⟩ :=
    Binary.exists_least_greatest ⟨first, firstMem, number first firstMem⟩
  exact ⟨low, lowMem, high, highMem, fun sample mem => between sample mem (number sample mem)⟩

theorem Describes.mean_eq (describe : state.Describes samples) (nonempty : samples ≠ []) :
    state.mean = state.base.center := by
  have counted : state.count ≠ 0 := by
    rw [describe.count]
    exact (List.length_pos_iff.mpr nonempty).ne'
  rw [mean, if_neg counted, describe.center nonempty]

/-- The divisor of the variance is at least one. -/
theorem Describes.exists_hasValue_divisor (describe : state.Describes samples)
    (moderate : Moderate samples) (several : 1 < state.count) :
    ∃ divisor, (Single.ofCount (state.count - 1)).HasValue divisor ∧ 0 < divisor := by
  have few := moderate.few
  rw [← describe.count] at few
  have positive : 1 ≤ state.count - 1 := by omega
  obtain ⟨divisor, value, least⟩ :=
    Binary.exists_hasValue_ofCount positive (by norm_num) (by omega)
  rw [Nat.cast_one] at least
  exact ⟨divisor, value, by linarith⟩

theorem Describes.zero_le_variance (describe : state.Describes samples)
    (moderate : Moderate samples) (nonempty : samples ≠ []) : 0 ≤ state.variance := by
  unfold variance
  split
  · next several =>
    obtain ⟨divisor, value, positive⟩ := describe.exists_hasValue_divisor moderate several
    rw [describe.spread (describe.count ▸ several)]
    exact Binary.zero_le_div (describe.base nonempty).spread value positive
  · exact Binary.hasValue_zero.zero_le_iff.mpr le_rfl

theorem Describes.variance_eq_zero (describe : state.Describes samples)
    (moderate : Moderate samples) (nonempty : samples ≠ []) {value : ℚ}
    (same : ∀ sample ∈ samples, sample.toRat = value) : state.variance = 0 := by
  unfold variance
  split
  · next several =>
    obtain ⟨divisor, value, positive⟩ := describe.exists_hasValue_divisor moderate several
    rw [describe.spread (describe.count ▸ several),
      (describe.base nonempty).constant _ same]
    exact Binary.zero_div_of_pos value positive
  · rfl

/-- States that describe moderate samples report faithfully. -/
theorem Describes.faithful (describe : state.Describes samples) (moderate : Moderate samples)
    (nonempty : samples ≠ []) : state.Faithful samples := by
  have value {sample : Single} (mem : sample ∈ samples) : sample.HasValue sample.toRat :=
    Binary.hasValue_toRat (moderate.finite sample mem)
  have amid := (describe.base nonempty).center
  rw [← describe.mean_eq nonempty] at amid
  have mean := Binary.hasValue_toRat amid.finite
  have variance := describe.zero_le_variance moderate nonempty
  refine ⟨?_, variance, Binary.zero_le_sqrt variance, fun common same => ?_⟩
  · obtain ⟨low, lowMem, high, highMem, between⟩ := exists_least_greatest moderate nonempty
    obtain ⟨below, belowMem, above⟩ := amid.above
    obtain ⟨beyond, beyondMem, below'⟩ := amid.below
    have least := ((value lowMem).le_iff (value belowMem)).mp (between below belowMem).1
    have greatest := ((value beyondMem).le_iff (value highMem)).mp (between beyond beyondMem).2
    exact ⟨low, lowMem, high, highMem, between,
      ((value lowMem).le_iff mean).mpr (least.trans above),
      (mean.le_iff (value highMem)).mpr (below'.trans greatest)⟩
  · obtain ⟨first, firstMem⟩ := List.exists_mem_of_ne_nil samples nonempty
    have equal : ∀ sample ∈ samples, sample.toRat = first.toRat := by
      intro sample mem
      exact ((value mem).valueEq_iff (value firstMem)).mp
        ((same sample mem).trans (same first firstMem).symm)
    have meanEq := (mean.valueEq_iff (value firstMem)).mpr (amid.toRat_eq equal)
    exact ⟨meanEq.trans (same first firstMem), describe.variance_eq_zero moderate nonempty equal⟩

/-- After each step of a run on moderate samples, with some of them since the last clear, the mean
lies among those, the variance and the deviation are not negative, and equal samples have their
value for a mean and no variance. -/
theorem faithful_sinceClear {commands steps : List Command} (moderate : Moderate (pushed commands))
    (ran : steps <+: commands) (nonempty : sinceClear steps ≠ []) :
    (empty.after steps).Faithful (sinceClear steps) := by
  have before : Moderate (pushed steps) := moderate.sublist (ran.filterMap _).sublist
  have since := before.sublist (foldl_retain_sublist [] steps)
  exact ((describes_nil rfl).after before).faithful since nonempty

/-- A run in which the squared deviations of the last two samples overflow. -/
def spreading : List Command :=
  [.push 3, .clear, .push 170141183460469231731687303715884105728, .query, .push 0]

theorem faithful_sinceClear_spreading : Moderate (pushed spreading) ∧ sinceClear spreading ≠ [] ∧
    (empty.after spreading).variance = .infinite false ∧
    (empty.after spreading).Faithful (sinceClear spreading) := by
  have moderate : Moderate (pushed spreading) :=
    ⟨by decide +kernel, by decide +kernel, by decide +kernel⟩
  exact ⟨moderate, by decide +kernel, by decide +kernel,
    faithful_sinceClear moderate List.prefix_rfl (by decide +kernel)⟩

end FlightMath.Running
