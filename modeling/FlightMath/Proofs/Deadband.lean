import FlightMath.Deadband
import FlightMath.Proofs.Rounding.Order
import Mathlib.Algebra.Order.Group.MinMax
import Mathlib.Tactic.Linarith

/-! # Deadbands are soft thresholds

A deadband takes a value to the number that is nearest to zero among those within its width of the
value. In exact arithmetic this is odd, never falls and never rises faster than the value. The
32-bit rule rounds that number once and keeps the infinities, so the order survives the rounding.
The number is no larger than the value, so it never overflows; and a value outside the band is a
unit at least away from its edge, so it is never rounded to zero.
-/

namespace FlightMath.Deadband

/-- The laws of a threshold of some width: it takes numbers to numbers, keeps their order, is odd,
moves no number away from zero or past it, and is zero exactly within the width. -/
structure SoftThreshold {α : Type} [LE α] [Neg α] [OfNat α 0] (isNumber : α → Prop)
    (same : α → α → Prop) (size : α → α) (width : α) (threshold : α → α) : Prop where
  number : ∀ v, isNumber v → isNumber (threshold v)
  mono : ∀ v v', v ≤ v' → threshold v ≤ threshold v'
  odd : ∀ v, isNumber v → same (threshold (-v)) (-threshold v)
  size_le : ∀ v, isNumber v → size (threshold v) ≤ size v
  nonneg : ∀ v, 0 ≤ v → 0 ≤ threshold v
  nonpos : ∀ v, v ≤ 0 → threshold v ≤ 0
  zero_iff : ∀ v, isNumber v → (same (threshold v) 0 ↔ size v ≤ width)

/-! ## Exact thresholds -/

section Exact

variable {K : Type} [CommRing K] [LinearOrder K] [IsStrictOrderedRing K] {v v' width : K}

/-- The deadband in exact arithmetic. -/
def soften (v width : K) : K :=
  if |v| < width then 0
  else if 0 ≤ v then v - width
  else v + width

/-- The middle one of zero and the two ends that the width leaves. -/
theorem soften_eq_max_min (nonneg : 0 ≤ width) (v : K) :
    soften v width = max (v - width) (min (v + width) 0) := by
  unfold soften
  split_ifs with inside right
  · obtain ⟨lower, upper⟩ := abs_lt.mp inside
    rw [min_eq_right (by linarith), max_eq_right (by linarith)]
  · rw [abs_of_nonneg right, not_lt] at inside
    rw [min_eq_right (by linarith), max_eq_left (by linarith)]
  · rw [not_le] at right
    rw [abs_of_neg right, not_lt] at inside
    rw [min_eq_left (by linarith), max_eq_right (by linarith)]

private theorem soften_mono (nonneg : 0 ≤ width) : Monotone (soften · width : K → K) := by
  intro v v' le
  dsimp only
  rw [soften_eq_max_min nonneg, soften_eq_max_min nonneg]
  exact max_le_max (sub_le_sub_right le _) (min_le_min_right _ (add_le_add_left le _))

/-- The threshold rises no faster than the value. -/
private theorem soften_sub_soften_le (nonneg : 0 ≤ width) (le : v ≤ v') :
    soften v' width - soften v width ≤ v' - v := by
  rw [soften_eq_max_min nonneg, soften_eq_max_min nonneg, sub_le_iff_le_add, ← max_add_add_left,
    ← min_add_add_left]
  apply max_le_max
  · linarith
  · exact min_le_min (by linarith) (by linarith)

/-- The threshold is odd. Zero counts on both sides, and it is outside the band only if that has no
width. -/
theorem soften_neg (nonneg : 0 ≤ width) (v : K) : soften (-v) width = -soften v width := by
  unfold soften
  rw [abs_neg]
  split_ifs with inside left right right
  · exact neg_zero.symm
  · obtain rfl : v = 0 := by linarith
    rw [abs_zero] at inside
    linarith
  · ring
  · ring
  · linarith

/-- The threshold is positive above the band and nowhere else. -/
theorem soften_nonpos_iff (nonneg : 0 ≤ width) : soften v width ≤ 0 ↔ v ≤ width := by
  rw [soften_eq_max_min nonneg, max_le_iff, sub_nonpos, and_iff_left (min_le_right _ _)]

private theorem soften_of_lt (nonneg : 0 ≤ width) (above : width < v) :
    soften v width = v - width := by
  have left : 0 ≤ v - width := by linarith
  rw [soften_eq_max_min nonneg, max_eq_left ((min_le_right _ _).trans left)]

private theorem soften_eq_zero_iff (nonneg : 0 ≤ width) : soften v width = 0 ↔ |v| ≤ width := by
  rw [le_antisymm_iff, ← neg_nonpos, ← soften_neg nonneg, soften_nonpos_iff nonneg,
    soften_nonpos_iff nonneg, abs_le']

private theorem abs_soften_le (nonneg : 0 ≤ width) (v : K) : |soften v width| ≤ |v| := by
  have above (v : K) : soften v width ≤ |v| := by
    rw [soften_eq_max_min nonneg]
    refine max_le ?_ ((min_le_right _ _).trans (abs_nonneg v))
    linarith [le_abs_self v]
  rw [abs_le', ← soften_neg nonneg, ← abs_neg v]
  exact ⟨(above v).trans_eq (abs_neg v).symm, above (-v)⟩

end Exact

/-! ## Integers -/

private theorem apply_eq_soften (v width : ℤ) : apply v width = soften v width := by
  rw [apply, soften, Int.abs_eq_natAbs]

private theorem apply_softThreshold {width : ℤ} (nonneg : 0 ≤ width) :
    SoftThreshold (fun _ => True) (· = ·) (|·|) width (apply · width) := by
  simp only [apply_eq_soften]
  have zero : soften 0 width = 0 := by rwa [soften_eq_zero_iff nonneg, abs_zero]
  have mono := soften_mono nonneg
  constructor
  case number => exact fun _ _ => trivial
  case mono => exact fun v v' le => mono le
  case odd => exact fun v _ => soften_neg nonneg v
  case size_le => exact fun v _ => abs_soften_le nonneg v
  case nonneg => exact fun v le => zero.symm.trans_le (mono le)
  case nonpos => exact fun v le => (mono le).trans_eq zero
  case zero_iff => exact fun v _ => soften_eq_zero_iff nonneg

/-! ## 32-bit values -/

section Rounded

open Binary

variable {x width : Single} {q w : ℚ}

/-- The rule rounds the exact result. -/
theorem rounds_applySingle (hasWidth : width.HasValue w) (value : x.HasValue q) :
    (applySingle x width).Rounds (soften q w) := by
  unfold applySingle soften
  simp only [← value.abs.lt_iff hasWidth, ← value.zero_le_iff]
  split_ifs with inside right
  · exact hasValue_zero.rounds
  · exact value.rounds_sub hasWidth
  · exact value.rounds_add hasWidth

private theorem applySingle_rising (hasWidth : width.HasValue w) (nonneg : 0 ≤ w) :
    Rising (applySingle · width) (soften · w) where
  infinite negative := by
    have outside : ¬ (infinite negative : Single).abs < width := not_infinite_lt width
    rw [applySingle, if_neg outside]
    cases negative with
    | false => rw [if_pos zero_le_infinite, hasWidth.sub_rising.infinite]
    | true =>
      rw [if_neg (not_le_infinite_of_isFinite hasValue_zero.1), hasWidth.add_rising.infinite]
  rounds := rounds_applySingle hasWidth
  mono := soften_mono nonneg

/-- No exact result overflows, since none is larger than the value. -/
theorem hasValue_applySingle (hasWidth : width.HasValue w) (nonneg : 0 ≤ w)
    (value : x.HasValue q) :
    (applySingle x width).HasValue (FloatFormat.single.nearest (soften q w)) :=
  (rounds_applySingle hasWidth value).hasValue
    ((abs_soften_le nonneg q).trans value.abs_le_largest)

/-- No value above the band is rounded to zero. -/
private theorem nearest_soften_nonpos_iff (hasWidth : width.HasValue w) (nonneg : 0 ≤ w)
    (value : x.HasValue q) : FloatFormat.single.nearest (soften q w) ≤ 0 ↔ q ≤ w := by
  constructor
  · intro nonpos
    by_contra above
    rw [not_le] at above
    have positive := value.nearest_sub_pos hasWidth above
    rw [← soften_of_lt nonneg above] at positive
    exact nonpos.not_gt positive
  · intro within
    have nonpos := FloatFormat.nearest_mono (F := FloatFormat.single)
      ((soften_nonpos_iff nonneg).mpr within)
    rwa [FloatFormat.nearest_zero] at nonpos

private theorem nearest_soften_eq_zero_iff (hasWidth : width.HasValue w) (nonneg : 0 ≤ w)
    (value : x.HasValue q) : FloatFormat.single.nearest (soften q w) = 0 ↔ |q| ≤ w := by
  have opposite := nearest_soften_nonpos_iff hasWidth nonneg value.neg
  rw [soften_neg nonneg, FloatFormat.nearest_neg, neg_nonpos] at opposite
  rw [le_antisymm_iff, nearest_soften_nonpos_iff hasWidth nonneg value, opposite, abs_le']

private theorem applySingle_neg (hasWidth : width.HasValue w) (nonneg : 0 ≤ w) (number : x ≠ nan) :
    (applySingle (-x) width).ValueEq (-applySingle x width) := by
  rcases infinite_or_hasValue number with ⟨negative, rfl⟩ | ⟨q, value⟩
  · have kept := (applySingle_rising hasWidth nonneg).infinite
    rw [neg_infinite, kept, kept, neg_infinite,
      valueEq_iff_place (infinite_ne_nan _) (infinite_ne_nan _)]
  · have left := hasValue_applySingle hasWidth nonneg value.neg
    have right := (hasValue_applySingle hasWidth nonneg value).neg
    rw [soften_neg nonneg, FloatFormat.nearest_neg] at left
    exact (left.valueEq_iff right).mpr rfl

private theorem abs_applySingle_le (hasWidth : width.HasValue w) (nonneg : 0 ≤ w)
    (number : x ≠ nan) : (applySingle x width).abs ≤ x.abs := by
  rcases infinite_or_hasValue number with ⟨negative, rfl⟩ | ⟨q, value⟩
  · rw [(applySingle_rising hasWidth nonneg).infinite]
    exact Binary.le_refl (infinite_ne_nan false)
  · rw [(hasValue_applySingle hasWidth nonneg value).abs.le_iff value.abs]
    exact FloatFormat.abs_nearest_le value.abs.grid (abs_soften_le nonneg q)

private theorem applySingle_valueEq_zero_iff (hasWidth : width.HasValue w) (nonneg : 0 ≤ w)
    (number : x ≠ nan) : (applySingle x width).ValueEq 0 ↔ x.abs ≤ width := by
  rcases infinite_or_hasValue number with ⟨negative, rfl⟩ | ⟨q, value⟩
  · rw [(applySingle_rising hasWidth nonneg).infinite]
    exact iff_of_false (not_infinite_valueEq_of_isFinite negative hasValue_zero.1)
      (not_infinite_le_of_isFinite hasWidth.1)
  · rw [(hasValue_applySingle hasWidth nonneg value).valueEq_iff hasValue_zero,
      value.abs.le_iff hasWidth]
    exact nearest_soften_eq_zero_iff hasWidth nonneg value

private theorem applySingle_softThreshold (hasWidth : width.HasValue w) (nonneg : 0 ≤ w) :
    SoftThreshold (· ≠ nan) ValueEq Binary.abs width (applySingle · width) := by
  have rising := applySingle_rising hasWidth nonneg
  have inside : (0 : Single).abs ≤ width := by
    rw [hasValue_zero.abs.le_iff hasWidth, abs_zero]
    exact nonneg
  have zero := (applySingle_valueEq_zero_iff hasWidth nonneg
    (ne_nan_of_isFinite hasValue_zero.1)).mpr inside
  constructor
  case number => exact fun x number => rising.ne_nan number
  case mono => exact fun x x' le => rising.le le
  case odd => exact fun x number => applySingle_neg hasWidth nonneg number
  case size_le => exact fun x number => abs_applySingle_le hasWidth nonneg number
  case nonneg => exact fun x le => Binary.le_trans zero.symm.le (rising.le le)
  case nonpos => exact fun x le => Binary.le_trans (rising.le le) zero.le
  case zero_iff => exact fun x number => applySingle_valueEq_zero_iff hasWidth nonneg number

end Rounded

/-! ## Both -/

/-- A finite 32-bit width that is not negative, and an integer width that is not negative, make a
soft threshold of their deadband. That of integers never rises faster than the value. -/
theorem deadbands_softThreshold :
    (∀ width : Single, width.isFinite = true → 0 ≤ width →
      SoftThreshold (· ≠ .nan) Binary.ValueEq Binary.abs width (applySingle · width)) ∧
    (∀ width : ℤ, 0 ≤ width →
      SoftThreshold (fun _ => True) (· = ·) (|·|) width (apply · width) ∧
        ∀ v v', v ≤ v' → apply v' width - apply v width ≤ v' - v) := by
  constructor
  · intro width finite nonneg
    have hasWidth := Binary.hasValue_toRat finite
    exact applySingle_softThreshold hasWidth (hasWidth.zero_le_iff.mp nonneg)
  · intro width nonneg
    refine ⟨apply_softThreshold nonneg, fun v v' le => ?_⟩
    rw [apply_eq_soften, apply_eq_soften]
    exact soften_sub_soften_le nonneg le

/-- The least normal width, which leaves the next value above it with the least positive one, and a
width in whole numbers between values on both of its sides. -/
theorem deadbands_softThreshold_leastNormal :
    (1.1754944e-38 : Single).isFinite = true ∧ (0 : Single) ≤ 1.1754944e-38 ∧
      SoftThreshold (· ≠ .nan) Binary.ValueEq Binary.abs (1.1754944e-38 : Single)
        (applySingle · 1.1754944e-38) ∧
      (0 : ℤ) ≤ 10 ∧ SoftThreshold (fun _ => True) (· = ·) (|·|) (10 : ℤ) (apply · 10) ∧
      (-15 : ℤ) ≤ 11 ∧ apply 11 10 - apply (-15) 10 ≤ 11 - -15 := by
  have finite : (1.1754944e-38 : Single).isFinite = true := by decide +kernel
  have nonneg : (0 : Single) ≤ 1.1754944e-38 := by decide +kernel
  have nonneg' : (0 : ℤ) ≤ 10 := by decide
  have le : (-15 : ℤ) ≤ 11 := by decide
  have rounded := deadbands_softThreshold.1 _ finite nonneg
  obtain ⟨whole, slow⟩ := deadbands_softThreshold.2 _ nonneg'
  exact ⟨finite, nonneg, rounded, nonneg', whole, le, slow _ _ le⟩

example : (applySingle 1.1754945e-38 1.1754944e-38).HasValue (1 / 2 ^ 149) ∧
    apply 11 10 = 1 ∧ apply (-10) 10 = 0 ∧ apply (-15) 10 = -5 := by
  decide +kernel

end FlightMath.Deadband
