import FlightMath.Proofs.Rounding.Sign

/-! # Rounding keeps the order of values

Every value but NaN has a place on the extended line, with the infinities at the limit. The place
of a rounding is that of the nearest grid value, held between the two limits, so a greater number
never has a lesser rounding, also where one of the two underflows or overflows. An operation that
keeps the infinities and rounds a function that never falls therefore keeps the order of values:
conversions between formats do, sums and differences with a finite value, and quotients by a
positive one. Truncation toward zero keeps it too.
-/

namespace FlightMath.Binary

variable {F G : FloatFormat} {x y : Binary F} {p q : ℚ}

/-! ## Places -/

/-- The place on the extended line of a value other than NaN. -/
def place (x : Binary F) : ℤ :=
  x.rank?.getD 0

private theorem place_infinite (negative : Bool) :
    (infinite negative : Binary F).place = signed negative (2 ^ F.limitExponent) := rfl

private theorem place_finite (negative : Bool) (units : ℕ) (fits : F.Fits units) :
    (finite negative units fits).place = signed negative units := rfl

private theorem rank?_eq_place (number : x ≠ .nan) : x.rank? = some x.place := by
  obtain ⟨place, found⟩ := Option.ne_none_iff_exists'.mp (mt (rank?_eq_none_iff x).mp number)
  rw [Binary.place, found, Option.getD_some]

theorem lt_iff_place (left : x ≠ .nan) (right : y ≠ .nan) : x < y ↔ x.place < y.place := by
  rw [lt_iff, rank?_eq_place left, rank?_eq_place right]
  simp

theorem le_iff_place (left : x ≠ .nan) (right : y ≠ .nan) : x ≤ y ↔ x.place ≤ y.place := by
  rw [le_iff, rank?_eq_place left, rank?_eq_place right]
  simp

theorem valueEq_iff_place (left : x ≠ .nan) (right : y ≠ .nan) :
    x.ValueEq y ↔ x.place = y.place := by
  rw [valueEq_iff, rank?_eq_place left, rank?_eq_place right]
  simp [eq_comm]

theorem ne_nan_of_isFinite (finite : x.isFinite = true) : x ≠ .nan := by
  rintro rfl
  exact Bool.false_ne_true finite

/-- Values that can be compared are numbers or infinities. -/
theorem ne_nan_of_le (le : x ≤ y) : x ≠ .nan ∧ y ≠ .nan := by
  obtain ⟨place, other, left, right, -⟩ := (le_iff x y).mp le
  constructor
  · rintro rfl
    cases left
  · rintro rfl
    cases right

protected theorem le_refl (number : x ≠ .nan) : x ≤ x :=
  (le_iff_place number number).mpr le_rfl

protected theorem le_trans {z : Binary F} (first : x ≤ y) (second : y ≤ z) : x ≤ z := by
  obtain ⟨left, middle⟩ := ne_nan_of_le first
  have right := (ne_nan_of_le second).2
  rw [le_iff_place left middle] at first
  rw [le_iff_place middle right] at second
  exact (le_iff_place left right).mpr (first.trans second)

theorem le_of_not_lt (left : x ≠ .nan) (right : y ≠ .nan) (missed : ¬ y < x) : x ≤ y := by
  rw [lt_iff_place right left, not_lt] at missed
  exact (le_iff_place left right).mpr missed

theorem not_lt_of_le (le : x ≤ y) : ¬ y < x := by
  obtain ⟨left, right⟩ := ne_nan_of_le le
  rw [lt_iff_place right left, not_lt]
  exact (le_iff_place left right).mp le

theorem le_of_lt (less : x < y) : x ≤ y := by
  obtain ⟨place, other, left, right, less⟩ := (lt_iff x y).mp less
  exact (le_iff x y).mpr ⟨place, other, left, right, less.le⟩

/-- Numbers that are not equal are in some order. -/
theorem lt_or_lt (left : x ≠ .nan) (right : y ≠ .nan) (differ : ¬ x.ValueEq y) :
    x < y ∨ y < x := by
  rw [valueEq_iff_place left right] at differ
  rw [lt_iff_place left right, lt_iff_place right left]
  omega

theorem not_nan_lt (x : Binary F) : ¬ nan < x :=
  fun less => (ne_nan_of_le (le_of_lt less)).1 rfl

theorem not_lt_nan (x : Binary F) : ¬ x < nan :=
  fun less => (ne_nan_of_le (le_of_lt less)).2 rfl

theorem ValueEq.le (equal : x.ValueEq y) : x ≤ y := by
  obtain ⟨place, left, right⟩ := (valueEq_iff x y).mp equal
  exact (le_iff x y).mpr ⟨place, place, left, right, le_rfl⟩

theorem valueEq_of_le_of_le (le : x ≤ y) (ge : y ≤ x) : x.ValueEq y := by
  obtain ⟨left, right⟩ := ne_nan_of_le le
  rw [le_iff_place left right] at le
  rw [le_iff_place right left] at ge
  exact (valueEq_iff_place left right).mpr (le_antisymm le ge)

/-- Values that are not all NaN have a least and a greatest one. -/
theorem exists_least_greatest {values : List (Binary F)} (number : ∃ x ∈ values, x ≠ .nan) :
    ∃ least ∈ values, ∃ greatest ∈ values,
      ∀ x ∈ values, x ≠ .nan → least ≤ x ∧ x ≤ greatest := by
  have nonempty : (values.toFinset.filter (· ≠ nan)).Nonempty := by
    obtain ⟨x, mem, number⟩ := number
    exact ⟨x, Finset.mem_filter.mpr ⟨List.mem_toFinset.mpr mem, number⟩⟩
  obtain ⟨least, leastMem, low⟩ := Finset.exists_min_image _ place nonempty
  obtain ⟨greatest, greatestMem, high⟩ := Finset.exists_max_image _ place nonempty
  simp only [Finset.mem_filter, List.mem_toFinset] at leastMem low greatestMem high
  refine ⟨least, leastMem.1, greatest, greatestMem.1, fun x mem number => ?_⟩
  exact ⟨(le_iff_place leastMem.2 number).mpr (low x ⟨mem, number⟩),
    (le_iff_place number greatestMem.2).mpr (high x ⟨mem, number⟩)⟩

/-! ## Infinities -/

/-- Finite places lie between the limits. -/
theorem natAbs_place_lt (finite : x.isFinite = true) : x.place.natAbs < 2 ^ F.limitExponent := by
  obtain ⟨negative, units, fits, rfl, -⟩ := hasValue_iff.mp (hasValue_toRat finite)
  rw [place_finite, natAbs_signed]
  exact fits.1

private theorem natAbs_place_le (x : Binary F) : x.place.natAbs ≤ 2 ^ F.limitExponent := by
  cases x with
  | nan => exact Nat.zero_le _
  | infinite negative => rw [place_infinite, natAbs_signed]
  | finite negative units fits => exact (natAbs_place_lt (x := finite negative units fits) rfl).le

theorem infinite_ne_nan (negative : Bool) : (infinite negative : Binary F) ≠ nan := by
  simp

private theorem le_infinite (number : x ≠ .nan) : x ≤ infinite false := by
  have bound := natAbs_place_le x
  rw [le_iff_place number (infinite_ne_nan false), place_infinite, signed,
    if_neg Bool.false_ne_true]
  omega

/-- Nothing is above the positive infinity. -/
theorem not_infinite_lt (x : Binary F) : ¬ infinite false < x := by
  by_cases number : x = nan
  · rw [number]
    exact not_lt_nan _
  · exact not_lt_of_le (le_infinite number)

private theorem infinite_le (number : x ≠ .nan) : infinite true ≤ x := by
  have bound := natAbs_place_le x
  rw [le_iff_place (infinite_ne_nan true) number, place_infinite, signed, if_pos rfl]
  omega

theorem not_infinite_le_of_isFinite (finite : x.isFinite = true) : ¬ infinite false ≤ x := by
  intro le
  have bound := natAbs_place_lt finite
  rw [le_iff_place (infinite_ne_nan false) (ne_nan_of_le le).2, place_infinite, signed,
    if_neg Bool.false_ne_true] at le
  omega

theorem not_le_infinite_of_isFinite (finite : x.isFinite = true) : ¬ x ≤ infinite true := by
  intro le
  have bound := natAbs_place_lt finite
  rw [le_iff_place (ne_nan_of_le le).1 (infinite_ne_nan true), place_infinite, signed,
    if_pos rfl] at le
  omega

/-- No infinity equals a finite value. -/
theorem not_infinite_valueEq_of_isFinite (negative : Bool) (finite : x.isFinite = true) :
    ¬ (infinite negative).ValueEq x := by
  intro equal
  cases negative with
  | true => exact not_le_infinite_of_isFinite finite equal.symm.le
  | false => exact not_infinite_le_of_isFinite finite equal.le

private theorem not_infinite_le_infinite : ¬ (infinite false : Binary F) ≤ infinite true := by
  intro le
  have positive : 0 < 2 ^ F.limitExponent := Nat.two_pow_pos _
  rw [le_iff_place (infinite_ne_nan false) (infinite_ne_nan true), place_infinite, place_infinite,
    signed, signed, if_neg Bool.false_ne_true, if_pos rfl] at le
  omega

/-- A value between finite ones is finite. -/
theorem isFinite_of_between {z : Binary F} (finite : x.isFinite = true)
    (finite' : z.isFinite = true) (lower : x ≤ y) (upper : y ≤ z) : y.isFinite = true := by
  cases y with
  | nan => exact absurd rfl (ne_nan_of_le lower).2
  | infinite negative =>
    cases negative with
    | true => exact absurd lower (not_le_infinite_of_isFinite finite)
    | false => exact absurd upper (not_infinite_le_of_isFinite finite')
  | finite => rfl

/-! ## Finite results -/

theorem isFinite_of_isFinite_add (finite : (x + y).isFinite = true) :
    x.isFinite = true ∧ y.isFinite = true := by
  cases x <;> cases y
  case finite.finite => exact ⟨rfl, rfl⟩
  case infinite.infinite negative otherNegative =>
    cases negative <;> cases otherNegative <;> cases finite
  all_goals cases finite

theorem isFinite_of_isFinite_sub (finite : (x - y).isFinite = true) :
    x.isFinite = true ∧ y.isFinite = true := by
  obtain ⟨left, right⟩ := isFinite_of_isFinite_add finite
  refine ⟨left, ?_⟩
  cases y with
  | finite => rfl
  | nan => exact right
  | infinite negative => exact right

theorem isFinite_of_isFinite_mul (finite : (x * y).isFinite = true) :
    x.isFinite = true ∧ y.isFinite = true := by
  cases x <;> cases y
  case finite.finite => exact ⟨rfl, rfl⟩
  case infinite.finite negative _ units _ =>
    change (if units = 0 then _ else _ : Binary F).isFinite = true at finite
    split at finite <;> cases finite
  case finite.infinite negative units _ _ =>
    change (if units = 0 then _ else _ : Binary F).isFinite = true at finite
    split at finite <;> cases finite
  all_goals cases finite

/-- No quotient by a zero is finite. -/
theorem HasValue.isFinite_div_eq_false (value : y.HasValue 0) (x : Binary F) :
    (x / y).isFinite = false := by
  obtain ⟨negative, rfl⟩ := value.exists_eq_zero
  cases x with
  | nan => rfl
  | infinite => rfl
  | finite otherNegative units fits =>
    show (if units = 0 then nan else infinite _ : Binary F).isFinite = false
    split <;> rfl

/-! ## Roundings -/

private theorem round_ne_nan (negative : Bool) (num den : ℕ) :
    (round negative num den : Binary F) ≠ nan := by
  unfold round
  split <;> simp

theorem Rounds.ne_nan (rounds : x.Rounds q) : x ≠ nan := by
  obtain ⟨negative, num, den, -, -, rfl⟩ := rounds
  exact round_ne_nan negative num den

/-- A rounding stands at the rounded number of units, or at the limit. -/
theorem place_round (negative : Bool) (num den : ℕ) : (round negative num den : Binary F).place =
    signed negative (min (F.roundUnits num den) (2 ^ F.limitExponent)) := by
  unfold round
  split
  · next withinLimit => rw [place_finite, min_eq_left withinLimit.le]
  · next overflows => rw [place_infinite, min_eq_right (not_lt.mp overflows)]

private theorem signed_min (negative : Bool) (units limit : ℕ) : signed negative (min units limit) =
    max (-(limit : ℤ)) (min (signed negative units) limit) := by
  cases negative
  · rw [signed, signed, if_neg Bool.false_ne_true, if_neg Bool.false_ne_true]
    omega
  · rw [signed, signed, if_pos rfl, if_pos rfl]
    omega

/-- A lesser number is never rounded to a greater value. -/
theorem Rounds.le (left : x.Rounds p) (right : y.Rounds q) (le : p ≤ q) : x ≤ y := by
  rw [le_iff_place left.ne_nan right.ne_nan]
  obtain ⟨negative, num, den, positive, exact, rfl⟩ := left
  obtain ⟨otherNegative, otherNum, otherDen, otherPositive, otherExact, rfl⟩ := right
  have units : signed negative (F.roundUnits num den) ≤
      signed otherNegative (F.roundUnits otherNum otherDen) := by
    have nearest := FloatFormat.nearest_mono (F := F) le
    rw [← signed_roundUnits_div_scale positive exact,
      ← signed_roundUnits_div_scale otherPositive otherExact,
      div_le_div_iff_of_pos_right F.scale_pos] at nearest
    exact_mod_cast nearest
  rw [place_round, place_round, signed_min, signed_min]
  exact max_le_max le_rfl (min_le_min units le_rfl)

/-! ## Rising operations -/

/-- The operation keeps the infinities and rounds a function of each finite value that never falls.
-/
structure Rising (operation : Binary F → Binary G) (exact : ℚ → ℚ) : Prop where
  infinite : ∀ negative, operation (.infinite negative) = .infinite negative
  rounds : ∀ {x : Binary F} {q : ℚ}, x.HasValue q → (operation x).Rounds (exact q)
  mono : Monotone exact

namespace Rising

variable {operation : Binary F → Binary G} {exact : ℚ → ℚ}

theorem ne_nan (rising : Rising operation exact) (number : x ≠ nan) : operation x ≠ nan := by
  rcases infinite_or_hasValue number with ⟨negative, rfl⟩ | ⟨q, value⟩
  · rw [rising.infinite]
    exact infinite_ne_nan negative
  · exact (rising.rounds value).ne_nan

/-- A greater value has no lesser result. -/
theorem le (rising : Rising operation exact) (le : x ≤ y) : operation x ≤ operation y := by
  obtain ⟨left, right⟩ := ne_nan_of_le le
  rcases infinite_or_hasValue left with ⟨negative, rfl⟩ | ⟨p, lesser⟩
  · cases negative with
    | true =>
      rw [rising.infinite]
      exact infinite_le (rising.ne_nan right)
    | false =>
      rcases infinite_or_hasValue right with ⟨otherNegative, rfl⟩ | ⟨q, greater⟩
      · cases otherNegative with
        | true => exact absurd le not_infinite_le_infinite
        | false =>
          rw [rising.infinite]
          exact le_infinite (infinite_ne_nan false)
      · exact absurd le (not_infinite_le_of_isFinite greater.1)
  · rcases infinite_or_hasValue right with ⟨negative, rfl⟩ | ⟨q, greater⟩
    · cases negative with
      | true => exact absurd le (not_le_infinite_of_isFinite lesser.1)
      | false =>
        rw [rising.infinite false]
        exact le_infinite (rising.ne_nan left)
    · exact (rising.rounds lesser).le (rising.rounds greater)
        (rising.mono ((lesser.le_iff greater).mp le))

end Rising

variable {a b : ℚ}

theorem HasValue.add_rising (value : y.HasValue b) : Rising (· + y) (· + b) where
  infinite negative := by
    obtain ⟨otherNegative, units, fits, rfl, -⟩ := hasValue_iff.mp value
    rfl
  rounds left := left.rounds_add value
  mono _ _ le := add_le_add_left le b

theorem HasValue.sub_rising (value : y.HasValue b) : Rising (· - y) (· - b) where
  infinite := value.neg.add_rising.infinite
  rounds left := left.rounds_sub value
  mono _ _ le := sub_le_sub_right le b

theorem HasValue.div_rising (value : y.HasValue b) (positive : 0 < b) :
    Rising (· / y) (· / b) where
  infinite negative := by
    obtain ⟨units, fits, -, rfl⟩ := value.exists_eq_of_pos positive
    exact congrArg Binary.infinite (Bool.xor_false negative)
  rounds left := left.rounds_div value positive.ne'
  mono _ _ le := div_le_div_of_nonneg_right le positive.le

/-! ## Differences -/

theorem hasValue_sub_self (value : x.HasValue a) : (x - x).HasValue 0 := by
  have difference := value.rounds_sub value
  rw [sub_self] at difference
  have exact := difference.hasValue (by simpa using (abs_nonneg a).trans value.abs_le_largest)
  rwa [F.nearest_zero] at exact

/-- The difference of distinct values is never rounded to zero, since it is a unit at least. -/
theorem HasValue.nearest_sub_pos (left : x.HasValue a) (right : y.HasValue b) (less : b < a) :
    0 < F.nearest (a - b) := by
  obtain ⟨units, exact⟩ := left.isMultiple.sub right.isMultiple
  have unit : (0 : ℚ) < 2 ^ (-(F.unitExponent : ℤ)) := zpow_pos two_pos _
  have positive : 0 < units := by
    have scaled := sub_pos.mpr less
    rw [exact] at scaled
    exact_mod_cast pos_of_mul_pos_left scaled unit.le
  have grid : F.Grid (2 ^ (-(F.unitExponent : ℤ))) := by
    refine (show FloatFormat.IsMultiple _ _ from ⟨1, (one_mul _).symm⟩).grid le_rfl ?_
    rw [abs_of_pos unit]
    exact zpow_le_zpow_right₀ one_le_two (by omega)
  refine unit.trans_le (FloatFormat.le_nearest grid ?_)
  rw [exact]
  exact le_mul_of_one_le_left unit.le (by exact_mod_cast positive)

/-! ## Conversions -/

private theorem convert_rising : Rising (convert : Binary F → Binary G) id where
  infinite _ := rfl
  rounds := HasValue.rounds_convert
  mono := monotone_id

theorem convert_ne_nan (number : x ≠ nan) : (x.convert : Binary G) ≠ nan :=
  convert_rising.ne_nan number

/-- The nearest values of another format are in the same order, or equal. -/
theorem convert_le_convert (le : x ≤ y) : (x.convert : Binary G) ≤ y.convert :=
  convert_rising.le le

theorem ValueEq.convert (equal : x.ValueEq y) : (x.convert : Binary G).ValueEq y.convert :=
  valueEq_of_le_of_le (convert_le_convert equal.le) (convert_le_convert equal.symm.le)

/-- The integer part of a finite value. -/
def wholePart (x : Binary F) : ℤ :=
  x.place.tdiv F.scale

theorem truncate_eq_wholePart (finite : x.isFinite = true) : x.truncate = .ok x.wholePart := by
  obtain ⟨negative, units, fits, rfl, -⟩ := hasValue_iff.mp (hasValue_toRat finite)
  rw [truncate_finite, wholePart, place_finite]
  cases negative
  · rfl
  · rw [signed, signed, if_pos rfl, if_pos rfl, Int.neg_tdiv]
    rfl

/-- Integer parts are in the order of the values, or equal. -/
theorem wholePart_le_wholePart (le : x ≤ y) : x.wholePart ≤ y.wholePart := by
  have scale : (0 : ℤ) < F.scale := by exact_mod_cast F.scale_pos
  obtain ⟨left, right⟩ := ne_nan_of_le le
  exact Int.tdiv_le_tdiv scale ((le_iff_place left right).mp le)

theorem ValueEq.wholePart_eq (equal : x.ValueEq y) : x.wholePart = y.wholePart :=
  le_antisymm (wholePart_le_wholePart equal.le) (wholePart_le_wholePart equal.symm.le)

end FlightMath.Binary
