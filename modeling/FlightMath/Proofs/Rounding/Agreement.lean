import FlightMath.Binary.Arithmetic

/-! # Values that agree

Two values agree if they are equal as numbers or both NaN, so that only the sign of a zero can tell
them apart. Sums and products cannot tell it either: values that agree have sums and products that
agree, also where an infinity meets a zero or its opposite. A sum of opposite values agrees with the
opposite of the sum, but need not equal it, because an exact cancellation is a positive zero both
times.
-/

namespace FlightMath

private theorem signed_injective {units : Nat} (positive : 0 < units)
    {negative otherNegative : Bool} (same : signed negative units = signed otherNegative units) :
    negative = otherNegative := by
  cases negative <;> cases otherNegative <;> simp [signed] at same ⊢ <;> omega

namespace Binary

variable {F : FloatFormat} {x y z x' y' : Binary F}

/-- Equal as numbers, or both NaN. -/
def Agrees (x y : Binary F) : Prop :=
  x.ValueEq y ∨ x = nan ∧ y = nan

instance (x y : Binary F) : Decidable (x.Agrees y) :=
  inferInstanceAs (Decidable (_ ∨ _ ∧ _))

/-- Values agree if they have one place on the extended line, or none. -/
theorem agrees_iff : x.Agrees y ↔ x.rank? = y.rank? := by
  constructor
  · rintro (equal | ⟨rfl, rfl⟩)
    · obtain ⟨place, left, right⟩ := (valueEq_iff x y).mp equal
      exact left.trans right.symm
    · rfl
  · intro same
    cases found : x.rank? with
    | none =>
      rw [found] at same
      exact .inr ⟨(rank?_eq_none_iff x).mp found, (rank?_eq_none_iff y).mp same.symm⟩
    | some place =>
      exact .inl ((valueEq_iff x y).mpr ⟨place, found, same.symm.trans found⟩)

@[refl] theorem Agrees.refl (x : Binary F) : x.Agrees x :=
  agrees_iff.mpr rfl

theorem Agrees.symm (agree : x.Agrees y) : y.Agrees x :=
  agrees_iff.mpr (agrees_iff.mp agree).symm

theorem Agrees.trans (first : x.Agrees y) (second : y.Agrees z) : x.Agrees z :=
  agrees_iff.mpr ((agrees_iff.mp first).trans (agrees_iff.mp second))

theorem Agrees.valueEq (agree : x.Agrees y) (number : x ≠ nan) : x.ValueEq y :=
  agree.resolve_right fun lost => number lost.1

theorem zero_agrees (negative otherNegative : Bool) :
    (zero negative : Binary F).Agrees (zero otherNegative) := by
  rw [agrees_iff, zero, zero, rank?, rank?, signed_zero, signed_zero]

/-- Values that agree are the same, or two zeros. -/
theorem Agrees.eq_or_zero (agree : x.Agrees y) :
    x = y ∨ ∃ negative otherNegative, x = zero negative ∧ y = zero otherNegative := by
  have same := agrees_iff.mp agree
  cases x <;> cases y <;> simp only [rank?, Option.some.injEq, reduceCtorEq] at same
  case nan.nan => exact .inl rfl
  case infinite.infinite negative otherNegative =>
    exact .inl (congrArg infinite (signed_injective (Nat.two_pow_pos _) same))
  case infinite.finite negative otherNegative units fits =>
    have magnitude := congrArg Int.natAbs same
    rw [natAbs_signed, natAbs_signed] at magnitude
    exact absurd magnitude (Nat.ne_of_gt fits.1)
  case finite.infinite negative units fits otherNegative =>
    have magnitude := congrArg Int.natAbs same
    rw [natAbs_signed, natAbs_signed] at magnitude
    exact absurd magnitude (Nat.ne_of_lt fits.1)
  case finite.finite negative units fits otherNegative otherUnits otherFits =>
    have magnitude := congrArg Int.natAbs same
    rw [natAbs_signed, natAbs_signed] at magnitude
    subst magnitude
    rcases Nat.eq_zero_or_pos units with rfl | positive
    · exact .inr ⟨negative, otherNegative, rfl, rfl⟩
    · obtain rfl := signed_injective positive same
      exact .inl rfl

/-- Comparisons cannot tell values that agree apart. -/
theorem Agrees.lt_iff (left : x.Agrees x') (right : y.Agrees y') : x < y ↔ x' < y' := by
  rw [Binary.lt_iff, Binary.lt_iff, agrees_iff.mp left, agrees_iff.mp right]

/-! ## Operations -/

theorem Agrees.neg (agree : x.Agrees y) : (-x).Agrees (-y) := by
  rcases agree.eq_or_zero with rfl | ⟨negative, otherNegative, rfl, rfl⟩
  · rfl
  · exact zero_agrees _ _

/-- A zero of either sign leaves what it is added to. -/
theorem zero_add_agrees (negative : Bool) (x : Binary F) : (zero negative + x).Agrees x := by
  cases x with
  | nan => rfl
  | infinite otherNegative => rfl
  | finite otherNegative units fits =>
    rw [zero, add_finite, signed_zero, Int.zero_add]
    dsimp only
    split
    · next nothing =>
      rw [agrees_iff, zero, rank?, rank?, nothing, signed_zero]
    · next something =>
      have sign : decide (signed otherNegative units < 0) = otherNegative := by
        cases otherNegative with
        | false => simp [signed]
        | true =>
          have positive : 0 < units := by simpa [signed, Nat.pos_iff_ne_zero] using something
          simp [signed, positive]
      rw [sign, natAbs_signed, round_one fits]

private theorem zero_mul_agrees (negative otherNegative : Bool) (x : Binary F) :
    (zero negative * x).Agrees (zero otherNegative * x) := by
  cases x with
  | nan => rfl
  | infinite => rfl
  | finite =>
    rw [zero, zero, mul_finite, mul_finite, Nat.zero_mul, round_zero, round_zero]
    exact zero_agrees _ _

theorem Agrees.add_right (agree : x.Agrees x') (y : Binary F) : (x + y).Agrees (x' + y) := by
  rcases agree.eq_or_zero with rfl | ⟨negative, otherNegative, rfl, rfl⟩
  · rfl
  · exact (zero_add_agrees negative y).trans (zero_add_agrees otherNegative y).symm

theorem Agrees.mul_right (agree : x.Agrees x') (y : Binary F) : (x * y).Agrees (x' * y) := by
  rcases agree.eq_or_zero with rfl | ⟨negative, otherNegative, rfl, rfl⟩
  · rfl
  · exact zero_mul_agrees negative otherNegative y

theorem Agrees.add (left : x.Agrees x') (right : y.Agrees y') : (x + y).Agrees (x' + y') := by
  have second := right.add_right x'
  rw [Binary.add_comm y, Binary.add_comm y'] at second
  exact (left.add_right y).trans second

theorem Agrees.sub (left : x.Agrees x') (right : y.Agrees y') : (x - y).Agrees (x' - y') :=
  left.add right.neg

theorem Agrees.mul (left : x.Agrees x') (right : y.Agrees y') : (x * y).Agrees (x' * y') := by
  have second := right.mul_right x'
  rw [Binary.mul_comm y, Binary.mul_comm y'] at second
  exact (left.mul_right y).trans second

/-! ## Opposite summands -/

private theorem neg_add_neg_agrees (x y : Binary F) : (-x + -y).Agrees (-(x + y)) := by
  cases x <;> cases y
  case infinite.infinite negative otherNegative =>
    cases negative <;> cases otherNegative <;> rfl
  case finite.finite negative units fits otherNegative otherUnits otherFits =>
    rw [neg_finite, neg_finite, add_finite, add_finite, signed_not, signed_not, ← Int.neg_add]
    dsimp only
    generalize signed negative units + signed otherNegative otherUnits = total
    by_cases cancels : total = 0
    · rw [if_pos cancels, if_pos (by omega)]
      exact zero_agrees _ _
    · have sign : decide (-total < 0) = !decide (total < 0) := by
        rw [← decide_not]
        exact decide_eq_decide.mpr (by omega)
      rw [if_neg cancels, if_neg (by omega), neg_round, sign, Int.natAbs_neg]
  all_goals rfl

theorem Agrees.opposite (agree : x.Agrees (-y)) : y.Agrees (-x) := by
  have reversed := agree.neg.symm
  rwa [Binary.neg_neg] at reversed

/-- Sums of values that agree with opposites agree with the opposite of the sum. -/
theorem Agrees.add_neg (left : x.Agrees (-x')) (right : y.Agrees (-y')) :
    (x + y).Agrees (-(x' + y')) :=
  (left.add right).trans (neg_add_neg_agrees x' y')

theorem Agrees.sub_neg (left : x.Agrees (-x')) (right : y.Agrees (-y')) :
    (x - y).Agrees (-(x' - y')) :=
  left.add_neg right.neg

end Binary

end FlightMath
