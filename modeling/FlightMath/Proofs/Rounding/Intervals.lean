import FlightMath.Proofs.Rounding.Values

/-! # Bounds on computed results

`Within x low high` says that `x` is finite and lies between two rational numbers, and
`Near x exact error` that it is finite and within an error of one. Bounds on the exact result of an
operation are bounds on the computed one as long as they are on the grid, which lets the range of a
formula be followed operation by operation.
-/

namespace FlightMath.Binary

variable {F : FloatFormat} {x y : Binary F} {a b low high bound q : ℚ}

/-- The value is finite and lies between the bounds. -/
def Within (x : Binary F) (low high : ℚ) : Prop :=
  x.isFinite = true ∧ low ≤ x.toRat ∧ x.toRat ≤ high

/-- The value is finite and within an error of an exact number. -/
structure Near (x : Binary F) (exact error : ℚ) : Prop where
  finite : x.isFinite = true
  near : |x.toRat - exact| ≤ error

theorem HasValue.near {exact error : ℚ} (value : x.HasValue a) (near : |a - exact| ≤ error) :
    x.Near exact error :=
  ⟨value.1, value.2 ▸ near⟩

theorem HasValue.within (value : x.HasValue q) (lower : low ≤ q) (upper : q ≤ high) :
    x.Within low high :=
  ⟨value.1, value.2 ▸ lower, value.2 ▸ upper⟩

theorem Within.exists_hasValue (within : x.Within low high) :
    ∃ q, x.HasValue q ∧ low ≤ q ∧ q ≤ high :=
  ⟨x.toRat, hasValue_toRat within.1, within.2⟩

/-- Bounds on the grid that are far enough from overflow. -/
structure Bounds (F : FloatFormat) (low high : ℚ) : Prop where
  grid_low : F.Grid low
  grid_high : F.Grid high
  largest_low : -F.largest ≤ low
  largest_high : high ≤ F.largest

theorem Bounds.abs_le_largest (bounds : Bounds F low high) (lower : low ≤ q) (upper : q ≤ high) :
    |q| ≤ F.largest :=
  abs_le.mpr ⟨bounds.largest_low.trans lower, upper.trans bounds.largest_high⟩

/-- Rounding keeps to bounds on the grid. -/
theorem Bounds.within (bounds : Bounds F low high) (value : x.HasValue (F.nearest q))
    (lower : low ≤ q) (upper : q ≤ high) : x.Within low high :=
  value.within (FloatFormat.le_nearest bounds.grid_low lower)
    (FloatFormat.nearest_le bounds.grid_high upper)

theorem Bounds.add (bounds : Bounds F low high) (left : x.HasValue a) (right : y.HasValue b)
    (lower : low ≤ a + b) (upper : a + b ≤ high) : (x + y).Within low high :=
  bounds.within (left.add right (bounds.abs_le_largest lower upper)) lower upper

theorem Bounds.sub (bounds : Bounds F low high) (left : x.HasValue a) (right : y.HasValue b)
    (lower : low ≤ a - b) (upper : a - b ≤ high) : (x - y).Within low high :=
  bounds.within (left.sub right (bounds.abs_le_largest lower upper)) lower upper

theorem Bounds.mul (bounds : Bounds F low high) (left : x.HasValue a) (right : y.HasValue b)
    (lower : low ≤ a * b) (upper : a * b ≤ high) : (x * y).Within low high :=
  bounds.within (left.mul right (bounds.abs_le_largest lower upper)) lower upper

/-- The quotient of approximations is near the exact one. -/
theorem abs_div_sub_div_le {c d above below least : ℚ} (dividend : |a - b| ≤ above)
    (divisor : |c - d| ≤ below) (positive : 0 < least) (le : least ≤ c) (nonzero : d ≠ 0) :
    |a / c - b / d| ≤ (above + |b / d| * below) / least := by
  have positive' : 0 < c := positive.trans_le le
  have split : a / c - b / d = (a - b - b / d * (c - d)) / c := by
    field_simp
    ring
  have error : |a - b - b / d * (c - d)| ≤ above + |b / d| * below := by
    refine (abs_sub _ _).trans (add_le_add dividend ?_)
    rw [abs_mul]
    exact mul_le_mul_of_nonneg_left divisor (abs_nonneg _)
  rw [split, abs_div, abs_of_pos positive']
  exact div_le_div₀ ((abs_nonneg _).trans error) error positive le

end FlightMath.Binary
