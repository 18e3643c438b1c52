import FlightMath.Proofs.Analysis.Horner

/-! # Derivatives of polynomials with rational coefficients

The checks on polynomials speak of rational arguments, and a derivative needs real ones. A bound of
a continuous function on the rational numbers of an interval is one on the whole interval, so a
check carries over. A polynomial is near a function on an interval as soon as they meet at the left
end and the derivatives are near each other.
-/

namespace FlightMath

/-- A bound of a continuous function on the rational numbers of an interval is one on the whole
interval. -/
theorem le_of_le_on_rationals {f : ℝ → ℝ} (continuous : Continuous f) {low high : ℚ} {bound : ℝ}
    (ordered : low < high) (onRationals : ∀ q : ℚ, low ≤ q → q ≤ high → f q ≤ bound) {x : ℝ}
    (lower : low ≤ x) (upper : x ≤ high) : f x ≤ bound := by
  have closed : IsClosed {y | f y ≤ bound} := isClosed_le continuous continuous_const
  have dense : Dense (Set.range ((↑) : ℚ → ℝ)) := Rat.denseRange_cast
  have inside : Set.Ioo (low : ℝ) high ∩ Set.range ((↑) : ℚ → ℝ) ⊆ {y | f y ≤ bound} := by
    rintro _ ⟨⟨above, below⟩, q, rfl⟩
    exact onRationals q (by exact_mod_cast above.le) (by exact_mod_cast below.le)
  have interior : Set.Ioo (low : ℝ) high ⊆ {y | f y ≤ bound} :=
    (dense.open_subset_closure_inter isOpen_Ioo).trans (closure_minimal inside closed)
  have whole := closure_minimal interior closed
  rw [closure_Ioo (by exact_mod_cast ordered.ne)] at whole
  exact whole ⟨lower, upper⟩

namespace Horner

/-- The coefficients of the product. -/
def mul : List ℚ → List ℚ → List ℚ
  | [], _ => []
  | c :: p, q => add (q.map (c * ·)) (0 :: mul p q)

/-- The coefficients of the derivative. -/
def derivative : List ℚ → List ℚ
  | [] => []
  | _ :: p => add p (0 :: derivative p)

/-- The value at a real argument. -/
def evalReal : List ℚ → ℝ → ℝ
  | [], _ => 0
  | c :: rest, x => c + x * evalReal rest x

theorem cast_eval (p : List ℚ) (x : ℚ) : ((eval p x : ℚ) : ℝ) = evalReal p x := by
  induction p with
  | nil => exact Rat.cast_zero
  | cons c rest ih =>
    rw [eval, evalReal, ← ih]
    push_cast
    rfl

private theorem continuous_evalReal (p : List ℚ) : Continuous (evalReal p) := by
  induction p with
  | nil => exact continuous_const
  | cons c rest ih => exact continuous_const.add (continuous_id.mul ih)

theorem evalReal_add (p q : List ℚ) (x : ℝ) :
    evalReal (add p q) x = evalReal p x + evalReal q x := by
  induction p, q using add.induct with
  | case1 q => simp [add, evalReal]
  | case2 p nonempty => cases p <;> simp [add, evalReal]
  | case3 a p b q ih =>
    simp only [add, evalReal, ih]
    push_cast
    ring

theorem evalReal_map_mul (c : ℚ) (p : List ℚ) (x : ℝ) :
    evalReal (p.map (c * ·)) x = c * evalReal p x := by
  induction p with
  | nil => exact (mul_zero (c : ℝ)).symm
  | cons a rest ih =>
    rw [List.map_cons, evalReal, evalReal, ih]
    push_cast
    ring

theorem evalReal_mul (p q : List ℚ) (x : ℝ) :
    evalReal (mul p q) x = evalReal p x * evalReal q x := by
  induction p with
  | nil => exact (zero_mul _).symm
  | cons c p ih =>
    rw [mul, evalReal_add, evalReal_map_mul, evalReal, ih, evalReal]
    push_cast
    ring

private theorem hasDerivAt_evalReal (p : List ℚ) (x : ℝ) :
    HasDerivAt (evalReal p) (evalReal (derivative p) x) x := by
  induction p with
  | nil => exact hasDerivAt_const x 0
  | cons c rest ih =>
    refine (((hasDerivAt_id x).mul ih).const_add (c : ℝ)).congr_deriv ?_
    rw [derivative, evalReal_add, evalReal, Rat.cast_zero]
    simp

/-- The check of a polynomial bounds it at real arguments. -/
theorem Keeps.evalReal_le {p : List ℚ} {start width bound : ℚ} {pieces : ℕ} {x : ℝ}
    (keeps : Keeps p start width pieces bound) (positive : 0 < width) (nonempty : 0 < pieces)
    (lower : start ≤ x) (upper : x ≤ (start + pieces * width : ℚ)) : evalReal p x ≤ bound := by
  have ordered : start < start + pieces * width := by
    have pieces' : (0 : ℚ) < pieces := by exact_mod_cast nonempty
    linarith [mul_pos pieces' positive]
  refine le_of_le_on_rationals (continuous_evalReal p) ordered (fun q low high => ?_) lower upper
  rw [← cast_eval]
  exact_mod_cast keeps.eval_le positive nonempty low high

/-- A polynomial with a derivative near that of a function stays near the function. -/
theorem abs_evalReal_sub_le {p : List ℚ} {f f' : ℝ → ℝ} {width bound : ℝ}
    (hasDeriv : ∀ x, HasDerivAt f (f' x) x)
    (near : ∀ x ∈ Set.Icc 0 width, |evalReal (derivative p) x - f' x| ≤ bound)
    (start : evalReal p 0 = f 0) {x : ℝ} (mem : x ∈ Set.Icc 0 width) :
    |evalReal p x - f x| ≤ bound * x := by
  have difference (y : ℝ) := (hasDerivAt_evalReal p y).sub (hasDeriv y)
  have zero : (0 : ℝ) ∈ Set.Icc 0 width := ⟨le_rfl, mem.1.trans mem.2⟩
  have mean := (convex_Icc (0 : ℝ) width).norm_image_sub_le_of_norm_hasDerivWithin_le
    (fun y _ => (difference y).hasDerivWithinAt) near zero mem
  simpa [start, abs_of_nonneg mem.1] using mean

end Horner

end FlightMath
