import FlightMath.Power
import Mathlib

/-! # Upper bounds of polynomials on intervals

A polynomial is the list of its coefficients, the constant first. Expanded about the left end of a
short interval, its Horner form gives an upper bound there: each factor is replaced by its own upper
bound, or by zero when that is negative. A longer interval is cut into pieces of one length, so a
bound on it is a finite check on rational numbers. Over a common denominator it is one on integers,
and in that form it is decided.
-/

namespace FlightMath.Horner

/-- The value of a polynomial. -/
def eval : List ℚ → ℚ → ℚ
  | [], _ => 0
  | c :: rest, x => c + x * eval rest x

/-- The coefficients of `carry + (center + t) * p t`. -/
def mulLinear (center : ℚ) : ℚ → List ℚ → List ℚ
  | carry, [] => [carry]
  | carry, c :: rest => (carry + center * c) :: mulLinear center c rest

/-- The coefficients of the polynomial about another center. -/
def recenter (center : ℚ) : List ℚ → List ℚ
  | [] => []
  | c :: rest => mulLinear center c (recenter center rest)

/-- An upper bound on `[0, width]`. -/
def upper (width : ℚ) : List ℚ → ℚ
  | [] => 0
  | c :: rest => c + width * max 0 (upper width rest)

private theorem eval_mulLinear (center carry t : ℚ) (p : List ℚ) :
    eval (mulLinear center carry p) t = carry + (center + t) * eval p t := by
  induction p generalizing carry with
  | nil => simp [mulLinear, eval]
  | cons c rest ih =>
    simp only [mulLinear, eval, ih]
    ring

private theorem eval_recenter (center t : ℚ) (p : List ℚ) :
    eval (recenter center p) t = eval p (center + t) := by
  induction p with
  | nil => rfl
  | cons c rest ih => rw [recenter, eval_mulLinear, ih, eval]

private theorem eval_le_upper {width t : ℚ} (nonneg : 0 ≤ t) (le : t ≤ width) (p : List ℚ) :
    eval p t ≤ upper width p := by
  induction p with
  | nil => exact le_rfl
  | cons c rest ih =>
    have tail : t * eval rest t ≤ width * max 0 (upper width rest) :=
      calc t * eval rest t
          ≤ t * max 0 (upper width rest) :=
            mul_le_mul_of_nonneg_left (ih.trans (le_max_right _ _)) nonneg
        _ ≤ width * max 0 (upper width rest) :=
            mul_le_mul_of_nonneg_right le (le_max_left _ _)
    exact add_le_add_right tail c

private theorem eval_map_neg (x : ℚ) (p : List ℚ) : eval (p.map (-·)) x = -eval p x := by
  induction p with
  | nil => exact neg_zero.symm
  | cons c rest ih =>
    rw [List.map_cons, eval, eval, ih]
    ring

theorem eval_append (p q : List ℚ) (x : ℚ) :
    eval (p ++ q) x = eval p x + x ^ p.length * eval q x := by
  induction p with
  | nil => simp [eval]
  | cons c rest ih =>
    rw [List.cons_append, eval, ih, eval, List.length_cons, pow_succ]
    ring

/-- The coefficients of the sum. -/
def add : List ℚ → List ℚ → List ℚ
  | [], q => q
  | p, [] => p
  | a :: p, b :: q => (a + b) :: add p q

theorem eval_add (p q : List ℚ) (x : ℚ) : eval (add p q) x = eval p x + eval q x := by
  induction p, q using add.induct with
  | case1 q => simp [add, eval]
  | case2 p nonempty => cases p <;> simp [add, eval]
  | case3 a p b q ih =>
    simp only [add, eval, ih]
    ring

/-- Every piece of the interval, cut into `pieces` of one width, keeps to the bound. -/
def Keeps (p : List ℚ) (start width : ℚ) (pieces : ℕ) (bound : ℚ) : Prop :=
  ∀ piece < pieces, upper width (recenter (start + piece * width) p) ≤ bound

/-- A polynomial is below a bound that every piece of an interval keeps to. The right end belongs to
the last piece. -/
theorem Keeps.eval_le {p : List ℚ} {start width bound x : ℚ} {pieces : ℕ}
    (keeps : Keeps p start width pieces bound) (positive : 0 < width) (nonempty : 0 < pieces)
    (lower : start ≤ x) (upper : x ≤ start + pieces * width) : eval p x ≤ bound := by
  have distance : 0 ≤ (x - start) / width := div_nonneg (by linarith) positive.le
  obtain ⟨piece, inside, left, right⟩ : ∃ piece < pieces,
      start + piece * width ≤ x ∧ x ≤ start + piece * width + width := by
    have floor := Nat.floor_le distance
    have next := (Nat.lt_floor_add_one ((x - start) / width)).le
    rw [le_div_iff₀ positive] at floor
    rw [div_le_iff₀ positive] at next
    rcases lt_or_ge ⌊(x - start) / width⌋₊ pieces with inside | beyond
    · exact ⟨_, inside, by linarith, by linarith⟩
    · have beyond' : (pieces : ℚ) * width ≤ ⌊(x - start) / width⌋₊ * width :=
        mul_le_mul_of_nonneg_right (by exact_mod_cast beyond) positive.le
      have last : ((pieces - 1 : ℕ) : ℚ) = pieces - 1 := by
        rw [Nat.cast_sub nonempty, Nat.cast_one]
      refine ⟨pieces - 1, by omega, ?_, ?_⟩ <;> rw [last] <;> linarith
  have expanded := eval_recenter (start + piece * width) (x - (start + piece * width)) p
  rw [add_sub_cancel] at expanded
  rw [← expanded]
  exact (eval_le_upper (by linarith) (by linarith) _).trans (keeps piece inside)

/-- With the opposite polynomial the check bounds the magnitude. -/
theorem abs_eval_le {p : List ℚ} {start width bound x : ℚ} {pieces : ℕ}
    (keeps : Keeps p start width pieces bound)
    (keepsNeg : Keeps (p.map (-·)) start width pieces bound) (positive : 0 < width)
    (nonempty : 0 < pieces) (lower : start ≤ x) (upper : x ≤ start + pieces * width) :
    |eval p x| ≤ bound := by
  have opposite := keepsNeg.eval_le positive nonempty lower upper
  rw [eval_map_neg] at opposite
  exact abs_le.mpr ⟨by linarith, keeps.eval_le positive nonempty lower upper⟩

/-! ## Common denominators -/

/-- The coefficients, times a scale, for arguments that are counted in fractions of one. -/
def inFractions (fractions : ℚ) : ℚ → List ℚ → List ℚ
  | _, [] => []
  | scale, c :: rest => scale * c :: inFractions fractions (scale / fractions) rest

variable {fractions : ℚ}

private theorem inFractions_mulLinear (nonzero : fractions ≠ 0) (center carry scale : ℚ)
    (p : List ℚ) :
    inFractions fractions scale (mulLinear center carry p) =
      mulLinear (fractions * center) (scale * carry)
        (inFractions fractions (scale / fractions) p) := by
  induction p generalizing carry scale with
  | nil => rfl
  | cons c rest ih =>
    have head : scale * (carry + center * c) =
        scale * carry + fractions * center * (scale / fractions * c) := by
      field_simp
    simp only [mulLinear, inFractions, ih, head]

private theorem inFractions_recenter (nonzero : fractions ≠ 0) (center scale : ℚ) (p : List ℚ) :
    inFractions fractions scale (recenter center p) =
      recenter (fractions * center) (inFractions fractions scale p) := by
  induction p generalizing scale with
  | nil => rfl
  | cons c rest ih => rw [recenter, inFractions_mulLinear nonzero, ih, inFractions, recenter]

private theorem upper_inFractions (positive : 0 < fractions) (width : ℚ) {scale : ℚ}
    (nonneg : 0 ≤ scale) (p : List ℚ) :
    upper (fractions * width) (inFractions fractions scale p) = scale * upper width p := by
  induction p generalizing scale with
  | nil => exact (mul_zero scale).symm
  | cons c rest ih =>
    have share := div_nonneg nonneg positive.le
    have tail : max 0 (scale / fractions * upper width rest) =
        scale / fractions * max 0 (upper width rest) := by
      rw [mul_max_of_nonneg _ _ share, mul_zero]
    rw [inFractions, upper, upper, ih share, tail]
    field_simp

/-! ## The check on integers -/

namespace Whole

/-- `Horner.mulLinear` on integers. -/
def mulLinear (center : ℤ) : ℤ → List ℤ → List ℤ
  | carry, [] => [carry]
  | carry, c :: rest => (carry + center * c) :: mulLinear center c rest

/-- `Horner.recenter` on integers. -/
def recenter (center : ℤ) : List ℤ → List ℤ
  | [] => []
  | c :: rest => mulLinear center c (recenter center rest)

/-- `Horner.upper` on integers. -/
def upper (width : ℤ) : List ℤ → ℤ
  | [] => 0
  | c :: rest => c + width * max 0 (upper width rest)

/-- An integer list over the rational numbers. -/
def cast (p : List ℤ) : List ℚ :=
  p.map (↑)

private theorem cast_mulLinear (center carry : ℤ) (p : List ℤ) :
    cast (mulLinear center carry p) = Horner.mulLinear center carry (cast p) := by
  induction p generalizing carry with
  | nil => rfl
  | cons c rest ih =>
    simp only [cast, List.map_cons, mulLinear, Horner.mulLinear] at ih ⊢
    rw [ih]
    push_cast
    rfl

private theorem cast_recenter (center : ℤ) (p : List ℤ) :
    cast (recenter center p) = Horner.recenter center (cast p) := by
  induction p with
  | nil => rfl
  | cons c rest ih => rw [recenter, cast_mulLinear, ih, cast, cast, List.map_cons, Horner.recenter]

private theorem cast_upper (width : ℤ) (p : List ℤ) :
    ((upper width p : ℤ) : ℚ) = Horner.upper width (cast p) := by
  induction p with
  | nil => exact Int.cast_zero
  | cons c rest ih =>
    rw [upper, cast, List.map_cons, Horner.upper]
    push_cast
    rw [ih, cast]

/-- The numerators of the coefficients over a common denominator, for arguments counted in
fractions of one. -/
def numerators (denominator fractions : ℕ) : List ℚ → List ℤ
  | [] => []
  | c :: rest => c.num * (denominator / c.den * fractions ^ (rest.length + 1) : ℕ) ::
      numerators denominator fractions rest

/-- A number times a multiple of its denominator. -/
theorem num_mul_cast_div {c : ℚ} {denominator : ℕ} (divides : c.den ∣ denominator) (factor : ℕ) :
    ((c.num * (denominator / c.den * factor : ℕ) : ℤ) : ℚ) = denominator * factor * c := by
  obtain ⟨multiple, rfl⟩ := divides
  rw [Nat.mul_div_cancel_left _ c.den_pos]
  push_cast
  rw [← Rat.mul_den_eq_num c]
  ring

private theorem cast_numerators {denominator fractions : ℕ} (positive : 0 < fractions) {p : List ℚ}
    (divides : ∀ c ∈ p, c.den ∣ denominator) : cast (numerators denominator fractions p) =
      inFractions fractions (denominator * fractions ^ p.length) p := by
  induction p with
  | nil => rfl
  | cons c rest ih =>
    have nonzero : (fractions : ℚ) ≠ 0 := by exact_mod_cast positive.ne'
    have scale : (denominator * fractions ^ (rest.length + 1) / fractions : ℚ) =
        denominator * fractions ^ rest.length := by
      rw [pow_succ]
      field_simp
    rw [cast] at ih
    rw [numerators, cast, List.map_cons, num_mul_cast_div (divides c List.mem_cons_self),
      ih fun other member => divides other (List.mem_cons_of_mem c member), inFractions,
      List.length_cons, scale]
    push_cast
    rfl

/-- A common denominator of a bound and of coefficients. -/
def commonDenominator (bound : ℚ) (p : List ℚ) : ℕ :=
  p.foldr (fun c rest => Nat.lcm c.den rest) bound.den

private theorem den_dvd_commonDenominator (bound : ℚ) (p : List ℚ) :
    bound.den ∣ commonDenominator bound p ∧ ∀ c ∈ p, c.den ∣ commonDenominator bound p := by
  induction p with
  | nil => exact ⟨dvd_rfl, by simp⟩
  | cons c rest ih =>
    refine ⟨ih.1.trans (Nat.dvd_lcm_right _ _), ?_⟩
    intro other member
    rcases List.mem_cons.mp member with rfl | inside
    · exact Nat.dvd_lcm_left _ _
    · exact (ih.2 other inside).trans (Nat.dvd_lcm_right _ _)

private theorem commonDenominator_ne_zero (bound : ℚ) (p : List ℚ) :
    commonDenominator bound p ≠ 0 := by
  induction p with
  | nil => exact bound.den_nz
  | cons c rest ih => exact Nat.lcm_ne_zero c.den_nz ih

/-- The check of every piece, in fractions that the start and the width are whole numbers of. -/
def Keeps (p : List ℚ) (start width : ℚ) (pieces : ℕ) (bound : ℚ) : Prop :=
  ∀ piece < pieces, upper (width.num * start.den)
      (recenter (start.num * width.den + piece * (width.num * start.den))
        (numerators (commonDenominator bound p) (start.den * width.den) p)) ≤
    bound.num * (commonDenominator bound p / bound.den *
      (start.den * width.den) ^ p.length : ℕ)

instance (p : List ℚ) (start width : ℚ) (pieces : ℕ) (bound : ℚ) :
    Decidable (Keeps p start width pieces bound) :=
  inferInstanceAs (Decidable (∀ piece < pieces, _))

/-- The two checks agree. -/
theorem keeps_iff (p : List ℚ) (start width : ℚ) (pieces : ℕ) (bound : ℚ) :
    Keeps p start width pieces bound ↔ Horner.Keeps p start width pieces bound := by
  obtain ⟨boundDivides, divides⟩ := den_dvd_commonDenominator bound p
  have positive : 0 < start.den * width.den := Nat.mul_pos start.den_pos width.den_pos
  have fractions : (0 : ℚ) < start.den * width.den := by exact_mod_cast positive
  have denominator : (0 : ℚ) < commonDenominator bound p := by
    exact_mod_cast Nat.pos_of_ne_zero (commonDenominator_ne_zero bound p)
  have scale : (0 : ℚ) < commonDenominator bound p * (start.den * width.den) ^ p.length := by
    positivity
  refine forall₂_congr fun piece _ => ?_
  have whole : ((width.num * start.den : ℤ) : ℚ) = start.den * width.den * width := by
    push_cast
    rw [← Rat.mul_den_eq_num width]
    ring
  have center : ((start.num * width.den + piece * (width.num * start.den) : ℤ) : ℚ) =
      start.den * width.den * (start + piece * width) := by
    push_cast
    rw [← Rat.mul_den_eq_num width, ← Rat.mul_den_eq_num start]
    ring
  rw [← Int.cast_le (R := ℚ), cast_upper, cast_recenter, cast_numerators positive divides,
    num_mul_cast_div boundDivides, whole, center]
  push_cast
  rw [← inFractions_recenter fractions.ne', upper_inFractions fractions _ scale.le,
    mul_le_mul_iff_right₀ scale]

end Whole

instance (p : List ℚ) (start width : ℚ) (pieces : ℕ) (bound : ℚ) :
    Decidable (Keeps p start width pieces bound) :=
  decidable_of_iff _ (Whole.keeps_iff p start width pieces bound)

end FlightMath.Horner
