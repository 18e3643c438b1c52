import FlightMath.Binary.Basic

/-! # Words

A word is the sign bit, then the exponent field, then the fraction field. Read as one number, the
exponent and fraction fields count the magnitudes of the format in order, so encoding is a count:
`shift` full binades below the magnitude's own, and its significand.

NaN has no word of its own here; any word whose exponent field is full and whose fraction is not
zero reads as NaN. The main statement, `ofWord_of_word?_eq_some`, is that any other value is read
back from its word.
-/

namespace FlightMath

namespace FloatFormat

variable (F : FloatFormat)

/-- The number of words in one binade. -/
def binadeWords : Nat :=
  2 ^ (F.precision - 1)

/-- The exponent field of the infinities and of NaN. -/
def topExponent : Nat :=
  F.limitExponent - F.precision + 2

/-- The weight of the sign bit. -/
def signWord : Nat :=
  (F.topExponent + 1) * F.binadeWords

/-- The position of a magnitude among all magnitudes of the format. -/
def magnitudeWord (units : Nat) : Nat :=
  F.shift units * F.binadeWords + units / 2 ^ F.shift units

/-- The magnitude at a position below that of the infinities. -/
def unitsOfWord (position : Nat) : Nat :=
  let exponent := position / F.binadeWords
  let fraction := position % F.binadeWords
  if exponent = 0 then fraction else (F.binadeWords + fraction) * 2 ^ (exponent - 1)

private theorem binadeWords_pos : 0 < F.binadeWords :=
  Nat.two_pow_pos _

private theorem two_mul_binadeWords : 2 * F.binadeWords = 2 ^ F.precision := by
  have := F.precision_pos
  rw [binadeWords, Nat.mul_comm, ← Nat.pow_succ, show (F.precision - 1).succ = F.precision by omega]

private theorem unitsOfWord_lt (position : Nat) :
    F.unitsOfWord position < 2 ^ (F.precision + (position / F.binadeWords - 1)) := by
  have twice := F.two_mul_binadeWords
  have fraction := Nat.mod_lt position F.binadeWords_pos
  unfold unitsOfWord
  dsimp only
  split
  · next subnormal =>
    rw [subnormal, Nat.zero_sub, Nat.add_zero]
    omega
  · rw [Nat.pow_add]
    exact Nat.mul_lt_mul_of_pos_right (by omega) (Nat.two_pow_pos _)

/-- Every position below the infinities holds a magnitude of the format. -/
theorem fits_unitsOfWord {position : Nat} (below : position / F.binadeWords < F.topExponent) :
    F.Fits (F.unitsOfWord position) := by
  have bounded := F.unitsOfWord_lt position
  constructor
  · refine Nat.lt_of_lt_of_le bounded (Nat.pow_le_pow_right Nat.two_pos ?_)
    have := F.precision_le_limit
    unfold topExponent at below
    omega
  · refine Nat.dvd_trans (Nat.pow_dvd_pow 2 (F.shift_le_of_lt bounded)) ?_
    unfold unitsOfWord
    dsimp only
    split
    · next subnormal => rw [subnormal]; exact Nat.one_dvd _
    · exact Nat.dvd_mul_left _ _

/-- A magnitude below the first full binade has no unused bits and is its own position. -/
theorem magnitudeWord_of_lt {units : Nat} (subnormal : units < F.binadeWords) :
    F.magnitudeWord units = units := by
  have twice := F.two_mul_binadeWords
  have unshifted : F.shift units = 0 :=
    Nat.le_zero.mp (F.shift_le_of_lt (by rw [Nat.add_zero]; omega))
  simp [magnitudeWord, unshifted]

/-- From the first full binade on, the significand has exactly `precision` bits. -/
theorem significand_bounds {units : Nat} (normal : F.binadeWords ≤ units) :
    F.binadeWords ≤ units / 2 ^ F.shift units ∧
      units / 2 ^ F.shift units < 2 * F.binadeWords := by
  have nonzero : units ≠ 0 := Nat.ne_of_gt (Nat.lt_of_lt_of_le F.binadeWords_pos normal)
  have exponent : F.precision - 1 ≤ units.log2 := (Nat.le_log2 nonzero).mpr normal
  have positive := F.precision_pos
  constructor
  · rw [Nat.le_div_iff_mul_le (Nat.two_pow_pos _), binadeWords, ← Nat.pow_add]
    exact Nat.le_trans (Nat.pow_le_pow_right Nat.two_pos (by unfold shift; omega))
      (Nat.log2_self_le nonzero)
  · rw [two_mul_binadeWords, Nat.div_lt_iff_lt_mul (Nat.two_pow_pos _), ← Nat.pow_add]
    exact Nat.lt_of_lt_of_le Nat.lt_log2_self
      (Nat.pow_le_pow_right Nat.two_pos (by unfold shift; omega))

/-- The position of a full significand splits into the exponent field and the fraction field. -/
theorem magnitudeWord_div_mod {units : Nat} (normal : F.binadeWords ≤ units) :
    F.magnitudeWord units / F.binadeWords = F.shift units + 1 ∧
      F.magnitudeWord units % F.binadeWords =
        units / 2 ^ F.shift units - F.binadeWords := by
  have ⟨lower, upper⟩ := F.significand_bounds normal
  unfold magnitudeWord
  generalize units / 2 ^ F.shift units = significand at lower upper
  have split : F.shift units * F.binadeWords + significand =
      significand - F.binadeWords + F.binadeWords * (F.shift units + 1) := by
    rw [Nat.mul_add, Nat.mul_comm F.binadeWords]
    omega
  have fraction : significand - F.binadeWords < F.binadeWords := by omega
  rw [split, Nat.add_mul_div_left _ _ F.binadeWords_pos, Nat.add_mul_mod_self_left,
    Nat.div_eq_of_lt fraction, Nat.mod_eq_of_lt fraction, Nat.zero_add]
  exact ⟨rfl, rfl⟩

/-- Decoding its position gives a magnitude back. -/
theorem unitsOfWord_magnitudeWord {units : Nat} (fits : F.Fits units) :
    F.unitsOfWord (F.magnitudeWord units) = units := by
  by_cases normal : F.binadeWords ≤ units
  · have ⟨exponent, fraction⟩ := F.magnitudeWord_div_mod normal
    have ⟨lower, _⟩ := F.significand_bounds normal
    simp only [unitsOfWord, exponent, fraction, Nat.add_one_ne_zero, ↓reduceIte, Nat.add_sub_cancel,
      Nat.add_sub_cancel' lower]
    exact Nat.div_mul_cancel fits.2
  · have subnormal : units < F.binadeWords := Nat.lt_of_not_le normal
    simp [unitsOfWord, F.magnitudeWord_of_lt subnormal, Nat.div_eq_of_lt subnormal,
      Nat.mod_eq_of_lt subnormal]

/-- Every magnitude of the format stands below the infinities. -/
theorem magnitudeWord_div_lt {units : Nat} (fits : F.Fits units) :
    F.magnitudeWord units / F.binadeWords < F.topExponent := by
  by_cases normal : F.binadeWords ≤ units
  · rw [(F.magnitudeWord_div_mod normal).1]
    have nonzero : units ≠ 0 := Nat.ne_of_gt (Nat.lt_of_lt_of_le F.binadeWords_pos normal)
    have exponent : units.log2 < F.limitExponent := (Nat.log2_lt nonzero).mpr fits.1
    have := F.precision_le_limit
    unfold shift topExponent
    omega
  · have subnormal : units < F.binadeWords := Nat.lt_of_not_le normal
    rw [F.magnitudeWord_of_lt subnormal, Nat.div_eq_of_lt subnormal]
    unfold topExponent
    omega

end FloatFormat

namespace Binary

variable {F : FloatFormat}

/-- The value of a word; bits above the sign bit are ignored. -/
def ofWord (word : Nat) : Binary F :=
  let position := word % F.signWord
  let negative := word / F.signWord % 2 == 1
  if below : position / F.binadeWords < F.topExponent then
    .finite negative (F.unitsOfWord position) (F.fits_unitsOfWord below)
  else if position = F.topExponent * F.binadeWords then .infinite negative
  else .nan

/-- The word of a value, or nothing for NaN. -/
def word? : Binary F → Option Nat
  | .nan => none
  | .infinite negative => some (negative.toNat * F.signWord + F.topExponent * F.binadeWords)
  | .finite negative units _ => some (negative.toNat * F.signWord + F.magnitudeWord units)

/-- A word splits into its sign bit and the rest. -/
theorem signWord_div_mod (negative : Bool) {position : Nat} (below : position < F.signWord) :
    (negative.toNat * F.signWord + position) % F.signWord = position ∧
      ((negative.toNat * F.signWord + position) / F.signWord % 2 == 1) = negative := by
  rw [Nat.mul_comm, Nat.mul_add_mod, Nat.mod_eq_of_lt below,
    Nat.mul_add_div (Nat.zero_lt_of_lt below), Nat.div_eq_of_lt below]
  cases negative <;> simp

/-- A value is read back from its word. -/
theorem ofWord_of_word?_eq_some {x : Binary F} {word : Nat} (encoded : x.word? = some word) :
    ofWord word = x := by
  cases x with
  | nan => cases encoded
  | infinite negative =>
    have below : F.topExponent * F.binadeWords < F.signWord :=
      Nat.mul_lt_mul_of_pos_right (Nat.lt_succ_self _) F.binadeWords_pos
    have ⟨rest, sign⟩ := signWord_div_mod negative below
    cases encoded
    simp [ofWord, rest, sign, Nat.mul_div_cancel _ F.binadeWords_pos]
  | finite negative units fits =>
    have top := F.magnitudeWord_div_lt fits
    have below : F.magnitudeWord units < F.signWord := by
      rw [Nat.div_lt_iff_lt_mul F.binadeWords_pos] at top
      exact Nat.lt_of_lt_of_le top (Nat.mul_le_mul_right _ (Nat.le_succ _))
    have ⟨rest, sign⟩ := signWord_div_mod negative below
    cases encoded
    simp [ofWord, rest, sign, top, F.unitsOfWord_magnitudeWord fits]

@[simp] theorem word?_eq_none_iff (x : Binary F) : x.word? = none ↔ x = .nan := by
  cases x <;> simp [word?]

end Binary

end FlightMath
