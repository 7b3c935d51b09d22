import Reckon.Proofs.Comparison
import Reckon.Proofs.FixedPoint

/-!
# Rounding is exact

Rounding works on strings of digits, but what it does is arithmetic.  The magnitude of the
result is the double nearest to `⌈D · 10 ^ precision⌉ / 10 ^ precision`, where `D` is the
decimal number that the magnitude is displayed as.  That a value which needs no more digits
is kept as it is makes no difference to this.
-/

namespace Reckon

namespace Digits

theorem cast_weight (places : Nat) : ((weight places : Nat) : ℚ) = 10 ^ places :=
  Nat.cast_pow 10 places

end Digits

namespace Numeral

variable {numeral other : Numeral} {precision number : Nat}

/-- The number that a numeral denotes. -/
def toRat (numeral : Numeral) : ℚ :=
  numeral.coefficient / 10 ^ numeral.places

/-- A number counted in the last of `precision` places and rounded up. -/
def stepsUp (precision : Nat) (numeral : Numeral) : Nat :=
  ⌈numeral.toRat * 10 ^ precision⌉₊

theorem toRat_ofScaled (coefficient places : Nat) :
    (ofScaled coefficient places).toRat = coefficient / 10 ^ places := by
  rw [toRat, coefficient_ofScaled, places_ofScaled]

theorem toRat_le_toRat_iff :
    numeral.toRat ≤ other.toRat ↔
      numeral.coefficient * Digits.weight other.places ≤
        other.coefficient * Digits.weight numeral.places := by
  have positive : ∀ places, (0 : ℚ) < 10 ^ places := fun places => by positivity
  rw [toRat, toRat, div_le_div_iff₀ (positive _) (positive _), ← Digits.cast_weight,
    ← Digits.cast_weight]
  norm_cast

theorem toRat_eq_toRat_iff :
    numeral.toRat = other.toRat ↔
      numeral.coefficient * Digits.weight other.places =
        other.coefficient * Digits.weight numeral.places := by
  rw [le_antisymm_iff, toRat_le_toRat_iff, toRat_le_toRat_iff, ← le_antisymm_iff]

/-- The steps are the least that are not too small. -/
theorem stepsUp_le_iff :
    numeral.stepsUp precision ≤ number ↔
      numeral.coefficient * Digits.weight precision ≤ number * Digits.weight numeral.places := by
  have positive : (0 : ℚ) < 10 ^ numeral.places := by positivity
  rw [stepsUp, Nat.ceil_le, toRat, div_mul_eq_mul_div, div_le_iff₀ positive,
    ← Digits.cast_weight, ← Digits.cast_weight]
  norm_cast

theorem coefficient_le_stepsUp (numeral : Numeral) (precision : Nat) :
    numeral.coefficient * Digits.weight precision ≤
      numeral.stepsUp precision * Digits.weight numeral.places :=
  stepsUp_le_iff.mp le_rfl

/-- A numeral with few places is on the grid. -/
theorem stepsUp_of_places_le (short : numeral.places ≤ precision) :
    numeral.stepsUp precision =
      numeral.coefficient * Digits.weight (precision - numeral.places) := by
  have grid : Digits.weight precision =
      Digits.weight (precision - numeral.places) * Digits.weight numeral.places := by
    rw [← Digits.weight_add, Nat.sub_add_cancel short]
  apply eq_of_forall_ge_iff
  intro number
  rw [stepsUp_le_iff, grid, ← Nat.mul_assoc]
  exact Nat.mul_le_mul_right_iff (Digits.weight_pos _)

/-- Cutting a numeral off and adding one in the last place counts the steps. -/
theorem IsDecimal.coefficient_ceil_eq (decimal : numeral.IsDecimal)
    (long : precision < numeral.places) :
    (numeral.ceil precision).coefficient = numeral.stepsUp precision := by
  have ceiling := decimal.coefficient_ceil long
  dsimp only at ceiling
  have grid : Digits.weight numeral.places =
      Digits.weight (numeral.places - precision) * Digits.weight precision := by
    rw [← Digits.weight_add, Nat.sub_add_cancel long.le]
  apply eq_of_forall_ge_iff
  intro number
  rw [stepsUp_le_iff, grid, ← Nat.mul_assoc, Nat.mul_le_mul_right_iff (Digits.weight_pos _)]
  generalize Digits.weight (numeral.places - precision) = step at ceiling
  constructor
  · intro enough
    exact ceiling.1.trans (Nat.mul_le_mul_right step enough)
  · intro enough
    apply Nat.le_of_lt_succ
    apply Nat.lt_of_mul_lt_mul_right (a := step)
    rw [Nat.succ_mul]
    omega

/-- The rounded numeral reads as its number of steps. -/
theorem IsDecimal.nearestCode_ceil (decimal : numeral.IsDecimal) (precision : Nat) :
    Binary64.nearestCode (numeral.ceil precision).coefficient
        (Digits.weight (numeral.ceil precision).places) =
      Binary64.nearestCode (numeral.stepsUp precision) (Digits.weight precision) := by
  rcases Nat.lt_or_ge precision numeral.places with long | short
  · rw [decimal.places_ceil long, decimal.coefficient_ceil_eq long]
  · rw [ceil_of_places_le short, stepsUp_of_places_le short, nearestCode_weight short]

end Numeral

/-! ## The code of a rounded value -/

open Binary64 (Fits ofCode)

section Code

variable {precision code : Nat}

/-- The code that the magnitude of a given code is rounded to. -/
def roundedCode (precision code : Nat) : Nat :=
  Binary64.nearestCode ((Numeral.shortest code).stepsUp precision) (Digits.weight precision)

/-- What fits the precision is kept. -/
theorem roundedCode_eq (fits : Fits precision code) : roundedCode precision code = code := by
  rw [roundedCode, ← (Numeral.isDecimal_shortest code).nearestCode_ceil,
    Numeral.ceil_of_places_le fits.places_le, Numeral.nearestCode_shortest fits.finite]

theorem fits_roundedCode (finite : code < Binary64.infinityCode) (precision : Nat) :
    Fits precision (roundedCode precision code) := by
  rcases Nat.lt_or_ge precision (Numeral.shortest code).places with long | short
  · rw [roundedCode, ← (Numeral.isDecimal_shortest code).coefficient_ceil_eq long]
    exact Numeral.fits_ceil finite long
  · have fits : Fits precision code := ⟨finite, short⟩
    rwa [roundedCode_eq fits]

/-- Rounding does not make a magnitude smaller. -/
theorem le_roundedCode (finite : code < Binary64.infinityCode) (precision : Nat) :
    code ≤ roundedCode precision code := by
  conv_lhs => rw [← Numeral.nearestCode_shortest finite]
  exact Binary64.nearestCode_mono (Digits.weight_pos _) (Digits.weight_pos _)
    (Numeral.coefficient_le_stepsUp _ precision)

/-- Rounding a double is rounding its magnitude. -/
theorem roundAway_ofCode_eq (finite : code < Binary64.infinityCode) (negative : Bool)
    (precision : Nat) :
    roundAway precision (ofCode negative code) =
      .ok (ofCode negative (roundedCode precision code)) := by
  rcases Nat.lt_or_ge precision (Numeral.shortest code).places with long | short
  · have decimal := Numeral.isDecimal_shortest code
    have same := Binary64.code_ofCode negative finite
    rw [roundAway_of_lt_places (Binary64.isFinite_ofCode negative finite) (by rwa [same]), same,
      Binary64.isNegative_ofCode negative finite, Numeral.toFloat, decimal.nearestCode_ceil,
      roundedCode]
  · have fits : Fits precision code := ⟨finite, short⟩
    rw [roundAway_ofCode fits, roundedCode_eq fits]

/-- A magnitude is displayed by its shortest numeral. -/
theorem text_ofCode (finite : code < Binary64.infinityCode) :
    Binary64.text (ofCode false code) = String.ofList (Numeral.shortest code).toList := by
  rw [Binary64.text, Binary64.code_ofCode false finite, Binary64.isNegative_ofCode false finite]
  dsimp only
  rw [if_neg finite.asymm, if_neg finite.ne, if_neg (by decide)]

/-- The displayed numeral of a magnitude reads as this magnitude. -/
theorem read?_shortest (finite : code < Binary64.infinityCode) :
    Literal.read? (Numeral.shortest code).toList = some (ofCode false code) := by
  have reading := Literal.read?_toList (Numeral.isDecimal_shortest code) false
  rwa [if_neg (by decide), Numeral.toFloat, Numeral.nearestCode_shortest finite] at reading

end Code

/-- Rounding is exact decimal rounding away from zero on the digits that are displayed. -/
theorem roundAway_exact (precision : Nat) (value : Float) :
    (Binary64.isFinite value →
      let numeral := Numeral.shortest (Binary64.code value)
      let steps := ⌈numeral.toRat * 10 ^ precision⌉₊
      let magnitude := Numeral.ofScaled steps precision
      Binary64.text value.abs = String.ofList numeral.toList ∧
      Literal.read? numeral.toList = some value.abs ∧
      magnitude.toRat = steps / 10 ^ precision ∧
      ∃ rounded, roundAway precision value = .ok rounded ∧
        Literal.read?
            (if Binary64.isNegative value then '-' :: magnitude.toList else magnitude.toList) =
          some rounded ∧
        Binary64.isFinite rounded ∧
        Binary64.isNegative rounded = Binary64.isNegative value ∧
        value.abs ≤ rounded.abs ∧
        ((value == 0.0) = false → (rounded == 0.0) = false)) ∧
    (Binary64.isFinite value = false → roundAway precision value = .error .notFinite) := by
  constructor
  · intro isFinite
    have finite := Binary64.isFinite_iff.mp isFinite
    have rounds := roundAway_ofCode_eq finite (Binary64.isNegative value) precision
    have fits := fits_roundedCode finite precision
    have larger := le_roundedCode finite precision
    have whole := Binary64.ofCode_code value
    generalize Binary64.isNegative value = negative at *
    generalize Binary64.code value = code at *
    subst whole
    have decimal := Numeral.isDecimal_ofScaled ((Numeral.shortest code).stepsUp precision) precision
    refine ⟨?_, ?_, Numeral.toRat_ofScaled _ _, _, rounds, ?_, ?_, ?_, ?_, ?_⟩
    · rw [Binary64.abs_ofCode negative finite, text_ofCode finite]
    · rw [Binary64.abs_ofCode negative finite, read?_shortest finite]
    · have reading := Literal.read?_toList decimal negative
      rwa [Numeral.toFloat, Numeral.coefficient_ofScaled, Numeral.places_ofScaled] at reading
    · exact Binary64.isFinite_ofCode negative fits.finite
    · exact Binary64.isNegative_ofCode negative fits.finite
    · exact (Binary64.abs_ofCode_le_abs_ofCode_iff finite fits.finite).mpr larger
    · rw [Bool.eq_false_iff, Bool.eq_false_iff, ne_eq, ne_eq,
        Binary64.ofCode_beq_zero_iff negative finite,
        Binary64.ofCode_beq_zero_iff negative fits.finite]
      omega
  · intro infinite
    exact roundAway_eq_error_iff.mpr ⟨infinite, rfl⟩

theorem roundAway_exact_carry :
    let value : Float := -9.99991
    Binary64.isFinite value ∧
      Binary64.text value.abs = "9.99991" ∧
      Literal.read? "-10.000".toList = some (-10.0) ∧
      roundAway 3 value = .ok (-10.0) ∧
      value.abs ≤ Float.abs (-10.0) := by
  intro value
  have isFinite : Binary64.isFinite value := by decide +kernel
  have numeral : Numeral.shortest (Binary64.code value) =
      ⟨['9'], ['9', '9', '9', '9', '1']⟩ := by decide +kernel
  have negative : Binary64.isNegative value = true := by decide +kernel
  have exact := (roundAway_exact 3 value).1 isFinite
  have steps : ⌈Numeral.toRat ⟨['9'], ['9', '9', '9', '9', '1']⟩ * 10 ^ 3⌉₊ = 10000 := by
    have count : ((Digits.value ['9', '9', '9', '9', '9', '1'] : Nat) : ℚ) = 999991 := by
      norm_cast
    rw [Nat.ceil_eq_iff (by decide)]
    change _ < (Digits.value ['9', '9', '9', '9', '9', '1'] : ℚ) / 10 ^ 5 * 10 ^ 3 ∧
      (Digits.value ['9', '9', '9', '9', '9', '1'] : ℚ) / 10 ^ 5 * 10 ^ 3 ≤ _
    rw [count]
    norm_num
  have magnitude : Numeral.ofScaled 10000 3 = ⟨['1', '0'], ['0', '0', '0']⟩ := by decide
  have reading : Literal.read? "-10.000".toList = some (-10.0) := by decide +kernel
  dsimp only at exact
  rw [numeral, negative, steps, magnitude] at exact
  rcases exact with ⟨displayed, _, _, rounded, rounds, read, _, _, larger, _⟩
  cases reading.symm.trans read
  exact ⟨isFinite, displayed, reading, rounds, larger⟩

end Reckon
