import Reckon.Binary64
import Reckon.Digits

/-!
# Unsigned decimal numerals

A numeral is a decimal number as it is written, without sign or exponent: the
digits before the point and the digits after it.  This module holds its text,
its value as a fraction, the double nearest to it, and rounding up to a number
of fractional digits.
-/

namespace Reckon

/-- The digits of a decimal number before and after its point. -/
@[ext] structure Numeral where
  whole : List Char
  fraction : List Char
  deriving DecidableEq, Repr

namespace Numeral

/-- The characters of a numeral; a numeral without fraction has no point. -/
def toList (numeral : Numeral) : List Char :=
  match numeral.fraction with
  | [] => numeral.whole
  | fraction => numeral.whole ++ '.' :: fraction

/-- The number of digits after the point. -/
def places (numeral : Numeral) : Nat :=
  numeral.fraction.length

/-- All digits read as one natural number, so that a numeral denotes
`coefficient / weight places`. -/
def coefficient (numeral : Numeral) : Nat :=
  Digits.value (numeral.whole ++ numeral.fraction)

/-- The numeral of `coefficient / weight places`, with a digit before the point
and exactly `places` digits after it. -/
def ofScaled (coefficient places : Nat) : Numeral where
  whole := Digits.ofNat (coefficient / Digits.weight places)
  fraction :=
    if places = 0 then []
    else Digits.padded places (coefficient % Digits.weight places)

/-- The double of a given sign nearest to a numeral. -/
def toFloat (negative : Bool) (numeral : Numeral) : Float :=
  Binary64.ofCode negative
    (Binary64.nearestCode numeral.coefficient (Digits.weight numeral.places))

/-- Rounds up to `precision` fractional digits: the digits past them are
dropped, and if one of them was not a zero, one is added in the last place that
is kept.  A numeral with no more digits than that is left alone. -/
def ceil (precision : Nat) (numeral : Numeral) : Numeral :=
  if numeral.places ≤ precision then numeral
  else
    let kept := numeral.whole ++ numeral.fraction.take precision
    let dropped := numeral.fraction.drop precision
    let digits := if dropped.any (· ≠ '0') then Digits.succ kept else kept
    let point := digits.length - precision
    ⟨digits.take point, digits.drop point⟩

@[simp] theorem places_ofScaled (coefficient places : Nat) :
    (ofScaled coefficient places).places = places := by
  simp only [ofScaled, Numeral.places]
  split
  · rename_i none
    exact none.symm
  · rename_i positive
    exact Digits.length_padded (Nat.pos_of_ne_zero positive)
      (Nat.mod_lt coefficient (Digits.weight_pos places))

@[simp] theorem coefficient_ofScaled (coefficient places : Nat) :
    (ofScaled coefficient places).coefficient = coefficient := by
  simp only [ofScaled, Numeral.coefficient, Digits.value_append, Digits.value_ofNat]
  split
  · subst places
    simp
  · rename_i positive
    have wide := Digits.length_padded (Nat.pos_of_ne_zero positive)
      (Nat.mod_lt coefficient (Digits.weight_pos places))
    rw [wide, Digits.value_padded, Nat.mul_comm, Nat.div_add_mod]

@[simp] theorem ceil_of_places_le {precision : Nat} {numeral : Numeral}
    (short : numeral.places ≤ precision) : numeral.ceil precision = numeral := by
  simp [ceil, short]

end Numeral

end Reckon
