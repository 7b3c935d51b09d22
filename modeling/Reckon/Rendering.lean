import Reckon.Literal
import Reckon.Numeral.Shortest
import Reckon.Rejection

/-!
# Rounding and rendering results

A result is rounded away from zero to a number of fractional digits, judged by
its shortest numeral and not by its exact value: `0.1 + 0.2` is displayed
`0.30000000000000004` and is rounded to `0.3001`.  Rounding writes the rounded
numeral and reads it as a literal.  A rounded result without fractional part is
rendered by its exact integer, any other by its shortest numeral.
-/

namespace Reckon

/-- The text of a value that is rounded: the numeral that its shortest one rounds
up to, behind the sign of the value. -/
def roundedText (precision : Nat) (value : Float) : List Char :=
  let magnitude := ((Numeral.shortest (Binary64.code value)).ceil precision).toList
  if Binary64.isNegative value then '-' :: magnitude else magnitude

/-- Rounds away from zero to `precision` fractional digits, so that no finite
value comes nearer to zero.  A value that needs no more digits is kept as it is,
with the sign of a zero. -/
def roundAway (precision : Nat) (value : Float) : Except Rejection Float :=
  if Binary64.isFinite value then
    if (Numeral.shortest (Binary64.code value)).places ≤ precision then .ok value
    else
      let text := roundedText precision value
      match Literal.read? text with
      | some rounded => .ok rounded
      | none => .error (.unrounded (String.ofList text ++ ": " ++ Literal.complaint text))
  else .error .notFinite

/-- The characters of a finite magnitude: an exact integer where it is whole. -/
def renderMagnitude (code : Nat) : List Char :=
  if Binary64.isWhole code then Digits.ofNat (Binary64.wholePart code)
  else (Numeral.shortest code).toList

/-- Rounds a result and renders it.  A zero is rendered without sign. -/
def render (precision : Nat) (value : Float) : Except Rejection String :=
  (roundAway precision value).map fun rounded =>
    let code := Binary64.code rounded
    let magnitude := renderMagnitude code
    String.ofList
      (if Binary64.isNegative rounded ∧ code ≠ 0 then '-' :: magnitude
       else magnitude)

end Reckon
