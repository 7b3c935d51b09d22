import Reckon.Numeral

/-!
# Reading number literals

A literal is an optional sign followed by a decimal number or by a name.  A
decimal number has digits with at most one point among them, at least one digit
in all, and may end in an exponent: `2`, `2.`, `.5`, `1e3`, `1.5E-7`.  The names
are `inf`, `infinity` and `nan` in any mixture of upper and lower case.  The
double that a decimal number reads as is the nearest one; there is no number too
large or too small to be read.
-/

namespace Reckon.Literal

/-- Takes a leading sign off and tells whether it was a minus. -/
def splitSign : List Char → Bool × List Char
  | '-' :: rest => (true, rest)
  | '+' :: rest => (false, rest)
  | text => (false, text)

/-- Takes the digits after a leading point off.  Text without a leading point
has none. -/
def splitFraction : List Char → List Char × List Char
  | '.' :: rest => (rest.takeWhile Char.isDigit, rest.dropWhile Char.isDigit)
  | text => ([], text)

/-- The power of ten that ends a decimal number: nothing, or the letter `e` with
an optional sign and at least one digit. -/
def readExponent? : List Char → Option Int
  | [] => some 0
  | mark :: rest =>
      let (negative, digits) := splitSign rest
      if (mark = 'e' ∨ mark = 'E') ∧ digits ≠ [] ∧ digits.all Char.isDigit then
        let magnitude : Int := Digits.value digits
        some (if negative then -magnitude else magnitude)
      else none

/-- An unsigned decimal number, taken apart into a numeral and the power of ten
that it is multiplied by. -/
def readDecimal? (text : List Char) : Option (Numeral × Int) :=
  let whole := text.takeWhile Char.isDigit
  let (fraction, rest) := splitFraction (text.dropWhile Char.isDigit)
  if whole = [] ∧ fraction = [] then none
  else (readExponent? rest).map fun exponent => (⟨whole, fraction⟩, exponent)

/-- The code of the double nearest to a coefficient times a power of ten.  Powers
out of reach of every double are not computed: beyond the 400th all is infinite,
and since a coefficient has at most one decimal digit more than its binary
logarithm, enough negative powers leave nothing of it. -/
def scaledCode (coefficient : Nat) (power : Int) : Nat :=
  if coefficient = 0 ∨ power < -(400 + coefficient.log2 : Nat) then 0
  else if 400 < power then Binary64.infinityCode
  else
    Binary64.nearestCode (coefficient * Digits.weight power.toNat)
      (Digits.weight (-power).toNat)

/-- The code of a named value. -/
def namedCode? (text : List Char) : Option Nat :=
  match text.map Char.toLower with
  | ['i', 'n', 'f'] | ['i', 'n', 'f', 'i', 'n', 'i', 't', 'y'] =>
      some Binary64.infinityCode
  | ['n', 'a', 'n'] => some Binary64.nanCode
  | _ => none

/-- The double that a literal denotes, if it is one. -/
def read? (text : List Char) : Option Float :=
  let (negative, magnitude) := splitSign text
  match readDecimal? magnitude with
  | some (numeral, exponent) =>
      some (Binary64.ofCode negative
        (scaledCode numeral.coefficient (exponent - numeral.places)))
  | none => (namedCode? magnitude).map (Binary64.ofCode negative)

/-- What is said about a text that is no literal. -/
def complaint (text : List Char) : String :=
  if text.isEmpty then "cannot parse float from empty string"
  else "invalid float literal"

end Reckon.Literal
