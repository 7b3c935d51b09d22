import Reckon.Numeral

/-!
# The shortest numeral of a double

A finite double is displayed by the fewest significant digits that read back as
the same double and, of those, by the numeral nearest to its exact value.

Every finite magnitude can be written with 1074 digits after the point, so it is
a whole number of steps on the decimal grid of that fineness.  Each *level*
above it makes the steps ten times longer.  On a grid only the two neighbours of
the exact value need to be tried.  The search goes from coarse to fine and ends
at the latest on the finest grid, which holds the value itself.
-/

namespace Reckon

namespace Numeral

/-- The number of fractional digits on the finest grid. -/
def finestPlaces : Nat :=
  1074

/-- The exact magnitude in steps of the finest grid. -/
def finestMultiple (code : Nat) : Nat :=
  Binary64.units code * Nat.pow 5 finestPlaces

/-- Whether a number of steps of the finest grid reads back as the magnitude of a
given code. -/
def readsBack (code multiple : Nat) : Bool :=
  Binary64.nearestCode multiple (Digits.weight finestPlaces) = code

/-- The multiple of `step` nearest to `exact` among its two neighbours that pass a
test, if one does, counted in steps.  Half way between two that pass, it is the
larger one. -/
def nearestPassing (passes : Nat → Bool) (exact step : Nat) : Option Nat :=
  let below := exact / step
  let above := below + 1
  match passes (below * step), passes (above * step) with
  | true, true => some (if 2 * (exact % step) < step then below else above)
  | true, false => some below
  | false, true => some above
  | false, false => none

/-- The multiple of the step at `level` that reads back as the magnitude of
`code` and is nearest to it, if there is one. -/
def nearestOnGrid (code level : Nat) : Option Nat :=
  nearestPassing (readsBack code) (finestMultiple code) (Digits.weight level)

/-- The first hit, from `level` downwards, and its level; level zero needs no
search. -/
def firstHit (hit? : Nat → Option Nat) (finest : Nat) : Nat → Nat × Nat
  | 0 => (finest, 0)
  | level + 1 =>
      match hit? (level + 1) with
      | some multiple => (multiple, level + 1)
      | none => firstHit hit? finest level

/-- The first grid, from `level` downwards, with a multiple that reads back, as
that multiple and the level of its grid. -/
def coarsestHit (code level : Nat) : Nat × Nat :=
  firstHit (nearestOnGrid code) (finestMultiple code) level

/-- The level of a grid whose step exceeds the magnitude: its power of ten has
more digits than the whole part. -/
def startLevel (code : Nat) : Nat :=
  finestPlaces + (Digits.ofNat (Binary64.wholePart code)).length

/-- The numeral of `multiple` steps on the grid at `level`. -/
def ofGrid (multiple level : Nat) : Numeral :=
  if finestPlaces ≤ level then
    ofScaled (multiple * Digits.weight (level - finestPlaces)) 0
  else ofScaled multiple (finestPlaces - level)

/-- The shortest numeral of the finite magnitude with a given code. -/
def shortest (code : Nat) : Numeral :=
  let (multiple, level) := coarsestHit code (startLevel code)
  ofGrid multiple level

end Numeral

namespace Binary64

/-- The text of a double: the shortest numeral behind a minus sign where the
sign bit is set. -/
def text (value : Float) : String :=
  let magnitude := code value
  if infinityCode < magnitude then "NaN"
  else
    let digits :=
      if magnitude = infinityCode then ['i', 'n', 'f']
      else (Numeral.shortest magnitude).toList
    String.ofList (if isNegative value then '-' :: digits else digits)

end Binary64

end Reckon
