/-!
# Magnitudes of doubles as natural numbers

The sign of a `Float` apart, its bit pattern is a natural number, its *code*.
Codes below `infinityCode` are the finite magnitudes in increasing order, and
every finite magnitude is a whole number of *units*, a unit being the smallest
positive double.  Exact arithmetic on doubles is therefore arithmetic on natural
numbers, and rounding a fraction to the nearest double is one division.
-/

namespace Reckon.Binary64

/-- How many units make one. -/
def unitsPerOne : Nat :=
  Nat.pow 2 1074

/-- The number of codes in a binade, and the implicit leading bit of its
significands. -/
def binade : Nat :=
  0x10000000000000

/-- The code of the infinite magnitude.  Smaller codes are finite, larger ones
are not numbers. -/
def infinityCode : Nat :=
  0x7FF0000000000000

/-- The code of the value that is not a number. -/
def nanCode : Nat :=
  0x7FF8000000000000

/-- The bit pattern of negative zero. -/
def signBit : Nat :=
  0x8000000000000000

/-- The bit pattern of a double without its sign bit. -/
def code (value : Float) : Nat :=
  value.toBits.toNat % signBit

/-- Whether the sign bit is set, which it also is for negative zero. -/
def isNegative (value : Float) : Bool :=
  signBit ≤ value.toBits.toNat

/-- The double of a given sign and code. -/
def ofCode (negative : Bool) (code : Nat) : Float :=
  Float.ofBits (UInt64.ofNat (if negative then signBit + code else code))

/-- Neither an infinity nor a NaN. -/
def isFinite (value : Float) : Bool :=
  code value < infinityCode

/-- The magnitude of a finite code, counted in units.  The first binade holds
the subnormal numbers, whose code is the count itself; in every later one the
significand has an implicit leading bit, and from the third on each binade
doubles the step. -/
def units (code : Nat) : Nat :=
  if code < binade then code
  else (binade + code % binade) * Nat.pow 2 (code / binade - 1)

/-- The natural number nearest to a fraction, a half going to the even one. -/
def roundedQuotient (numerator denominator : Nat) : Nat :=
  let quotient := numerator / denominator
  let twice := 2 * (numerator % denominator)
  if twice < denominator ∨ (twice = denominator ∧ quotient % 2 = 0) then quotient
  else quotient + 1

/-- The code of the double nearest to a fraction, a half going to the even
significand and everything past the largest double to infinity.

The fraction is counted in units and cut to 53 significant bits.  A binade
starts where its predecessor ends, so the code is the number of dropped bits in
front of the rounded significand, and a significand that rounds up to the next
power of two carries into the next binade by itself. -/
def nearestCode (numerator denominator : Nat) : Nat :=
  let scaled := numerator * unitsPerOne
  let dropped := (scaled / denominator).log2 - 52
  min infinityCode
    (dropped * binade + roundedQuotient scaled (denominator * Nat.pow 2 dropped))

/-- The whole part of a finite magnitude. -/
def wholePart (code : Nat) : Nat :=
  units code / unitsPerOne

/-- Whether a finite magnitude has no fractional part. -/
def isWhole (code : Nat) : Bool :=
  units code % unitsPerOne = 0

@[simp] theorem units_subnormal {code : Nat} (subnormal : code < binade) :
    units code = code := by
  simp only [units, if_pos subnormal]

@[simp] theorem roundedQuotient_one (numerator : Nat) :
    roundedQuotient numerator 1 = numerator := by
  simp [roundedQuotient, Nat.mod_one]

end Reckon.Binary64
