/-!
# Strings of decimal digits

Digit strings are read most significant digit first.  The one operation on them
that is not part of the core library is adding one in the last place, which
carries over nines and may grow the string by a leading one.
-/

namespace Reckon.Digits

/-- The number that a digit string denotes; the empty string denotes zero. -/
def value (digits : List Char) : Nat :=
  Nat.ofDigitChars 10 digits 0

/-- The weight of a digit with a given number of digits behind it. -/
def weight (places : Nat) : Nat :=
  Nat.pow 10 places

/-- The digits of a number without superfluous zeros. -/
def ofNat (number : Nat) : List Char :=
  Nat.toDigits 10 number

/-- The digits of a number filled up with leading zeros to a given width. -/
def padded (width number : Nat) : List Char :=
  (ofNat number).leftpad width '0'

/-- The digit after one that is not a nine. -/
def nextDigit (digit : Char) : Char :=
  Nat.digitChar (digit.toNat - '0'.toNat + 1)

/-- Adds one in the last place of a string of fixed length.  The flag tells
whether a one is still to be carried out of the first place, which is the case
exactly for nines. -/
def addOne : List Char → Bool × List Char
  | [] => (true, [])
  | digit :: rest =>
      match addOne rest with
      | (false, rest) => (false, digit :: rest)
      | (true, rest) =>
          if digit = '9' then (true, '0' :: rest)
          else (false, nextDigit digit :: rest)

/-- Adds one in the last place, writing a carry as a new first digit. -/
def succ (digits : List Char) : List Char :=
  match addOne digits with
  | (true, digits) => '1' :: digits
  | (false, digits) => digits

theorem weight_pos (places : Nat) : 0 < weight places :=
  Nat.pow_pos (by decide)

@[simp] theorem weight_zero : weight 0 = 1 := rfl

@[simp] theorem value_nil : value [] = 0 := rfl

@[simp] theorem value_ofNat (number : Nat) : value (ofNat number) = number :=
  Nat.ofDigitChars_ten_toDigits

/-- Digits in front have the weight of the digits behind them. -/
theorem value_append (front back : List Char) :
    value (front ++ back) = value front * weight back.length + value back := by
  rw [value, Nat.ofDigitChars_append, Nat.ofDigitChars_eq_ofDigitChars_zero,
    Nat.mul_comm]
  rfl

/-- Leading zeros do not count. -/
@[simp] theorem value_padded (width number : Nat) :
    value (padded width number) = number := by
  rw [padded, List.leftpad, value_append, value_ofNat]
  simp [value]

/-- A number that fits is filled up to the width. -/
theorem length_padded {width number : Nat} (positive : 0 < width)
    (small : number < weight width) : (padded width number).length = width := by
  have short := (Nat.length_toDigits_le_iff (by decide) positive).mpr small
  simp only [padded, ofNat, List.leftpad, List.length_append, List.length_replicate]
  omega

@[simp] theorem length_addOne (digits : List Char) :
    (addOne digits).2.length = digits.length := by
  induction digits with
  | nil => rfl
  | cons digit rest ih =>
      rw [addOne]
      split <;> rename_i carried
      · simpa [carried] using ih
      · split <;> simpa [carried] using ih

theorem length_succ (digits : List Char) :
    (succ digits).length = digits.length + if (addOne digits).1 then 1 else 0 := by
  have kept := length_addOne digits
  rw [succ]
  split <;> rename_i carried <;> simp [carried] at kept ⊢ <;> omega

end Reckon.Digits
