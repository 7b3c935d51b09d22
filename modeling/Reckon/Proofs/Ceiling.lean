import Reckon.Proofs.Rounded
import Reckon.Proofs.Shortest

/-!
# Rounding up numerals

Adding one in the last place of a string of digits adds one to its value.  So a numeral
that is cut off after some places, with one added in the last of them unless only zeros
are dropped, is the smallest one with so many places that is not below the numeral.
-/

namespace Reckon

namespace Digits

variable {digits : List Char} {digit : Char}

theorem value_cons (digit : Char) (rest : List Char) :
    value (digit :: rest) = value [digit] * weight rest.length + value rest :=
  value_append [digit] rest

theorem value_singleton (digit : Char) : value [digit] = digit.toNat - '0'.toNat :=
  Nat.zero_add _

theorem value_digitChar : ∀ number < 10, value [Nat.digitChar number] = number := by
  decide

/-- A digit is worth its distance from the digit zero. -/
theorem toNat_eq_of_isDigit (isDigit : digit.isDigit) :
    digit.toNat = '0'.toNat + value [digit] ∧ value [digit] < 10 := by
  simp only [Char.isDigit, Bool.and_eq_true, decide_eq_true_eq] at isDigit
  have least : 48 ≤ digit.toNat := isDigit.1
  have greatest : digit.toNat ≤ 57 := isDigit.2
  have zero : '0'.toNat = 48 := rfl
  rw [value_singleton]
  omega

theorem value_nextDigit (isDigit : digit.isDigit) (notNine : digit ≠ '9') :
    value [nextDigit digit] = value [digit] + 1 := by
  have worth := toNat_eq_of_isDigit isDigit
  have other : value [digit] ≠ 9 := by
    intro nine
    rw [nine] at worth
    exact notNine (Char.toNat_inj.mp worth.1)
  rw [nextDigit, worth.1, Nat.add_sub_cancel_left, value_digitChar _ (by omega)]

/-- Adding one adds one, or carries out of the first place. -/
theorem value_addOne (digital : ∀ digit ∈ digits, digit.isDigit) :
    value (addOne digits).2 + (if (addOne digits).1 then weight digits.length else 0) =
      value digits + 1 := by
  induction digits with
  | nil => rfl
  | cons digit rest ih =>
      rw [List.forall_mem_cons] at digital
      have later := ih digital.2
      have kept := length_addOne rest
      rw [value_cons digit, addOne]
      split <;> rename_i carried <;> rw [carried] at later kept
      · dsimp only at later kept ⊢
        rw [value_cons digit, kept, if_neg (by decide)]
        rw [if_neg (by decide)] at later
        omega
      · dsimp only at later kept ⊢
        rw [if_pos rfl] at later
        split
        · rename_i nine
          have worth : value ['9'] = 9 ∧ value ['0'] = 0 := by decide
          dsimp only
          rw [value_cons '0', kept, nine, worth.1, worth.2, if_pos rfl, List.length_cons, weight_succ]
          omega
        · rename_i notNine
          dsimp only
          rw [value_cons (nextDigit digit), kept, if_neg (by decide),
            value_nextDigit digital.1 notNine, Nat.succ_mul]
          omega

theorem value_succ (digital : ∀ digit ∈ digits, digit.isDigit) :
    value (succ digits) = value digits + 1 := by
  have sum := value_addOne digital
  have kept := length_addOne digits
  rw [succ]
  split <;> rename_i carried <;> rw [carried] at sum kept <;> dsimp only at sum kept
  · have worth : value ['1'] = 1 := by decide
    rw [value_cons, kept, worth, Nat.one_mul, Nat.add_comm, ← sum, if_pos rfl]
  · rw [← sum, if_neg (by decide)]
    rfl

theorem value_lt_weight (digital : ∀ digit ∈ digits, digit.isDigit) :
    value digits < weight digits.length := by
  induction digits with
  | nil => decide
  | cons digit rest ih =>
      rw [List.forall_mem_cons] at digital
      have later := ih digital.2
      have worth := (toNat_eq_of_isDigit digital.1).2
      have front := Nat.mul_le_mul_right (weight rest.length) (Nat.le_sub_one_of_lt worth)
      rw [value_cons, List.length_cons, weight_succ]
      omega

/-- Only zeros are worth nothing. -/
theorem value_eq_zero_iff (digital : ∀ digit ∈ digits, digit.isDigit) :
    value digits = 0 ↔ digits.any (· ≠ '0') = false := by
  induction digits with
  | nil => simp
  | cons digit rest ih =>
      rw [List.forall_mem_cons] at digital
      have worth := (toNat_eq_of_isDigit digital.1).1
      have positive := weight_pos rest.length
      have isZero : value [digit] = 0 ↔ digit = '0' := by
        constructor
        · intro zero
          rw [zero] at worth
          exact Char.toNat_inj.mp worth
        · rintro rfl
          rfl
      rw [value_cons, Nat.add_eq_zero_iff, Nat.mul_eq_zero, or_iff_left positive.ne', isZero,
        ih digital.2]
      simp

end Digits

namespace Numeral

variable {numeral : Numeral} {precision : Nat}

/-- What is cut off after the point is counted in digits from the end. -/
theorem coefficient_eq_cut (numeral : Numeral) (precision : Nat) :
    numeral.coefficient =
      Digits.value (numeral.whole ++ numeral.fraction.take precision) *
          Digits.weight (numeral.fraction.drop precision).length +
        Digits.value (numeral.fraction.drop precision) := by
  rw [← Digits.value_append, List.append_assoc, List.take_append_drop, coefficient]

theorem coefficient_split (digits : List Char) (point : Nat) :
    coefficient ⟨digits.take point, digits.drop point⟩ = Digits.value digits := by
  rw [coefficient, List.take_append_drop]

/-- Rounding up gives the smallest multiple in the last place that is not too small. -/
theorem IsDecimal.coefficient_ceil (decimal : numeral.IsDecimal)
    (long : precision < numeral.places) :
    let step := Digits.weight (numeral.places - precision)
    numeral.coefficient ≤ (numeral.ceil precision).coefficient * step ∧
      (numeral.ceil precision).coefficient * step < numeral.coefficient + step := by
  dsimp only
  have dropped : (numeral.fraction.drop precision).length = numeral.places - precision :=
    List.length_drop
  have cut := coefficient_eq_cut numeral precision
  have digital : ∀ digit ∈ numeral.fraction.drop precision, digit.isDigit := by
    intro digit member
    exact decimal.fraction digit (List.mem_of_mem_drop member)
  have kept := decimal.isDigit_of_mem_kept precision
  have small := Digits.value_lt_weight digital
  have zeros := Digits.value_eq_zero_iff digital
  rw [dropped] at cut small
  rw [ceil_of_lt_places long, coefficient_split, cut, roundedDigits]
  split <;> rename_i rest
  · rw [Digits.value_succ kept, Nat.succ_mul]
    have positive : Digits.value (numeral.fraction.drop precision) ≠ 0 := by
      intro zero
      rw [zeros.mp zero] at rest
      cases rest
    omega
  · rw [zeros.mpr (Bool.eq_false_iff.mpr rest)]
    omega

theorem IsDecimal.places_ceil (decimal : numeral.IsDecimal) (long : precision < numeral.places) :
    (numeral.ceil precision).places = precision := by
  have enough := decimal.lt_length_roundedDigits long
  rw [ceil_of_lt_places long, places]
  dsimp only
  rw [List.length_drop, Nat.sub_sub_self enough.le]

end Numeral

end Reckon
