import Mathlib.Data.List.DropRight
import Reckon.Proofs.ExactRounding

/-!
# Normal numerals

A numeral is normal if it has no superfluous zeros, neither in front nor behind the point.
Every number that a numeral denotes is denoted by exactly one normal numeral.  Shortest
numerals are normal, and a numeral that has no zeros in front becomes normal when the zeros
at its end are dropped.
-/

namespace Reckon

namespace Digits

variable {digits other : List Char} {digit : Char}

/-- Either a single zero, or no zero in front. -/
def IsReduced (digits : List Char) : Prop :=
  digits = ['0'] ∨ digits.head? ≠ some '0'

/-- Digits are told apart by their values. -/
theorem eq_of_value_singleton_eq {digit' : Char} (isDigit : digit.isDigit)
    (isDigit' : digit'.isDigit) (same : value [digit] = value [digit']) : digit = digit' := by
  rw [← Char.toNat_inj, (toNat_eq_of_isDigit isDigit).1, (toNat_eq_of_isDigit isDigit').1, same]

theorem ofNat_value_singleton (isDigit : digit.isDigit) : ofNat (value [digit]) = [digit] := by
  have small := (toNat_eq_of_isDigit isDigit).2
  rw [ofNat, Nat.toDigits_of_lt_base small]
  congr 1
  apply eq_of_value_singleton_eq _ isDigit (value_digitChar _ small)
  rw [Nat.isDigit_digitChar, decide_eq_true_eq]
  exact small

/-- The digits of a number are reduced. -/
theorem isReduced_ofNat (number : Nat) : IsReduced (ofNat number) := by
  rw [IsReduced, or_iff_not_imp_right, not_not]
  intro leading
  rcases List.head?_eq_some_iff.mp leading with ⟨rest, split⟩
  have denoted := value_ofNat number
  have digital : ∀ digit ∈ rest, digit.isDigit := fun digit member =>
    isDigit_of_mem_ofNat digit (split ▸ List.mem_cons_of_mem _ member)
  rw [split, value_cons, show value ['0'] = 0 from rfl, Nat.zero_mul, Nat.zero_add] at denoted
  rcases Nat.eq_zero_or_pos rest.length with none | some
  · rw [split, List.eq_nil_of_length_eq_zero none]
  · -- the digits behind the zero are enough for the number
    have short := (Nat.length_toDigits_le_iff (by decide) some).mpr
      (denoted ▸ value_lt_weight digital : number < 10 ^ rest.length)
    have long := congrArg List.length split
    rw [List.length_cons, ofNat] at long
    omega

/-- Reduced digits are the digits of their value. -/
theorem eq_ofNat_value (nonempty : digits ≠ []) (digital : ∀ digit ∈ digits, digit.isDigit)
    (reduced : IsReduced digits) : digits = ofNat (value digits) := by
  induction digits using List.reverseRecOn with
  | nil => exact (nonempty rfl).elim
  | append_singleton front digit ih =>
      rw [List.forall_mem_append, List.forall_mem_singleton] at digital
      have last := ofNat_value_singleton digital.2
      rcases front with _ | ⟨first, middle⟩
      · exact last.symm
      · have leading : first ≠ '0' := by
          rintro rfl
          rcases reduced with zero | other
          · simp at zero
          · simp at other
        have same := ih (List.cons_ne_nil _ _) digital.1 (.inr (by simpa using leading))
        have positive : 0 < value (first :: middle) := by
          apply Nat.pos_of_ne_zero
          intro zero
          rw [zero] at same
          exact leading (List.cons.inj same).1
        have small := (toNat_eq_of_isDigit digital.2).2
        calc first :: middle ++ [digit]
          _ = ofNat (value (first :: middle)) ++ ofNat (value [digit]) := by rw [← same, last]
          _ = ofNat (10 * value (first :: middle) + value [digit]) :=
            Nat.toDigits_append_toDigits (by decide) positive small
          _ = ofNat (value (first :: middle ++ [digit])) := by
            rw [value_append, Nat.mul_comm]
            rfl

/-- Digits behind a one are reduced, so strings of one length are told apart by their
values. -/
theorem eq_of_value_eq (digital : ∀ digit ∈ digits, digit.isDigit)
    (digital' : ∀ digit ∈ other, digit.isDigit) (sameLength : digits.length = other.length)
    (sameValue : value digits = value other) : digits = other := by
  have behind_one : ∀ {digits : List Char}, (∀ digit ∈ digits, digit.isDigit) →
      '1' :: digits = ofNat (value ('1' :: digits)) := fun digital =>
    eq_ofNat_value (List.cons_ne_nil _ _) (List.forall_mem_cons.mpr ⟨rfl, digital⟩)
      (.inr (by simp))
  have same : '1' :: digits = '1' :: other := by
    rw [behind_one digital, behind_one digital', value_cons, value_cons '1' other, sameLength,
      sameValue]
  exact (List.cons.inj same).2

end Digits

namespace Numeral

variable {numeral other : Numeral} {code : Nat}

/-- Digits without superfluous zeros: before the point it is `0` or begins with another digit,
and behind the point it does not end with a zero. -/
structure IsNormal (numeral : Numeral) : Prop extends IsDecimal numeral where
  reduced : Digits.IsReduced numeral.whole
  trailing : numeral.fraction.getLast? ≠ some '0'

/-- The number that a numeral with one more digit at the end denotes. -/
theorem coefficient_concat (whole fraction : List Char) (digit : Char) :
    coefficient ⟨whole, fraction ++ [digit]⟩ =
      coefficient ⟨whole, fraction⟩ * 10 + Digits.value [digit] := by
  rw [coefficient, ← List.append_assoc, Digits.value_append]
  rfl

theorem places_concat (whole fraction : List Char) (digit : Char) :
    places ⟨whole, fraction ++ [digit]⟩ = places ⟨whole, fraction⟩ + 1 :=
  List.length_append

/-- A zero at the end makes no difference. -/
theorem toRat_concat_zero (whole fraction : List Char) :
    toRat ⟨whole, fraction ++ ['0']⟩ = toRat ⟨whole, fraction⟩ := by
  rw [toRat_eq_toRat_iff, coefficient_concat, places_concat, Digits.weight_succ,
    show Digits.value ['0'] = 0 from rfl]
  ring

/-- Numerals of one number read as one magnitude. -/
theorem Reads.congr (reads : numeral.Reads code) (same : numeral.toRat = other.toRat) :
    other.Reads code := by
  rw [Reads, ← Binary64.nearestCode_congr (Digits.weight_pos _) (Digits.weight_pos _)
    (toRat_eq_toRat_iff.mp same)]
  exact reads

/-- The last digit of a normal fraction is not a zero. -/
theorem IsNormal.not_dvd_coefficient (normal : numeral.IsNormal)
    (fractional : 0 < numeral.places) : ¬10 ∣ numeral.coefficient := by
  rcases numeral with ⟨whole, fraction⟩
  rcases List.eq_nil_or_concat' fraction with rfl | ⟨front, digit, rfl⟩
  · exact (Nat.lt_irrefl 0 fractional).elim
  · have isDigit : digit.isDigit := normal.fraction digit (by simp)
    have small := (Digits.toNat_eq_of_isDigit isDigit).2
    intro divides
    rw [coefficient_concat, Nat.dvd_add_right (Nat.dvd_mul_left 10 _)] at divides
    have zero : digit = '0' :=
      Digits.eq_of_value_singleton_eq isDigit rfl (Nat.eq_zero_of_dvd_of_lt divides small)
    exact normal.trailing (by simp [zero])

/-- A normal numeral has the fewest places. -/
theorem IsNormal.places_le (normal : numeral.IsNormal) (same : numeral.toRat = other.toRat) :
    numeral.places ≤ other.places := by
  apply Nat.le_of_not_lt
  intro fewer
  rcases Nat.exists_eq_add_of_lt fewer with ⟨more, places⟩
  apply normal.not_dvd_coefficient (Nat.zero_lt_of_lt fewer)
  rw [toRat_eq_toRat_iff, places, Nat.add_assoc, Digits.weight_add, Nat.mul_left_comm,
    Nat.mul_comm numeral.coefficient] at same
  rw [Nat.eq_of_mul_eq_mul_left (Digits.weight_pos _) same, Digits.weight_succ, ← Nat.mul_assoc]
  exact Nat.dvd_mul_left 10 _

/-- The digits behind the point are worth less than one. -/
theorem IsDecimal.value_parts (decimal : numeral.IsDecimal) :
    Digits.value numeral.whole = numeral.coefficient / Digits.weight numeral.places ∧
      Digits.value numeral.fraction = numeral.coefficient % Digits.weight numeral.places := by
  have small := Digits.value_lt_weight decimal.fraction
  rw [coefficient, Digits.value_append, places, Nat.mul_comm]
  constructor
  · rw [Nat.mul_add_div (Digits.weight_pos _), Nat.div_eq_of_lt small, Nat.add_zero]
  · rw [Nat.mul_add_mod, Nat.mod_eq_of_lt small]

/-- There is one normal numeral for a number. -/
theorem IsNormal.eq_of_toRat_eq (normal : numeral.IsNormal) (normal' : other.IsNormal)
    (same : numeral.toRat = other.toRat) : numeral = other := by
  have places := Nat.le_antisymm (normal.places_le same) (normal'.places_le same.symm)
  have parts := normal.value_parts
  have parts' := normal'.value_parts
  rw [toRat_eq_toRat_iff, places] at same
  have coefficients := Nat.eq_of_mul_eq_mul_right (Digits.weight_pos _) same
  rw [coefficients, places] at parts
  apply Numeral.ext
  · rw [Digits.eq_ofNat_value normal.nonempty normal.whole normal.reduced,
      Digits.eq_ofNat_value normal'.nonempty normal'.whole normal'.reduced, parts.1, parts'.1]
  · exact Digits.eq_of_value_eq normal.fraction normal'.fraction places
      (parts.2.trans parts'.2.symm)

/-! ## Where normal numerals come from -/

theorem isNormal_shortest (finite : code < Binary64.infinityCode) : (shortest code).IsNormal where
  toIsDecimal := isDecimal_shortest code
  reduced := by
    rw [shortest]
    dsimp only
    rw [ofGrid]
    split
    · exact Digits.isReduced_ofNat _
    · exact Digits.isReduced_ofNat _
  trailing := by
    intro zero
    have reads := reads_shortest finite
    rcases List.getLast?_eq_some_iff.mp zero with ⟨front, split⟩
    have shorter : toRat (shortest code) = toRat ⟨(shortest code).whole, front⟩ := by
      rw [← toRat_concat_zero (shortest code).whole front, ← split]
    have fewest := (reads.congr shorter).places_shortest_le finite
    have one_more := congrArg List.length split
    rw [List.length_append, List.length_singleton] at one_more
    simp only [places] at fewest
    omega

/-- Without the zeros at the end of the fraction. -/
def trimmed (numeral : Numeral) : Numeral :=
  { numeral with fraction := numeral.fraction.rdropWhile (· = '0') }

theorem toRat_trimmed (numeral : Numeral) : numeral.trimmed.toRat = numeral.toRat := by
  rcases numeral with ⟨whole, fraction⟩
  rw [trimmed]
  dsimp only
  induction fraction using List.reverseRecOn with
  | nil => rfl
  | append_singleton front digit ih =>
      rw [List.rdropWhile_concat]
      split
      · rename_i zero
        rw [ih, of_decide_eq_true zero, toRat_concat_zero]
      · rfl

theorem isNormal_trimmed (decimal : numeral.IsDecimal) (reduced : Digits.IsReduced numeral.whole) :
    numeral.trimmed.IsNormal where
  nonempty := decimal.nonempty
  whole := decimal.whole
  fraction digit member :=
    decimal.fraction digit ((List.rdropWhile_prefix (· = '0') numeral.fraction).mem member)
  reduced := reduced
  trailing := by
    intro zero
    rcases List.getLast?_eq_some_iff.mp zero with ⟨front, split⟩
    have again := List.rdropWhile_idempotent (· = '0') numeral.fraction
    dsimp only [trimmed] at split
    rw [split, List.rdropWhile_concat_pos _ _ _ (by simp)] at again
    have shorter := (List.rdropWhile_prefix (· = '0') front).length_le
    rw [again, List.length_append, List.length_singleton] at shorter
    omega

end Numeral

end Reckon
