import Reckon.Proofs.PlainLiteral
import Reckon.Rendering

/-!
# Rounded values as texts

A value is rounded on the digits of its shortest numeral, and what comes of it is the
double nearest to the rounded numeral.  The rounded numeral is well-formed, so its text
reads as a number, and that number is the same double.
-/

namespace Reckon

namespace Digits

variable {digits : List Char} {number : Nat}

theorem isDigit_of_mem_ofNat : ∀ digit ∈ ofNat number, digit.isDigit := by
  intro digit member
  exact Nat.isDigit_of_mem_toDigits (by decide) (by decide) member

theorem isDigit_of_mem_padded {width : Nat} :
    ∀ digit ∈ padded width number, digit.isDigit := by
  intro digit member
  rw [padded, List.leftpad, List.mem_append] at member
  rcases member with filler | member
  · rw [List.eq_of_mem_replicate filler]
    rfl
  · exact isDigit_of_mem_ofNat digit member

theorem isDigit_nextDigit {digit : Char} (isDigit : digit.isDigit) (notNine : digit ≠ '9') :
    (nextDigit digit).isDigit := by
  simp only [Char.isDigit, Bool.and_eq_true, decide_eq_true_eq] at isDigit
  have least : 48 ≤ digit.toNat := isDigit.1
  have greatest : digit.toNat ≤ 57 := isDigit.2
  have other : digit.toNat ≠ 57 := by
    intro same
    exact notNine (Char.toNat_inj.mp same)
  rw [nextDigit, Nat.isDigit_digitChar, decide_eq_true_eq]
  change digit.toNat - 48 + 1 < 10
  omega

theorem isDigit_of_mem_addOne (digital : ∀ digit ∈ digits, digit.isDigit) :
    ∀ digit ∈ (addOne digits).2, digit.isDigit := by
  induction digits with
  | nil => simp [addOne]
  | cons first rest ih =>
      rw [List.forall_mem_cons] at digital
      have later := ih digital.2
      rw [addOne]
      split <;> rename_i carried <;> rw [carried] at later
      · exact List.forall_mem_cons.mpr ⟨digital.1, later⟩
      · split
        · exact List.forall_mem_cons.mpr ⟨rfl, later⟩
        · rename_i notNine
          exact List.forall_mem_cons.mpr ⟨isDigit_nextDigit digital.1 notNine, later⟩

theorem isDigit_of_mem_succ (digital : ∀ digit ∈ digits, digit.isDigit) :
    ∀ digit ∈ succ digits, digit.isDigit := by
  have sum := isDigit_of_mem_addOne digital
  rw [succ]
  split <;> rename_i carried <;> rw [carried] at sum
  · exact List.forall_mem_cons.mpr ⟨rfl, sum⟩
  · exact sum

theorem length_le_succ (digits : List Char) : digits.length ≤ (succ digits).length := by
  rw [length_succ]
  exact Nat.le_add_right _ _

end Digits

namespace Numeral

/-- Digits, and at least one of them before the point. -/
structure IsDecimal (numeral : Numeral) : Prop where
  nonempty : numeral.whole ≠ []
  whole : ∀ digit ∈ numeral.whole, digit.isDigit
  fraction : ∀ digit ∈ numeral.fraction, digit.isDigit

theorem isDecimal_ofScaled (coefficient places : Nat) :
    (ofScaled coefficient places).IsDecimal where
  nonempty := Nat.toDigits_ne_nil
  whole := Digits.isDigit_of_mem_ofNat
  fraction := by
    rw [ofScaled]
    dsimp only
    split
    · simp
    · exact Digits.isDigit_of_mem_padded

theorem IsDecimal.alphabet {numeral : Numeral} (decimal : numeral.IsDecimal) :
    ∀ character ∈ numeral.toList, character.isDigit ∨ character = '.' := by
  intro character member
  rw [toList] at member
  split at member
  · exact .inl (decimal.whole character member)
  · rcases List.mem_append.mp member with member | member
    · exact .inl (decimal.whole character member)
    · rcases List.mem_cons.mp member with isPoint | member
      · exact .inr isPoint
      · exact .inl (decimal.fraction character member)

theorem isDecimal_shortest (code : Nat) : (shortest code).IsDecimal := by
  rw [shortest]
  dsimp only
  rw [ofGrid]
  split
  · exact isDecimal_ofScaled _ _
  · exact isDecimal_ofScaled _ _

/-- More digits than there are places leave one before the point. -/
theorem isDecimal_of_digits {digits : List Char} {places : Nat}
    (digital : ∀ digit ∈ digits, digit.isDigit) (long : places < digits.length) :
    IsDecimal ⟨digits.take (digits.length - places), digits.drop (digits.length - places)⟩ where
  nonempty := by
    apply List.ne_nil_of_length_pos
    rw [List.length_take]
    omega
  whole digit member := digital digit (List.mem_of_mem_take member)
  fraction digit member := digital digit (List.mem_of_mem_drop member)

theorem IsDecimal.isDigit_of_mem_kept {numeral : Numeral} (decimal : numeral.IsDecimal)
    (precision : Nat) :
    ∀ digit ∈ numeral.whole ++ numeral.fraction.take precision, digit.isDigit := by
  intro digit member
  rcases List.mem_append.mp member with member | member
  · exact decimal.whole digit member
  · exact decimal.fraction digit (List.mem_of_mem_take member)

/-- Of the digits that are kept, one at least stands before the point. -/
theorem IsDecimal.lt_length_kept {numeral : Numeral} (decimal : numeral.IsDecimal)
    {precision : Nat} (long : precision < numeral.places) :
    precision < (numeral.whole ++ numeral.fraction.take precision).length := by
  have front := List.length_pos_iff.mpr decimal.nonempty
  rw [places] at long
  rw [List.length_append, List.length_take]
  omega

/-- The digits of a numeral that is rounded up to fewer places, before its point is put. -/
def roundedDigits (precision : Nat) (numeral : Numeral) : List Char :=
  let kept := numeral.whole ++ numeral.fraction.take precision
  if (numeral.fraction.drop precision).any (· ≠ '0') then Digits.succ kept else kept

/-- The point of a rounded numeral is put by counting from the end. -/
theorem ceil_of_lt_places {numeral : Numeral} {precision : Nat}
    (long : precision < numeral.places) :
    let digits := numeral.roundedDigits precision
    let point := digits.length - precision
    numeral.ceil precision = ⟨digits.take point, digits.drop point⟩ := by
  rw [Numeral.ceil, if_neg (Nat.not_le_of_lt long)]
  rfl

theorem IsDecimal.isDigit_of_mem_roundedDigits {numeral : Numeral} (decimal : numeral.IsDecimal)
    (precision : Nat) : ∀ digit ∈ numeral.roundedDigits precision, digit.isDigit := by
  have kept := decimal.isDigit_of_mem_kept precision
  rw [roundedDigits]
  split
  · exact Digits.isDigit_of_mem_succ kept
  · exact kept

/-- The count does not run past the first digit. -/
theorem IsDecimal.lt_length_roundedDigits {numeral : Numeral} (decimal : numeral.IsDecimal)
    {precision : Nat} (long : precision < numeral.places) :
    precision < (numeral.roundedDigits precision).length := by
  have kept := decimal.lt_length_kept long
  rw [roundedDigits]
  split
  · exact kept.trans_le (Digits.length_le_succ _)
  · exact kept

/-- Rounding up keeps a digit before the point. -/
theorem IsDecimal.ceil {numeral : Numeral} (decimal : numeral.IsDecimal) (precision : Nat) :
    (numeral.ceil precision).IsDecimal := by
  rcases Nat.lt_or_ge precision numeral.places with long | short
  · rw [ceil_of_lt_places long]
    exact isDecimal_of_digits (decimal.isDigit_of_mem_roundedDigits precision)
      (decimal.lt_length_roundedDigits long)
  · rwa [ceil_of_places_le short]

end Numeral

namespace Literal

/-- Less than half a unit is rounded to nothing. -/
theorem nearestCode_eq_zero {numerator denominator : Nat}
    (small : 2 * (numerator * Binary64.unitsPerOne) < denominator) :
    Binary64.nearestCode numerator denominator = 0 := by
  have none : numerator * Binary64.unitsPerOne / denominator = 0 :=
    Nat.div_eq_of_lt (by omega)
  have rest : numerator * Binary64.unitsPerOne % denominator =
      numerator * Binary64.unitsPerOne := Nat.mod_eq_of_lt (by omega)
  have whole : denominator * Nat.pow 2 0 = denominator := Nat.mul_one denominator
  simp only [Binary64.nearestCode, none, Nat.log2_zero, Nat.zero_sub, Nat.zero_mul, whole,
    Binary64.roundedQuotient, rest, small, true_or, if_true, Nat.add_zero, Nat.min_zero]

/-- Ten to some power exceeds twice a coefficient with a power of two behind it, if three
binary digits for each place are more than enough. -/
theorem double_lt_weight {coefficient exponent places : Nat}
    (enough : coefficient.log2 + exponent + 2 ≤ 3 * places) :
    2 * (coefficient * Nat.pow 2 exponent) < Digits.weight places := by
  have size : coefficient < Nat.pow 2 (coefficient.log2 + 1) := Nat.lt_log2_self
  calc 2 * (coefficient * Nat.pow 2 exponent)
    _ < 2 * (Nat.pow 2 (coefficient.log2 + 1) * Nat.pow 2 exponent) :=
      Nat.mul_lt_mul_of_pos_left
        (Nat.mul_lt_mul_of_pos_right size (Nat.pow_pos (by decide))) (by decide)
    _ = 2 * Nat.pow 2 (coefficient.log2 + 1 + exponent) :=
      congrArg (2 * ·) (Nat.pow_add 2 _ _).symm
    _ = Nat.pow 2 (coefficient.log2 + 1 + exponent + 1) := (Nat.pow_succ').symm
    _ ≤ Nat.pow 2 (3 * places) := Nat.pow_le_pow_right (by decide) (by omega)
    _ = Nat.pow 8 places := Nat.pow_mul 2 3 places
    _ ≤ Nat.pow 10 places := Nat.pow_le_pow_left (by decide) places

/-- Among numbers without exponent, no place is too far behind the point. -/
theorem scaledCode_of_places (coefficient places : Nat) :
    scaledCode coefficient (0 - places) =
      Binary64.nearestCode coefficient (Digits.weight places) := by
  have positive := Digits.weight_pos places
  rw [scaledCode]
  split
  · rename_i tiny
    symm
    apply nearestCode_eq_zero
    rcases tiny with rfl | far
    · simpa using positive
    · apply double_lt_weight
      omega
  · rw [if_neg (by omega)]
    have noShift : (0 - (places : Int)).toNat = 0 := by omega
    have shift : (-(0 - (places : Int))).toNat = places := by omega
    rw [noShift, shift, Digits.weight_zero, Nat.mul_one]

theorem readDecimal?_toList {numeral : Numeral} (decimal : numeral.IsDecimal) :
    readDecimal? numeral.toList = some (numeral, 0) := by
  rcases numeral with ⟨whole, _ | ⟨first, rest⟩⟩
  · exact readDecimal?_digits decimal.whole decimal.nonempty
  · have reading : readDecimal? (whole ++ '.' :: (first :: rest ++ [])) = _ :=
      readDecimal?_point decimal.whole decimal.fraction (by simp)
    rw [List.append_nil] at reading
    rw [Numeral.toList, reading]
    simp [readExponent?]

/-- The text of a decimal numeral reads as the double nearest to it. -/
theorem read?_toList {numeral : Numeral} (decimal : numeral.IsDecimal) (negative : Bool) :
    read? (if negative then '-' :: numeral.toList else numeral.toList) =
      some (numeral.toFloat negative) := by
  have sign : splitSign (if negative then '-' :: numeral.toList else numeral.toList) =
      (negative, numeral.toList) := by
    cases negative with
    | true => rfl
    | false => exact splitSign_eq_of_alphabet decimal.alphabet
  rw [read?, sign]
  dsimp only
  rw [readDecimal?_toList decimal]
  dsimp only
  rw [scaledCode_of_places]
  rfl

end Literal

section Rounding

variable {precision : Nat} {value : Float} {cause : Rejection}

/-- The text of a rounded value can be read, as the double nearest to the numeral in it. -/
theorem read?_roundedText (precision : Nat) (value : Float) :
    Literal.read? (roundedText precision value) =
      some (((Numeral.shortest (Binary64.code value)).ceil precision).toFloat
        (Binary64.isNegative value)) :=
  Literal.read?_toList ((Numeral.isDecimal_shortest (Binary64.code value)).ceil precision)
    (Binary64.isNegative value)

theorem roundAway_of_places_le (finite : Binary64.isFinite value)
    (short : (Numeral.shortest (Binary64.code value)).places ≤ precision) :
    roundAway precision value = .ok value := by
  rw [roundAway, if_pos finite, if_pos short]

/-- A value with more digits becomes the double nearest to the numeral that its shortest one
rounds up to. -/
theorem roundAway_of_lt_places (finite : Binary64.isFinite value)
    (long : precision < (Numeral.shortest (Binary64.code value)).places) :
    roundAway precision value =
      .ok (((Numeral.shortest (Binary64.code value)).ceil precision).toFloat
        (Binary64.isNegative value)) := by
  rw [roundAway, if_pos finite, if_neg (Nat.not_le_of_lt long)]
  dsimp only
  rw [read?_roundedText]

/-- Rounding refuses exactly the values that are not finite. -/
theorem roundAway_eq_error_iff :
    roundAway precision value = .error cause ↔
      Binary64.isFinite value = false ∧ cause = .notFinite := by
  cases finite : Binary64.isFinite value with
  | false => simp [roundAway, finite, eq_comm]
  | true =>
      rcases Nat.lt_or_ge precision (Numeral.shortest (Binary64.code value)).places with
        long | short
      · simp [roundAway_of_lt_places finite long]
      · simp [roundAway_of_places_le finite short]

/-- The text of a rounded value can be read and is the rounded value. -/
theorem exists_read?_roundedText (finite : Binary64.isFinite value)
    (long : precision < (Numeral.shortest (Binary64.code value)).places) :
    ∃ rounded, Literal.read? (roundedText precision value) = some rounded ∧
      roundAway precision value = .ok rounded :=
  ⟨_, read?_roundedText precision value, roundAway_of_lt_places finite long⟩

end Rounding

end Reckon
