import Reckon.Proofs.Ceiling

/-!
# Carries and the point

One that is added in the last place of a string of digits is carried through nines.  Only if
there is nothing else in front of them, the string grows, by a one before its first place.
A numeral that is rounded up keeps a fixed number of digits behind its point, which is
therefore put by counting from the end.  The count never runs past the first digit, since a
carry makes the string longer, if anything.
-/

namespace Reckon

namespace Digits

variable {digits : List Char}

/-- A string of nines carries out of its first place and leaves zeros. -/
theorem addOne_of_nines (nines : ∀ digit ∈ digits, digit = '9') :
    addOne digits = (true, List.replicate digits.length '0') := by
  induction digits with
  | nil => rfl
  | cons digit rest ih =>
      rw [List.forall_mem_cons] at nines
      rw [addOne, ih nines.2]
      dsimp only
      rw [if_pos nines.1, List.length_cons, List.replicate_succ]

/-- Any other digit takes the carry. -/
theorem addOne_of_other (other : ∃ digit ∈ digits, digit ≠ '9') : (addOne digits).1 = false := by
  induction digits with
  | nil => simp at other
  | cons digit rest ih =>
      rcases other with ⟨found, member, notNine⟩
      rw [addOne]
      split <;> rename_i carried
      · rfl
      -- A rest that carries is all nines, so the other digit must be the first.
      · rcases List.mem_cons.mp member with rfl | later
        · rw [if_neg notNine]
        · rw [carried] at ih
          cases ih ⟨found, later, notNine⟩

theorem succ_of_nines (nines : ∀ digit ∈ digits, digit = '9') :
    succ digits = '1' :: List.replicate digits.length '0' := by
  rw [succ, addOne_of_nines nines]

theorem length_succ_of_other (other : ∃ digit ∈ digits, digit ≠ '9') :
    (succ digits).length = digits.length := by
  rw [length_succ, addOne_of_other other]
  rfl

/-- One place is gained at the most. -/
theorem length_succ_le (digits : List Char) : (succ digits).length ≤ digits.length + 1 := by
  rw [length_succ]
  apply Nat.add_le_add_left
  split
  · exact le_rfl
  · exact Nat.zero_le 1

end Digits

namespace Numeral

variable {numeral : Numeral} {precision : Nat}

/-- Rounding up to fewer places moves the point by one digit at the most. -/
theorem length_roundedDigits (long : precision < numeral.places) :
    numeral.whole.length + precision ≤ (numeral.roundedDigits precision).length ∧
      (numeral.roundedDigits precision).length ≤ numeral.whole.length + precision + 1 := by
  have kept : (numeral.whole ++ numeral.fraction.take precision).length =
      numeral.whole.length + precision := by
    rw [List.length_append, List.length_take, Nat.min_eq_left]
    exact Nat.le_of_lt long
  rw [roundedDigits, ← kept]
  split
  · exact ⟨Digits.length_le_succ _, Digits.length_succ_le _⟩
  · exact ⟨le_rfl, Nat.le_succ _⟩

end Numeral

/-- Adding one in the last place keeps digits, adds one to the number that they denote, and makes
the string longer only if all of it is nines, by a one in front of zeros.  So the point of a
rounded value can be put by counting from the end: there are always more digits than places, the
digits in front of the point are those of the value and perhaps one more, and there are exactly
as many places as were asked for. -/
theorem carry_and_point :
    (∀ digits : List Char, (∀ digit ∈ digits, digit.isDigit) →
      (∀ digit ∈ Digits.succ digits, digit.isDigit) ∧
      Digits.value (Digits.succ digits) = Digits.value digits + 1 ∧
      ((∃ digit ∈ digits, digit ≠ '9') → (Digits.succ digits).length = digits.length) ∧
      ((∀ digit ∈ digits, digit = '9') →
        Digits.succ digits = '1' :: List.replicate digits.length '0')) ∧
    ∀ (precision : Nat) (value : Float), Binary64.isFinite value →
      let numeral := Numeral.shortest (Binary64.code value)
      let digits := numeral.roundedDigits precision
      let point := digits.length - precision
      (numeral.places ≤ precision → roundAway precision value = .ok value) ∧
      (precision < numeral.places →
        precision < digits.length ∧
        (∀ digit ∈ digits, digit.isDigit) ∧
        digits.take point ≠ [] ∧
        numeral.whole.length ≤ point ∧ point ≤ numeral.whole.length + 1 ∧
        (digits.drop point).length = precision ∧
        roundAway precision value =
          .ok (Numeral.toFloat (Binary64.isNegative value)
            ⟨digits.take point, digits.drop point⟩)) := by
  constructor
  · intro digits digital
    exact ⟨Digits.isDigit_of_mem_succ digital, Digits.value_succ digital,
      Digits.length_succ_of_other, Digits.succ_of_nines⟩
  · intro precision value finite numeral digits point
    constructor
    · exact roundAway_of_places_le finite
    · intro long
      have decimal : numeral.IsDecimal := Numeral.isDecimal_shortest _
      have enough : precision < digits.length := decimal.lt_length_roundedDigits long
      have moved : numeral.whole.length + precision ≤ digits.length ∧
          digits.length ≤ numeral.whole.length + precision + 1 :=
        Numeral.length_roundedDigits long
      have pointed := Numeral.ceil_of_lt_places long
      have whole := (decimal.ceil precision).nonempty
      rw [pointed] at whole
      refine ⟨enough, decimal.isDigit_of_mem_roundedDigits precision, whole, ?_, ?_, ?_, ?_⟩
      · exact Nat.le_sub_of_add_le moved.1
      · rw [Nat.sub_le_iff_le_add, Nat.add_right_comm]
        exact moved.2
      · rw [List.length_drop, Nat.sub_sub_self enough.le]
      · rw [roundAway_of_lt_places finite long, pointed]

/-- Nine becomes ten when it is rounded up to four places, and the point moves behind the new
digit.  With five places it is kept. -/
theorem carry_and_point_nines :
    let value : Float := -9.99991
    let digits := (Numeral.shortest (Binary64.code value)).roundedDigits 4
    (Digits.succ "1999".toList).length = 4 ∧
      Digits.value (Digits.succ "99999".toList) = 100000 ∧
      Digits.succ "99999".toList = "100000".toList ∧
      Binary64.isFinite value ∧
      (Numeral.shortest (Binary64.code value)).places = 5 ∧
      digits = "100000".toList ∧
      (digits.drop (digits.length - 4)).length = 4 ∧
      roundAway 4 value = .ok (-10.0) ∧
      roundAway 5 value = .ok value := by
  intro value digits
  have numeral : Numeral.shortest (Binary64.code value) =
      ⟨['9'], ['9', '9', '9', '9', '1']⟩ := by decide +kernel
  have finite : Binary64.isFinite value := by decide +kernel
  have negative : Binary64.isNegative value = true := by decide +kernel
  have five : (Numeral.shortest (Binary64.code value)).places = 5 := congrArg Numeral.places numeral
  have carried : digits = "100000".toList :=
    (congrArg (Numeral.roundedDigits 4) numeral).trans (by decide +kernel)
  have ten : (⟨digits.take (digits.length - 4), digits.drop (digits.length - 4)⟩ : Numeral) =
      ⟨['1', '0'], ['0', '0', '0', '0']⟩ := by
    rw [carried]
    decide +kernel
  have rounded : Numeral.toFloat true ⟨['1', '0'], ['0', '0', '0', '0']⟩ = -10.0 := by
    decide +kernel
  have digital : ∀ digit ∈ "1999".toList, digit.isDigit :=
    List.all_eq_true.mp (by decide +kernel)
  have digitalNines : ∀ digit ∈ "99999".toList, digit.isDigit :=
    List.all_eq_true.mp (by decide +kernel)
  have same : "99999".toList = List.replicate 5 '9' := by decide +kernel
  have nines : ∀ digit ∈ "99999".toList, digit = '9' :=
    fun _ member => List.eq_of_mem_replicate (same ▸ member)
  rcases carry_and_point.1 "1999".toList digital with ⟨_, _, kept, _⟩
  rcases carry_and_point.1 "99999".toList digitalNines with ⟨_, sum, _, grown⟩
  rcases carry_and_point.2 4 value finite with ⟨_, toFour⟩
  rcases carry_and_point.2 5 value finite with ⟨toFive, _⟩
  rcases toFour (by rw [five]; decide) with ⟨_, _, _, _, _, places, rounds⟩
  rw [ten, negative, rounded] at rounds
  refine ⟨(kept ⟨'1', by decide +kernel, by decide⟩).trans (by decide +kernel),
    sum.trans (by decide +kernel), (grown nines).trans (by decide +kernel), finite, five, carried,
    places, rounds, toFive five.le⟩

end Reckon
