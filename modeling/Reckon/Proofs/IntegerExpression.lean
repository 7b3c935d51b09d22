import Reckon.Proofs.FixedPoint

/-!
# Integer expressions

Expressions over natural numbers with sums, differences and products are evaluated
exactly, as long as no value in them is larger than the 53 bits of a significand: every
double on the way is the integer that it stands for.
-/

namespace Reckon

/-- Expressions over natural numbers. -/
inductive IntegerExpression where
  | number (value : Nat)
  | sum (left right : IntegerExpression)
  | difference (left right : IntegerExpression)
  | product (left right : IntegerExpression)
  deriving DecidableEq, Repr

namespace IntegerExpression

/-- The exact value of an expression. -/
def value : IntegerExpression → Int
  | number value => value
  | sum left right => left.value + right.value
  | difference left right => left.value - right.value
  | product left right => left.value * right.value

/-- An expression and all expressions in it. -/
def subtrees : IntegerExpression → List IntegerExpression
  | number value => [number value]
  | sum left right => sum left right :: (left.subtrees ++ right.subtrees)
  | difference left right => difference left right :: (left.subtrees ++ right.subtrees)
  | product left right => product left right :: (left.subtrees ++ right.subtrees)

/-- A phrase renders an expression if it has the same operators in the same order of
evaluation and its literals are the digits of the numbers.  Brackets may be redundant. -/
inductive Renders : {level : Level} → Phrase level → IntegerExpression → Prop where
  | literal {text : List Char} (plain : Literal.IsPlain text)
      (digital : ∀ digit ∈ text, digit.isDigit) :
      Renders (.literal text plain) (.number (Digits.value text))
  | group {inner : Phrase .expression} {tree : IntegerExpression} :
      Renders inner tree → Renders (.group inner) tree
  | factor {only : Phrase .factor} {tree : IntegerExpression} :
      Renders only tree → Renders (.factor only) tree
  | term {only : Phrase .term} {tree : IntegerExpression} :
      Renders only tree → Renders (.term only) tree
  | product {left : Phrase .term} {right : Phrase .factor} {first second : IntegerExpression} :
      Renders left first → Renders right second →
        Renders (.product left .multiply rfl right) (.product first second)
  | sum {left : Phrase .expression} {right : Phrase .term} {first second : IntegerExpression} :
      Renders left first → Renders right second →
        Renders (.sum left .add rfl right) (.sum first second)
  | difference {left : Phrase .expression} {right : Phrase .term}
      {first second : IntegerExpression} :
      Renders left first → Renders right second →
        Renders (.sum left .subtract rfl right) (.difference first second)

variable {level : Level} {phrase : Phrase level} {tree : IntegerExpression}

/-- Every expression has a rendering, in which each operation is put into brackets. -/
theorem exists_renders (tree : IntegerExpression) :
    ∃ phrase : Phrase .factor, Renders phrase tree := by
  induction tree with
  | number value =>
      have digital : ∀ digit ∈ Digits.ofNat value, digit.isDigit := Digits.isDigit_of_mem_ofNat
      have plain := Literal.isPlain_digits digital Nat.toDigits_ne_nil
      have renders := Renders.literal plain digital
      rw [Digits.value_ofNat] at renders
      exact ⟨_, renders⟩
  | sum left right leftIH rightIH =>
      rcases leftIH with ⟨first, renders⟩
      rcases rightIH with ⟨second, renders'⟩
      exact ⟨_, .group (.sum (.term (.factor renders)) (.factor renders'))⟩
  | difference left right leftIH rightIH =>
      rcases leftIH with ⟨first, renders⟩
      rcases rightIH with ⟨second, renders'⟩
      exact ⟨_, .group (.difference (.term (.factor renders)) (.factor renders'))⟩
  | product left right leftIH rightIH =>
      rcases leftIH with ⟨first, renders⟩
      rcases rightIH with ⟨second, renders'⟩
      exact ⟨_, .group (.term (.product (.factor renders) renders'))⟩

theorem self_mem_subtrees (tree : IntegerExpression) : tree ∈ tree.subtrees := by
  cases tree <;> simp [subtrees]

end IntegerExpression

namespace Binary64

/-- A double that stands for an integer. -/
def IsInteger (value : Float) (number : Int) : Prop :=
  CountsUnits value (number * unitsPerOne)

/-- Integers of at most 53 bits are doubles. -/
theorem isCount_of_natAbs_le {number : Int} (small : number.natAbs ≤ 2 ^ 53) :
    IsCount (number * unitsPerOne) := by
  rw [IsCount, Int.natAbs_mul, Int.natAbs_natCast]
  have bound : 2 ^ 53 = 2 * binade := by decide
  rw [bound] at small
  generalize number.natAbs = magnitude at small ⊢
  rcases Nat.eq_zero_or_pos magnitude with rfl | positive
  · exact ⟨0, by decide, (Nat.zero_mul _).symm⟩
  rcases Nat.eq_or_lt_of_le small with rfl | few
  · exact ⟨wholeCode, wholeCode_lt, units_wholeCode⟩
  have bits : magnitude.log2 < 53 := (Nat.log2_lt positive.ne').mpr (few.trans_eq bound.symm)
  have divides : Nat.pow 2 ((magnitude * unitsPerOne).log2 - 52) ∣ magnitude * unitsPerOne := by
    rw [unitsPerOne_eq, log2_mul_pow positive]
    exact Dvd.dvd.mul_left (power_dvd (by omega)) _
  rcases exists_units_eq divides with ⟨code, units⟩
  have below : code < wholeCode := by
    rw [← units_strictMono.lt_iff_lt, units, units_wholeCode]
    exact Nat.mul_lt_mul_of_pos_right few unitsPerOne_pos
  exact ⟨code, below.trans wholeCode_lt, units⟩

namespace IsInteger

variable {value other : Float} {number number' : Int}

theorem add (whole : IsInteger value number) (whole' : IsInteger other number')
    (small : (number + number').natAbs ≤ 2 ^ 53) :
    IsInteger (value + other) (number + number') := by
  have double := isCount_of_natAbs_le small
  rw [IsInteger]
  rw [Int.add_mul] at double ⊢
  exact CountsUnits.add whole whole' double

theorem sub (whole : IsInteger value number) (whole' : IsInteger other number')
    (small : (number - number').natAbs ≤ 2 ^ 53) :
    IsInteger (value - other) (number - number') := by
  have double := isCount_of_natAbs_le small
  rw [IsInteger]
  rw [Int.sub_mul] at double ⊢
  exact CountsUnits.sub whole whole' double

theorem mul (whole : IsInteger value number) (whole' : IsInteger other number')
    (small : (number * number').natAbs ≤ 2 ^ 53) :
    IsInteger (value * other) (number * number') :=
  CountsUnits.mul whole whole' (isCount_of_natAbs_le small)

end IsInteger

end Binary64

open Binary64 (IsInteger ofCode)

/-- Digits read as the natural number that they denote. -/
theorem isInteger_literalValue {text : List Char} (plain : Literal.IsPlain text)
    (digital : ∀ digit ∈ text, digit.isDigit) (small : Digits.value text ≤ 2 ^ 53) :
    IsInteger (Phrase.literalValue text plain) (Digits.value text) := by
  let numeral : Numeral := ⟨text, []⟩
  have decimal : numeral.IsDecimal := ⟨plain.ne_nil, digital, by simp [numeral]⟩
  have coefficient : numeral.coefficient = Digits.value text := by
    rw [Numeral.coefficient, List.append_nil]
  have double : Binary64.IsCount (Digits.value text * Binary64.unitsPerOne) :=
    Binary64.isCount_of_natAbs_le small
  rcases double with ⟨code, finite, units⟩
  rw [Int.natAbs_mul, Int.natAbs_natCast, Int.natAbs_natCast] at units
  have reads : Binary64.nearestCode (Digits.value text) (Digits.weight 0) = code := by
    apply Binary64.nearestCode_units (Digits.weight_pos 0) finite.le
    rw [Digits.weight_zero, Nat.mul_one, units]
  have reading : Phrase.literalValue text plain = numeral.toFloat false :=
    literalValue_toList decimal plain
  refine ⟨false, code, finite, ?_, ?_⟩
  · rw [reading, Numeral.toFloat, coefficient]
    exact congrArg (ofCode false) reads
  · rw [units]
    exact Int.natCast_mul _ _

/-- An operation on values that stand for integers stands for an integer if it does so for
all such doubles. -/
theorem exists_operation {left right : Except Rejection Float} {operator : Operator}
    {number number' total : Int}
    (leftValue : ∃ first, left = .ok first ∧ IsInteger first number)
    (rightValue : ∃ second, right = .ok second ∧ IsInteger second number')
    (applied : ∀ {first second}, IsInteger first number → IsInteger second number' →
      ∃ result, operator.apply first second = .ok result ∧ IsInteger result total) :
    ∃ result, (left.bind fun first => right.bind (operator.apply first)) = .ok result ∧
      IsInteger result total := by
  rcases leftValue with ⟨first, rfl, whole⟩
  rcases rightValue with ⟨second, rfl, whole'⟩
  exact applied whole whole'

namespace IntegerExpression

variable {level : Level} {phrase : Phrase level} {tree : IntegerExpression}

/-- A rendering has the exact value, if everything in it is small. -/
theorem Renders.exists_value (renders : Renders phrase tree)
    (small : ∀ subtree ∈ tree.subtrees, subtree.value.natAbs ≤ 2 ^ 53) :
    ∃ result, phrase.value = .ok result ∧ IsInteger result tree.value := by
  induction renders with
  | literal plain digital =>
      exact ⟨_, rfl, isInteger_literalValue plain digital (small _ (self_mem_subtrees _))⟩
  | group _ ih => exact ih small
  | factor _ ih => exact ih small
  | term _ ih => exact ih small
  | product _ _ ih ih' =>
      rw [subtrees, List.forall_mem_cons, List.forall_mem_append] at small
      exact exists_operation (ih small.2.1) (ih' small.2.2) fun whole whole' =>
        ⟨_, rfl, whole.mul whole' small.1⟩
  | sum _ _ ih ih' =>
      rw [subtrees, List.forall_mem_cons, List.forall_mem_append] at small
      exact exists_operation (ih small.2.1) (ih' small.2.2) fun whole whole' =>
        ⟨_, rfl, whole.add whole' small.1⟩
  | difference _ _ ih ih' =>
      rw [subtrees, List.forall_mem_cons, List.forall_mem_append] at small
      exact exists_operation (ih small.2.1) (ih' small.2.2) fun whole whole' =>
        ⟨_, rfl, whole.sub whole' small.1⟩

end IntegerExpression

theorem toString_int_eq (number : Int) :
    toString number =
      String.ofList (if number < 0 then '-' :: Digits.ofNat number.natAbs
        else Digits.ofNat number.natAbs) := by
  cases number with
  | ofNat magnitude => rfl
  | negSucc magnitude =>
      rw [if_pos (Int.negSucc_lt_zero magnitude), String.ofList_cons]
      rfl

/-- A double that stands for an integer is rendered as its digits, with any precision. -/
theorem render_eq_of_isInteger {value : Float} {number : Int} (whole : IsInteger value number)
    (precision : Nat) : render precision value = .ok (toString number) := by
  rcases whole with ⟨negative, code, finite, rfl, counts⟩
  have positive := Binary64.unitsPerOne_pos
  have units : Binary64.units code = number.natAbs * Binary64.unitsPerOne := by
    rw [← Binary64.natAbs_signed negative (Binary64.units code), counts, Int.natAbs_mul,
      Int.natAbs_natCast]
  have isWhole : Binary64.isWhole code := by
    rw [Binary64.isWhole, units, Nat.mul_mod_left]
    rfl
  have magnitude : renderMagnitude code = Digits.ofNat number.natAbs := by
    rw [renderMagnitude, if_pos isWhole, Binary64.wholePart, units,
      Nat.mul_div_cancel _ positive]
  have sign : (negative = true ∧ code ≠ 0) ↔ number < 0 := by
    have one : (0 : Int) < Binary64.unitsPerOne := Int.natCast_pos.mpr positive
    have scaled : ∀ step : Int, 0 < step → (number * step < 0 ↔ number < 0) := by
      intro step positive
      simp [mul_neg_iff, positive, positive.not_gt]
    rw [← scaled _ one, ← counts, Binary64.signed_neg_iff, ne_eq, ne_eq,
      Binary64.units_eq_zero_iff]
  have fits : Binary64.Fits precision code :=
    ⟨finite, by rw [Numeral.places_shortest_of_isWhole finite isWhole]; exact Nat.zero_le _⟩
  rw [render_ofCode fits, renderedText, magnitude, toString_int_eq]
  simp only [sign]

/-- Whatever renders an expression is evaluated to its exact value, under every limit that
settings can have and that the literals keep to. -/
theorem Statement.evaluate_integerExpression {settings : Settings}
    (eager : settings.reduction = .eager) {tree : IntegerExpression}
    (small : ∀ subtree ∈ tree.subtrees, subtree.value.natAbs ≤ 2 ^ 53)
    {phrase : Phrase .expression} (renders : IntegerExpression.Renders phrase tree)
    (short : ∀ literal ∈ phrase.literals, literal.length ≤ settings.literalLimit)
    {statement : String} (spaced : Spaced phrase.text statement.toList) :
    evaluate settings statement = .ok (toString tree.value) := by
  rcases renders.exists_value small with ⟨result, computed, whole⟩
  rw [evaluate, value_eq_of_spaced_eager eager short spaced, computed, ok_bind]
  exact render_eq_of_isInteger whole settings.precision

theorem Statement.evaluate_negative_zero :
    let digit : Phrase .factor := .literal ['0'] (by decide)
    let digits : Phrase .factor := .literal ['0', '7'] (by decide)
    let negative : Phrase .expression := .sum (.term (.factor digit)) .subtract rfl (.factor digits)
    let phrase : Phrase .expression :=
      .term (.product (.factor (.group negative)) .multiply rfl digit)
    let tree : IntegerExpression := .product (.difference (.number 0) (.number 7)) (.number 0)
    IntegerExpression.Renders phrase tree ∧
      (∀ subtree ∈ tree.subtrees, subtree.value.natAbs ≤ 2 ^ 53) ∧
      value .standard "(0 - 07) * 0" = .ok (-0.0) ∧
      evaluate .standard "(0 - 07) * 0" = .ok "0" := by
  intro digit digits negative phrase tree
  have renders : IntegerExpression.Renders digit (.number 0) :=
    .literal _ (List.all_eq_true.mp rfl)
  have renders' : IntegerExpression.Renders digits (.number 7) :=
    .literal _ (List.all_eq_true.mp rfl)
  have rendered : IntegerExpression.Renders phrase tree :=
    .term (.product (.factor (.group (.difference (.term (.factor renders)) (.factor renders'))))
      renders)
  have small : ∀ subtree ∈ tree.subtrees, subtree.value.natAbs ≤ 2 ^ 53 := by decide
  have spaced : Spaced phrase.text "(0 - 07) * 0".toList :=
    (spaced_iff (solid_text phrase)).mpr (by decide)
  exact ⟨rendered, small, by decide +kernel,
    evaluate_integerExpression rfl small rendered (by decide) spaced⟩

end Reckon
