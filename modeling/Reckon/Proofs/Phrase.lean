import Mathlib.Data.List.Chain
import Reckon.Proofs.PlainLiteral
import Reckon.Symbol

/-!
# Phrases

The grammar of well-formed statements:

    expression := term (('+' | '-') term)*
    term       := factor (('*' | '/') factor)*
    factor     := literal | '(' expression ')'

A phrase is a derivation in this grammar.  Repetitions are built from the left,
so that all operators associate to the left.
-/

namespace Reckon

/-- Whether an operator joins terms; the others join factors. -/
def Operator.isAdditive : Operator → Bool
  | add | subtract => true
  | multiply | divide => false

/-- The syntactic categories of the grammar. -/
inductive Level where
  | expression
  | term
  | factor
  deriving DecidableEq, Repr

/-- The derivations of a syntactic category. -/
inductive Phrase : Level → Type where
  | literal (text : List Char) (plain : Literal.IsPlain text) : Phrase .factor
  | group (inner : Phrase .expression) : Phrase .factor
  | factor (only : Phrase .factor) : Phrase .term
  | product (left : Phrase .term) (operator : Operator)
      (multiplicative : operator.isAdditive = false) (right : Phrase .factor) :
      Phrase .term
  | term (only : Phrase .term) : Phrase .expression
  | sum (left : Phrase .expression) (operator : Operator)
      (additive : operator.isAdditive = true) (right : Phrase .term) :
      Phrase .expression

namespace Phrase

variable {level : Level}

/-- The characters that a phrase derives. -/
def text : {level : Level} → Phrase level → List Char
  | _, literal text _ => text
  | _, group inner => '(' :: (inner.text ++ [')'])
  | _, factor only => only.text
  | _, product left operator _ right => left.text ++ operator.toChar :: right.text
  | _, term only => only.text
  | _, sum left operator _ right => left.text ++ operator.toChar :: right.text

/-- The literals of a phrase, from left to right. -/
def literals : {level : Level} → Phrase level → List (List Char)
  | _, literal text _ => [text]
  | _, group inner => inner.literals
  | _, factor only => only.literals
  | _, product left _ _ right => left.literals ++ right.literals
  | _, term only => only.literals
  | _, sum left _ _ right => left.literals ++ right.literals

/-- The double that a plain literal reads as. -/
def literalValue (text : List Char) (plain : Literal.IsPlain text) : Float :=
  (Literal.read? text).get
    ((Literal.isPlain_iff_isSome_read? plain.alphabet).mp plain)

/-- The value of a phrase, operands evaluated from left to right. -/
def value : {level : Level} → Phrase level → Except Rejection Float
  | _, literal text plain => .ok (literalValue text plain)
  | _, group inner => inner.value
  | _, factor only => only.value
  | _, product left operator _ right =>
      left.value.bind fun first => right.value.bind (operator.apply first)
  | _, term only => only.value
  | _, sum left operator _ right =>
      left.value.bind fun first => right.value.bind (operator.apply first)

/-- The factors that something is divided by. -/
def divisors : {level : Level} → Phrase level → List (Phrase .factor)
  | _, literal _ _ => []
  | _, group inner => inner.divisors
  | _, factor only => only.divisors
  | _, product left operator _ right =>
      left.divisors ++ right.divisors ++ if operator = .divide then [right] else []
  | _, term only => only.divisors
  | _, sum left _ _ right => left.divisors ++ right.divisors

/-- Some divisor equals zero. -/
def DividesByZero (phrase : Phrase level) : Prop :=
  ∃ divisor ∈ phrase.divisors, ∃ zero, divisor.value = .ok zero ∧ zero == 0.0

theorem read?_eq_literalValue {text : List Char} (plain : Literal.IsPlain text) :
    Literal.read? text = some (literalValue text plain) :=
  (Option.some_get _).symm

theorem dividesByZero_product {left : Phrase .term} {operator : Operator}
    {multiplicative : operator.isAdditive = false} {right : Phrase .factor} :
    (product left operator multiplicative right).DividesByZero ↔
      left.DividesByZero ∨ right.DividesByZero ∨
        operator = .divide ∧ ∃ zero, right.value = .ok zero ∧ zero == 0.0 := by
  simp only [DividesByZero, divisors, List.mem_append, or_and_right, exists_or,
    or_assoc]
  by_cases division : operator = .divide
  · simp [division]
  · simp [division]

theorem dividesByZero_sum {left : Phrase .expression} {operator : Operator}
    {additive : operator.isAdditive = true} {right : Phrase .term} :
    (sum left operator additive right).DividesByZero ↔
      left.DividesByZero ∨ right.DividesByZero ∨
        operator = .divide ∧ ∃ zero, right.value = .ok zero ∧ zero == 0.0 := by
  have noDivision : operator ≠ .divide := by
    intro division
    subst division
    cases additive
  simp [DividesByZero, divisors, or_and_right, exists_or, noDivision]

/-- An operator fails only as a division by zero. -/
theorem apply_cases (operator : Operator) (left right : Float) :
    (∃ value, operator.apply left right = .ok value ∧
        ¬(operator = .divide ∧ right == 0.0)) ∨
      (operator.apply left right = .error .divisionByZero ∧
        operator = .divide ∧ right == 0.0) := by
  cases operator with
  | add => exact .inl ⟨_, rfl, by simp⟩
  | subtract => exact .inl ⟨_, rfl, by simp⟩
  | multiply => exact .inl ⟨_, rfl, by simp⟩
  | divide =>
      by_cases zero : right == 0.0
      · exact .inr ⟨if_pos zero, rfl, zero⟩
      · exact .inl ⟨_, if_neg zero, fun division => zero division.2⟩

/-- Operands that fail only as divisions by zero make operations that do so,
too. -/
theorem operation_cases {left right : Except Rejection Float} {inLeft inRight : Prop}
    (leftCases : (∃ value, left = .ok value ∧ ¬inLeft) ∨
      (left = .error .divisionByZero ∧ inLeft))
    (rightCases : (∃ value, right = .ok value ∧ ¬inRight) ∨
      (right = .error .divisionByZero ∧ inRight))
    (operator : Operator) :
    (∃ value, (left.bind fun first => right.bind (operator.apply first)) = .ok value ∧
        ¬(inLeft ∨ inRight ∨
          operator = .divide ∧ ∃ zero, right = .ok zero ∧ zero == 0.0)) ∨
      ((left.bind fun first => right.bind (operator.apply first)) =
          .error .divisionByZero ∧
        (inLeft ∨ inRight ∨
          operator = .divide ∧ ∃ zero, right = .ok zero ∧ zero == 0.0)) := by
  rcases leftCases with ⟨first, rfl, notLeft⟩ | ⟨rfl, failed⟩
  · rcases rightCases with ⟨second, rfl, notRight⟩ | ⟨rfl, failed⟩
    · rcases apply_cases operator first second with
        ⟨value, applied, notZero⟩ | ⟨refused, division, zero⟩
      · left
        refine ⟨value, applied, ?_⟩
        intro divides
        rcases divides with failed | failed | ⟨division, zero, same, equal⟩
        · exact notLeft failed
        · exact notRight failed
        · cases same
          exact notZero ⟨division, equal⟩
      · right
        exact ⟨refused, .inr (.inr ⟨division, second, rfl, zero⟩)⟩
    · right
      exact ⟨rfl, .inr (.inl failed)⟩
  · right
    exact ⟨rfl, .inl failed⟩

/-- A phrase has a value unless some divisor in it equals zero. -/
theorem value_cases (phrase : Phrase level) :
    (∃ value, phrase.value = .ok value ∧ ¬phrase.DividesByZero) ∨
      (phrase.value = .error .divisionByZero ∧ phrase.DividesByZero) := by
  induction phrase with
  | literal text plain =>
      left
      exact ⟨_, rfl, by simp [DividesByZero, divisors]⟩
  | group inner ih => exact ih
  | factor only ih => exact ih
  | product left operator multiplicative right leftIH rightIH =>
      simp only [dividesByZero_product]
      exact operation_cases leftIH rightIH operator
  | term only ih => exact ih
  | sum left operator additive right leftIH rightIH =>
      simp only [dividesByZero_sum]
      exact operation_cases leftIH rightIH operator

/-! ## The text of a phrase -/

/-- A relation that holds next to every symbol and inside literals holds between
all neighbours in a phrase. -/
theorem isChain_text {related : Char → Char → Prop}
    (inside : ∀ text, Literal.IsPlain text → text.IsChain related)
    (behind : ∀ (operator : Operator) character, related operator.toChar character)
    (before : ∀ character (operator : Operator), related character operator.toChar)
    (opens : ∀ character, related '(' character)
    (closes : ∀ character, related character ')') (phrase : Phrase level) :
    phrase.text.IsChain related := by
  have joined : ∀ {left right : List Char} (operator : Operator),
      left.IsChain related → right.IsChain related →
        (left ++ operator.toChar :: right).IsChain related := by
    intro left right operator leftChain rightChain
    apply leftChain.append
    · exact rightChain.cons fun character _ => behind operator character
    · intro character _ next first
      cases first
      exact before character operator
  induction phrase with
  | literal text plain => exact inside text plain
  | group inner ih =>
      apply List.IsChain.cons
      · apply ih.append (List.isChain_singleton _)
        intro character _ next first
        cases first
        exact closes character
      · intro character _
        exact opens character
  | factor only ih => exact ih
  | product left operator multiplicative right leftIH rightIH =>
      exact joined operator leftIH rightIH
  | term only ih => exact ih
  | sum left operator additive right leftIH rightIH =>
      exact joined operator leftIH rightIH

theorem toChar_ne_bracket (operator : Operator) :
    operator.toChar ≠ '(' ∧ operator.toChar ≠ ')' := by
  cases operator <;> decide

end Phrase

end Reckon
