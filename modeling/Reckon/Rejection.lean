/-!
# Why a statement has no value

Every rejection of a statement is one of the causes below.  A cause carries what
is needed to explain it, and all wording is in `Rejection.message`.
-/

namespace Reckon

/-- Broad categories of rejection. -/
inductive Rejection.Category where
  /-- The text is not shaped like a statement. -/
  | shape
  /-- A number literal cannot be read. -/
  | literal
  /-- An operation has no result. -/
  | arithmetic
  /-- A stack ran empty. -/
  | exhausted
  deriving DecidableEq, Repr

/-- Everything that can keep a statement from having a value. -/
inductive Rejection where
  | empty
  | comma
  | doubledPoint
  | unbalanced (opening closing : Nat)
  | foreign (position : Nat) (character : Char)
  | literalAtBracket (literal : String)
  | malformed (literal : String)
  | overlong (limit : Nat)
  | divisionByZero
  | notBinary (character : Char)
  | notFinite
  | unrounded (reason : String)
  | noOperand
  | noOperator
  deriving DecidableEq, Repr

namespace Rejection

/-- The category a cause belongs to. -/
def category : Rejection → Category
  | empty | comma | doubledPoint | unbalanced .. | foreign .. | literalAtBracket _ =>
      .shape
  | malformed _ | overlong _ => .literal
  | divisionByZero | notBinary _ | notFinite | unrounded _ => .arithmetic
  | noOperand | noOperator => .exhausted

/-- The explanation shown for a cause. -/
def message : Rejection → String
  | empty => "statement is empty"
  | comma => "comma is not a valid decimal separator"
  | doubledPoint => "doubled decimal point"
  | unbalanced opening closing =>
      s!"unbalanced brackets: {opening} opening, {closing} closing"
  | foreign position character =>
      s!"unexpected character '{character}' at offset {position}"
  | literalAtBracket literal =>
      s!"literal '{literal}' directly followed by an opening bracket"
  | malformed literal => s!"malformed number literal '{literal}'"
  | overlong limit => s!"number literal longer than {limit} characters"
  | divisionByZero => "division by zero"
  | notBinary character => s!"'{character}' is not a binary operator"
  | notFinite => "result is not a finite number"
  | unrounded reason => s!"failed to round result: {reason}"
  | noOperand => "operand stack underflow"
  | noOperator => "operator stack underflow"

end Rejection

end Reckon
