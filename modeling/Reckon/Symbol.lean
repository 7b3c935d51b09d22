import Reckon.Rejection

/-!
# Operators and brackets

Six characters drive the evaluation of a statement: the four binary operators
and the two brackets.  A symbol that is pending when another one arrives either
*waits for* it or has to be dealt with first; their ranks decide which.
-/

namespace Reckon

/-- The binary operators. -/
inductive Operator where
  | add
  | subtract
  | multiply
  | divide
  deriving DecidableEq, Repr

namespace Operator

/-- The character an operator is written with. -/
def toChar : Operator → Char
  | add => '+'
  | subtract => '-'
  | multiply => '*'
  | divide => '/'

/-- The result of an operator.  A division is refused if its divisor equals
zero, whatever the sign of that zero. -/
def apply : Operator → (left right : Float) → Except Rejection Float
  | add, left, right => .ok (left + right)
  | subtract, left, right => .ok (left - right)
  | multiply, left, right => .ok (left * right)
  | divide, left, right =>
      if right == 0.0 then .error .divisionByZero else .ok (left / right)

end Operator

/-- What may be pending or arrive in a statement. -/
inductive Symbol where
  | binary (operator : Operator)
  | openBracket
  | closeBracket
  deriving DecidableEq, Repr

namespace Symbol

/-- The character a symbol is written with. -/
def toChar : Symbol → Char
  | binary operator => operator.toChar
  | openBracket => '('
  | closeBracket => ')'

/-- The symbol written with a character, if there is one. -/
def ofChar? : Char → Option Symbol
  | '+' => some (binary .add)
  | '-' => some (binary .subtract)
  | '*' => some (binary .multiply)
  | '/' => some (binary .divide)
  | '(' => some openBracket
  | ')' => some closeBracket
  | _ => none

/-- How tightly a symbol binds.  An opening bracket ranks above every operator,
so that nothing is combined when one arrives; a closing bracket ranks below
them, so that everything up to its opening bracket is. -/
def rank : Symbol → Nat
  | binary .add | binary .subtract => 1
  | binary .multiply | binary .divide => 2
  | openBracket => 3
  | closeBracket => 0

/-- Whether a pending symbol stays where it is while an incoming one is put on
top of it.  An opening bracket stays under everything. -/
def waitsFor (pending incoming : Symbol) : Bool :=
  pending = openBracket || pending.rank < incoming.rank

/-- The result of a symbol; brackets have none. -/
def apply : Symbol → (left right : Float) → Except Rejection Float
  | binary operator, left, right => operator.apply left right
  | bracket, _, _ => .error (.notBinary bracket.toChar)

@[simp] theorem ofChar?_toChar (symbol : Symbol) :
    ofChar? symbol.toChar = some symbol := by
  cases symbol with
  | binary operator => cases operator <;> rfl
  | openBracket => rfl
  | closeBracket => rfl

@[simp] theorem openBracket_waitsFor (incoming : Symbol) :
    openBracket.waitsFor incoming = true := rfl

@[simp] theorem waitsFor_openBracket (pending : Symbol) :
    pending.waitsFor openBracket = true := by
  cases pending with
  | binary operator => cases operator <;> rfl
  | openBracket => rfl
  | closeBracket => rfl

@[simp] theorem binary_waitsFor_closeBracket (pending : Operator) :
    (binary pending).waitsFor closeBracket = false := by
  cases pending <;> rfl

end Symbol

end Reckon
