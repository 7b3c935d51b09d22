import Reckon.Numeral.Shortest
import Reckon.Symbol

/-!
# What an evaluation did

The log of an evaluation is a list of events in the order in which they
happened.
-/

namespace Reckon

/-- One entry of the log. -/
inductive Event where
  /-- A literal was read and its value put on the operand stack. -/
  | pushed (value : Float)
  /-- Two operands were replaced by the result of a symbol. -/
  | combined (left : Float) (symbol : Symbol) (right result : Float)
  /-- Text that does not read as a number was thrown away. -/
  | dropped (literal : List Char)
  /-- A closing bracket removed a symbol that is not an opening bracket. -/
  | discarded (symbol : Symbol)
  deriving DecidableEq, Repr

namespace Event

/-- A text in double quotes, with a backslash in front of every double quote and
every backslash. -/
def quoted (text : List Char) : String :=
  let inner := text.flatMap fun character =>
    if character = '"' ∨ character = '\\' then ['\\', character] else [character]
  String.ofList ('"' :: inner ++ ['"'])

/-- The line written for an event. -/
def message : Event → String
  | pushed value => "push operand " ++ Binary64.text value
  | combined left symbol right result =>
      String.intercalate " "
        ["reduce", Binary64.text left, symbol.toChar.toString, Binary64.text right,
          "=", Binary64.text result]
  | dropped literal => "dropping literal " ++ quoted literal
  | discarded symbol =>
      "closing bracket discarded pending " ++ symbol.toChar.toString

end Event

end Reckon
