import Reckon.Rejection
import Reckon.Settings
import Reckon.Text.Blank

/-!
# Statements before evaluation

Blanks mean nothing anywhere in a statement, not even inside a literal, and are
removed first.  Then the statement is rejected if it cannot possibly have a
value.  Brackets are only counted here; that they also close in the right order
is left to the evaluation.
-/

namespace Reckon.Statement

/-- The characters of a statement without its blanks. -/
def strip (statement : String) : List Char :=
  statement.toList.filter fun character => !Text.isBlank character

/-- Whether two points stand next to each other. -/
def hasDoubledPoint : List Char → Bool
  | '.' :: '.' :: _ => true
  | _ :: rest => hasDoubledPoint rest
  | [] => false

/-- The alphabet of strict statements. -/
def isNative (character : Char) : Bool :=
  character.isDigit || ['.', '+', '-', '*', '/', '(', ')'].contains character

/-- The number of bytes of a text in UTF-8. -/
def byteLength (text : List Char) : Nat :=
  text.foldr (fun character bytes => character.utf8Size + bytes) 0

/-- The first character outside the alphabet and the number of bytes in front of
it. -/
def firstForeign? (text : List Char) : Option (Nat × Char) :=
  let native := text.takeWhile isNative
  (text.dropWhile isNative).head?.map fun character =>
    (byteLength native, character)

/-- The characters to be read, or the first reason against them in this order:
there are none, a comma, a doubled point, different numbers of opening and
closing brackets and, in strict statements, a foreign character. -/
def prepare (tolerance : Tolerance) (statement : String) :
    Except Rejection (List Char) :=
  let text := strip statement
  let opening := text.count '('
  let closing := text.count ')'
  if text.isEmpty then .error .empty
  else if text.contains ',' then .error .comma
  else if hasDoubledPoint text then .error .doubledPoint
  else if opening ≠ closing then .error (.unbalanced opening closing)
  else
    match tolerance, firstForeign? text with
    | .strict, some (position, character) => .error (.foreign position character)
    | _, _ => .ok text

/-- What is read is the statement without its blanks, whatever the tolerance. -/
theorem eq_strip_of_prepare {tolerance : Tolerance} {statement : String}
    {text : List Char} (prepared : prepare tolerance statement = .ok text) :
    text = strip statement := by
  simp only [prepare] at prepared
  grind

end Reckon.Statement
