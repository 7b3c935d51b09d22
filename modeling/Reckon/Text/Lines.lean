/-!
# Lines of a text

A line ends at a line feed, and a carriage return right before that line feed
belongs to the line end.  Text behind the last line feed is a line of its own
unless it is empty.
-/

namespace Reckon.Text

/-- Puts a character in front of the first line. -/
def extendFirst (character : Char) : List (List Char) → List (List Char)
  | [] => [[character]]
  | line :: rest => (character :: line) :: rest

/-- The lines of a text without their line ends. -/
def splitLines : List Char → List (List Char)
  | [] => []
  | '\n' :: rest => [] :: splitLines rest
  | '\r' :: '\n' :: rest => [] :: splitLines rest
  | character :: rest => extendFirst character (splitLines rest)

/-- The lines of a string. -/
def lines (text : String) : List String :=
  (splitLines text.toList).map String.ofList

/-- A line without line feed or carriage return is read up to its line feed. -/
theorem splitLines_append_lineFeed {line : List Char}
    (noFeed : '\n' ∉ line) (noReturn : '\r' ∉ line) (rest : List Char) :
    splitLines (line ++ '\n' :: rest) = line :: splitLines rest := by
  induction line with
  | nil => rfl
  | cons character line ih =>
      simp only [List.mem_cons, not_or] at noFeed noReturn
      have following := ih noFeed.2 noReturn.2
      rw [List.cons_append, splitLines.eq_4 _ _ (fun same => noFeed.1 same.symm)
        (fun _ same _ => noReturn.1 same.symm), following, extendFirst]

end Reckon.Text
