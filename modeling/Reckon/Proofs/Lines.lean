import Reckon.Text.Lines

/-!
# Texts that have given lines

A list of strings can be written on lines in several ways: each line end may be a line feed
alone or follow a carriage return, and the last one may be left out.  Reading the lines of
such a text gives the strings back, but a carriage return in which a string ends may be
taken for a part of the line end.
-/

namespace Reckon.Text

/-- What ends a line. -/
def IsLineEnd (ending : String) : Prop :=
  ending = "\n" ∨ ending = "\r\n"

/-- The text has the strings on lines of their own.  A string that is not empty may stand
behind the last line end. -/
inductive OnLines : (strings : List String) → (text : String) → Prop where
  | nil : OnLines [] ""
  | unended {string : String} : string ≠ "" → OnLines [string] string
  | line {ending text : String} {strings : List String} (string : String) :
      IsLineEnd ending → OnLines strings text →
        OnLines (string :: strings) (string ++ ending ++ text)

variable {line rest : List Char} {character : Char}

/-- A character that does not begin a line end belongs to the first line. -/
theorem splitLines_cons (noFeed : character ≠ '\n')
    (noReturn : character = '\r' → rest.head? ≠ some '\n') :
    splitLines (character :: rest) = extendFirst character (splitLines rest) := by
  apply splitLines.eq_4 _ _ noFeed
  rintro behind rfl rfl
  exact noReturn rfl rfl

/-- A line without a line feed is read up to its line end, but loses a carriage return in
front of a bare line feed. -/
theorem splitLines_append_lineEnd {ending : List Char} (noFeed : '\n' ∉ line)
    (isEnd : ending = ['\n'] ∨ ending = ['\r', '\n']) (rest : List Char) :
    ∃ read, splitLines (line ++ (ending ++ rest)) = read :: splitLines rest ∧
      (line = read ∨ line = read ++ ['\r']) := by
  induction line with
  | nil =>
      refine ⟨[], ?_, .inl rfl⟩
      rcases isEnd with rfl | rfl
      · rfl
      · rfl
  | cons character line ih =>
      rw [List.mem_cons, not_or] at noFeed
      by_cases swallowed : character = '\r' ∧ (line ++ (ending ++ rest)).head? = some '\n'
      · rcases swallowed with ⟨rfl, feed⟩
        cases line with
        | cons first line =>
            cases feed
            exact (noFeed.2 List.mem_cons_self).elim
        | nil =>
            rcases isEnd with rfl | rfl
            · exact ⟨[], rfl, .inr rfl⟩
            · cases feed
      · rcases ih noFeed.2 with ⟨read, split, same⟩
        refine ⟨character :: read, ?_, ?_⟩
        · rw [List.cons_append, splitLines_cons (Ne.symm noFeed.1), split, extendFirst]
          intro isReturn feed
          exact swallowed ⟨isReturn, feed⟩
        · rcases same with rfl | rfl
          · exact .inl rfl
          · exact .inr rfl

/-- Behind the last line end, whatever is there is a line. -/
theorem splitLines_unended (nonempty : line ≠ []) (noFeed : '\n' ∉ line) :
    splitLines line = [line] := by
  induction line with
  | nil => exact (nonempty rfl).elim
  | cons character line ih =>
      rw [List.mem_cons, not_or] at noFeed
      rw [splitLines_cons (Ne.symm noFeed.1)]
      · by_cases last : line = []
        · subst last
          rfl
        · rw [ih last noFeed.2, extendFirst]
      · intro _ feed
        exact noFeed.2 (List.mem_of_head? feed)

/-- Whatever does not look at a carriage return in the end sees the strings in the lines. -/
theorem map_lines_of_onLines {Value : Type} {view : String → Value}
    (blind : ∀ string, view (string ++ "\r") = view string) {strings : List String}
    (noFeed : ∀ string ∈ strings, '\n' ∉ string.toList) {text : String}
    (onLines : OnLines strings text) : (lines text).map view = strings.map view := by
  induction onLines with
  | nil => rfl
  | @unended string nonempty =>
      have unended : splitLines string.toList = [string.toList] :=
        splitLines_unended (by simpa using nonempty) (noFeed string (by simp))
      simp [lines, unended]
  | @line ending text strings string isEnd onLines ih =>
      have ending : ending.toList = ['\n'] ∨ ending.toList = ['\r', '\n'] := by
        rcases isEnd with rfl | rfl
        · exact .inl rfl
        · exact .inr rfl
      rcases splitLines_append_lineEnd (noFeed string (by simp)) ending text.toList with
        ⟨read, split, same⟩
      have seen : view (String.ofList read) = view string := by
        rcases same with same | same
        · rw [← same, String.ofList_toList]
        · rw [← blind, ← String.ofList_toList (s := string), same, String.ofList_append]
      have later := ih fun other member => noFeed other (List.mem_cons_of_mem _ member)
      rw [lines, String.toList_append, String.toList_append, List.append_assoc, split,
        List.map_cons, List.map_cons, List.map_cons, seen, ← later]
      rfl

end Reckon.Text
