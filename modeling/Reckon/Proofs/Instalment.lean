import Reckon.Proofs.Piece
import Reckon.Proofs.Segment

/-!
# Texts in instalments

A text may arrive in parts that are read one after the other.  Each part is read to its end,
which ends a literal, so a cut can make a difference, but only where a literal is under way.
Behind an operator or a closing bracket none is, whatever happened before.  A strict machine
has none behind an opening bracket either, while a lenient one lets a literal go on there.
-/

namespace Reckon

namespace Outcome

variable {State Value : Type} {first : Outcome State Unit}

/-- What follows only matters from the state that was reached. -/
theorem andThen_congr {next other : Unit → State → Outcome State Value}
    (same : ∀ middle, first.reached = .ok middle → next () middle = other () middle) :
    first.andThen next = first.andThen other := by
  rcases first with ⟨cause | ⟨⟩, state, events⟩
  · rfl
  · have followed := same state rfl
    simp only [andThen, followed]

/-- Nothing follows a failure. -/
theorem andThen_of_error {cause : Rejection} (failed : first.result = .error cause)
    (next : Unit → State → Outcome State Unit) : first.andThen next = first := by
  rcases first with ⟨result, state, events⟩
  cases failed
  rfl

end Outcome

namespace Machine

variable {machine next : Machine} {text first second : List Char} {character : Char}

/-- Whether no literal is under way behind a text, judged by its last character. -/
def closesLiteral (tolerance : Tolerance) (text : List Char) : Bool :=
  text.getLast?.any fun character =>
    endsPiece character || (tolerance = .strict && character = '(')

/-- Reads texts one after the other, each to its end, up to the first that fails. -/
def readEach : (texts : List (List Char)) → Machine → Outcome Machine Unit
  | [], machine => .done () machine
  | text :: rest, machine =>
      (machine.read text).andThen fun _ machine => machine.readEach rest

theorem settings_of_read (reached : (machine.read text).reached = .ok next) :
    next.settings = machine.settings := by
  rw [reached_read, bind_eq_ok_iff] at reached
  rcases reached with ⟨pending, _, rest⟩
  cases rest
  rfl

/-- A symbol that ends a piece ends the literal under way. -/
theorem text_of_readChar_endsPiece (ends : endsPiece character = true)
    (reached : (machine.readChar character).reached = .ok next) : next.draft.text = [] := by
  rw [readChar] at reached
  cases written : Symbol.ofChar? character with
  | none =>
      rw [endsPiece_of_plain written] at ends
      cases ends
  | some symbol =>
      have notOpening : symbol ≠ .openBracket := by
        rintro rfl
        exact ne_openBracket_of_endsPiece ends (Symbol.ofChar?_eq_some_iff.mp written)
      rw [written] at reached
      dsimp only at reached
      rw [reached_readSymbol notOpening, bind_eq_ok_iff] at reached
      rcases reached with ⟨pending, _, rest⟩
      cases rest
      rfl

/-- A strict machine accepts an opening bracket only between literals. -/
theorem text_of_readChar_openBracket (strict : machine.settings.tolerance = .strict)
    (reached : (machine.readChar '(').reached = .ok next) : next.draft.text = [] := by
  change machine.openGroup.reached = .ok next at reached
  rw [openGroup_eq] at reached
  split at reached
  · cases reached
  · rename_i accepted
    cases reached
    exact not_not.mp fun underWay => accepted ⟨strict, underWay⟩

theorem text_of_readChars (closes : closesLiteral machine.settings.tolerance text = true)
    (reached : (machine.readChars text).reached = .ok next) : next.draft.text = [] := by
  rw [closesLiteral, Option.any_eq_true] at closes
  rcases closes with ⟨character, isLast, closes⟩
  rcases List.getLast?_eq_some_iff.mp isLast with ⟨front, rfl⟩
  rw [readChars_append, Outcome.reached_andThen, bind_eq_ok_iff] at reached
  rcases reached with ⟨middle, before, last⟩
  have settings := (exists_acceptAll_of_readChars before).1
  rw [readChars_cons, Outcome.reached_andThen, bind_eq_ok_iff] at last
  rcases last with ⟨behind, last, same⟩
  cases same
  simp only [Bool.or_eq_true, Bool.and_eq_true, decide_eq_true_eq] at closes
  rcases closes with ends | ⟨strict, rfl⟩
  · exact text_of_readChar_endsPiece ends last
  · exact text_of_readChar_openBracket (settings ▸ strict) last

/-- The end of a text that closes its literals has nothing to end. -/
theorem read_eq_readChars (closes : closesLiteral machine.settings.tolerance text = true) :
    machine.read text = machine.readChars text := by
  have noLiteral : machine.read text = (machine.readChars text).andThen .done := by
    apply Outcome.andThen_congr
    intro middle reached
    exact endLiteral_of_text_eq_nil (text_of_readChars closes reached)
  rw [noLiteral, Outcome.andThen_done]

/-- A text may be cut where no literal is under way. -/
theorem read_append (closes : closesLiteral machine.settings.tolerance first = true) :
    machine.read (first ++ second) =
      (machine.read first).andThen fun _ middle => middle.read second := by
  rw [read_eq_readChars closes, read, readChars_append, Outcome.andThen_assoc]
  rfl

/-- Behind an opening bracket a lenient machine may be in the middle of a literal. -/
example :
    let machine := fresh { Settings.standard with tolerance := .lenient }
    (machine.readEach ["4(".toList, "2)".toList]).state.pending.operands = [2.0, 4.0] ∧
      (machine.read "4(2)".toList).state.pending.operands = [42.0] := by
  decide +kernel

theorem readEach_append (parts : List (List Char)) (last : List Char)
    (close : ∀ part ∈ parts, closesLiteral machine.settings.tolerance part = true) :
    machine.readEach (parts ++ [last]) = machine.read (parts.flatten ++ last) := by
  induction parts generalizing machine with
  | nil => exact Outcome.andThen_done _
  | cons first rest ih =>
      rw [List.forall_mem_cons] at close
      rw [List.flatten_cons, List.append_assoc, read_append close.1]
      apply Outcome.andThen_congr
      intro middle reached
      -- The tolerance decides where a literal is closed, and reading does not change it.
      apply ih
      rw [settings_of_read reached]
      exact close.2

/-- A text that is cut behind symbols that close a literal is read in parts as it is read in one
go, whatever state the machine is in and whatever the parts are: with the same result, the same
log, and the same machine left.  If a part fails, the text fails there and in the same way. -/
theorem read_in_instalments (machine : Machine) :
    (∀ first second, closesLiteral machine.settings.tolerance first = true →
      (∀ cause, (machine.read first).result = .error cause →
        machine.read (first ++ second) = machine.read first) ∧
      ((machine.read first).result = .ok () →
        let middle := (machine.read first).state
        (machine.read (first ++ second)).result = (middle.read second).result ∧
          (machine.read (first ++ second)).state = (middle.read second).state ∧
          (machine.read (first ++ second)).events =
            (machine.read first).events ++ (middle.read second).events)) ∧
    ∀ parts last,
      (∀ part ∈ parts, closesLiteral machine.settings.tolerance part = true) →
        machine.readEach (parts ++ [last]) = machine.read (parts.flatten ++ last) := by
  refine ⟨fun first second closes => ⟨?_, ?_⟩, readEach_append⟩
  · intro cause failed
    rw [read_append closes]
    exact Outcome.andThen_of_error failed _
  · intro succeeded
    dsimp only
    rw [read_append closes, Outcome.andThen, succeeded]
    exact ⟨rfl, rfl, rfl⟩

/-- A literal is under way when the first part arrives, a group at the end of the second one, and
the third one fails. -/
theorem read_in_instalments_division :
    let machine : Machine := ⟨.standard, ⟨[7.0], [.binary .add]⟩, ⟨64, ['4'], by decide, by decide⟩⟩
    let parts := ["2*(".toList, "3-".toList, "1/0)".toList]
    let opening := "2*(".toList
    let front := "2*(3-1/0)".toList
    let last := "+5".toList
    (∀ part ∈ parts, closesLiteral machine.settings.tolerance part = true) ∧
      (machine.read opening).result = .ok () ∧
      (machine.read front).result = .error .divisionByZero ∧
      (machine.read (opening ++ last)).state = ((machine.read opening).state.read last).state ∧
      machine.read (front ++ last) = machine.read front ∧
      machine.readEach (parts ++ [last]) = machine.read (front ++ last) := by
  intro machine parts opening front last
  have close : ∀ part ∈ parts, closesLiteral machine.settings.tolerance part = true := by
    decide +kernel
  have opens : closesLiteral machine.settings.tolerance opening = true := by decide +kernel
  have closes : closesLiteral machine.settings.tolerance front = true := by decide +kernel
  have succeeded : (machine.read opening).result = .ok () := by decide +kernel
  have failed : (machine.read front).result = .error .divisionByZero := by decide +kernel
  have whole : parts.flatten = front := by decide +kernel
  refine ⟨close, succeeded, failed, ?_, ?_, ?_⟩
  · exact (((read_in_instalments machine).1 opening last opens).2 succeeded).2.1
  · exact ((read_in_instalments machine).1 front last closes).1 _ failed
  · rw [← whole]
    exact (read_in_instalments machine).2 parts last close

end Machine

end Reckon
