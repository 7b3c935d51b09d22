import Reckon.Literal.Draft
import Reckon.Pending

/-!
# Reading machine

A machine reads a statement character by character.  Characters that are no
symbols collect in the draft of a literal.  Every symbol other than an opening
bracket ends the literal under way, whose value becomes an operand, makes
pending symbols give way, and then becomes pending itself or, if it is a closing
bracket, takes one symbol off.  A character that fails leaves the machine as far
as it got.
-/

namespace Reckon

/-- The state of an evaluation.  The capacity of the draft is fixed when the
machine is made; changing the settings later does not touch it. -/
@[ext] structure Machine where
  settings : Settings
  pending : Pending
  draft : Draft
  deriving DecidableEq, Repr

namespace Machine

/-- A machine that has read nothing. -/
def fresh (settings : Settings) : Machine where
  settings := settings
  pending := .empty
  draft := .empty settings.literalLimit settings.limit_le

/-- Carries out a part of the evaluation that only concerns what is pending. -/
def onPending {Value : Type} (part : Pending → Outcome Pending Value)
    (machine : Machine) : Outcome Machine Value :=
  (part machine.pending).within fun pending => { machine with pending }

/-- Takes the topmost symbol off. -/
def takeSymbol (machine : Machine) : Outcome Machine Symbol :=
  machine.onPending Pending.takeSymbol

/-- Replaces the two topmost operands by the result of a symbol. -/
def combine (symbol : Symbol) (machine : Machine) : Outcome Machine Unit :=
  machine.onPending (Pending.combine symbol)

/-- Combines the pending symbols that must not wait for an incoming one. -/
def giveWay (incoming : Symbol) (machine : Machine) : Outcome Machine Unit :=
  machine.onPending (Pending.giveWay machine.settings.reduction incoming)

/-- Combines all that is pending into one value. -/
def conclude (machine : Machine) : Outcome Machine Float :=
  machine.onPending (Pending.conclude machine.settings.reduction)

/-- Puts a symbol on top of the pending ones. -/
def addSymbol (symbol : Symbol) (machine : Machine) : Outcome Machine Unit :=
  .done () { machine with pending := machine.pending.addSymbol symbol }

/-- Adds a character to the literal under way. -/
def extendLiteral (character : Char) (machine : Machine) : Outcome Machine Unit :=
  match machine.draft.extend character with
  | .ok draft => .done () { machine with draft }
  | .error cause => .fail cause machine

/-- Ends the literal under way, if there is one: its value becomes an operand.
Text that does not read as a number is kept and reported by strict machines and
dropped by lenient ones. -/
def endLiteral (machine : Machine) : Outcome Machine Unit :=
  match machine.draft.value? with
  | none => .done () machine
  | some (.ok value) =>
      .logged (.pushed value)
        { machine with
          pending := machine.pending.addOperand value
          draft := machine.draft.clear }
  | some (.error cause) =>
      match machine.settings.tolerance with
      | .strict => .fail cause machine
      | .lenient =>
          .logged (.dropped machine.draft.text)
            { machine with draft := machine.draft.clear }

/-- Begins a bracketed group.  An opening bracket does not end a literal: strict
machines reject one that is under way, lenient ones let it go on behind the
bracket. -/
def openGroup (machine : Machine) : Outcome Machine Unit :=
  if machine.settings.tolerance = .strict ∧ ¬machine.draft.isEmpty then
    .fail (.literalAtBracket machine.draft.toString) machine
  else machine.addSymbol .openBracket

/-- Takes one symbol off at a closing bracket.  It should be the opening
bracket; any other is discarded in its place. -/
def closeGroup (machine : Machine) : Outcome Machine Unit :=
  machine.takeSymbol.andThen fun symbol machine =>
    if symbol = .openBracket then .done () machine
    else .logged (.discarded symbol) machine

/-- Ends the literal under way and makes the pending symbols give way. -/
def makeWay (incoming : Symbol) (machine : Machine) : Outcome Machine Unit :=
  machine.endLiteral.andThen fun _ machine => machine.giveWay incoming

/-- Reads a symbol. -/
def readSymbol (symbol : Symbol) (machine : Machine) : Outcome Machine Unit :=
  match symbol with
  | .openBracket => machine.openGroup
  | .closeBracket =>
      (machine.makeWay .closeBracket).andThen fun _ machine =>
        machine.closeGroup
  | .binary operator =>
      (machine.makeWay (.binary operator)).andThen fun _ machine =>
        machine.addSymbol (.binary operator)

/-- Reads a character. -/
def readChar (character : Char) (machine : Machine) : Outcome Machine Unit :=
  match Symbol.ofChar? character with
  | some symbol => machine.readSymbol symbol
  | none => machine.extendLiteral character

/-- Reads characters one after the other, up to the first that fails. -/
def readChars : List Char → Machine → Outcome Machine Unit
  | [], machine => .done () machine
  | character :: rest, machine =>
      (machine.readChar character).andThen fun _ machine => machine.readChars rest

/-- Reads a text to its end, which ends the last literal. -/
def read (text : List Char) (machine : Machine) : Outcome Machine Unit :=
  (machine.readChars text).andThen fun _ machine => machine.endLiteral

@[simp] theorem readChars_nil (machine : Machine) :
    machine.readChars [] = .done () machine := rfl

@[simp] theorem readChars_cons (character : Char) (rest : List Char)
    (machine : Machine) :
    machine.readChars (character :: rest) =
      (machine.readChar character).andThen fun _ machine =>
        machine.readChars rest := rfl

/-- Reading a text is reading its first part and then, from where that ended,
its second. -/
theorem readChars_append (first second : List Char) (machine : Machine) :
    machine.readChars (first ++ second) =
      (machine.readChars first).andThen fun _ machine =>
        machine.readChars second := by
  induction first generalizing machine with
  | nil => rfl
  | cons character rest ih =>
      simp only [List.cons_append, readChars_cons, Outcome.andThen_assoc]
      exact congrArg _ (funext fun _ => funext fun machine => ih machine)

/-- Between literals there is nothing to end. -/
theorem endLiteral_of_text_eq_nil {machine : Machine}
    (between : machine.draft.text = []) :
    machine.endLiteral = .done () machine := by
  simp [endLiteral, Draft.value?_eq_none_iff.mpr between]

end Machine

end Reckon
