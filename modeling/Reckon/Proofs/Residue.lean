import Reckon.Proofs.Conclusion
import Reckon.Proofs.Replay

/-!
# What a failure leaves behind

A character that fails may have ended a literal, combined operands and taken symbols off
before.  What it put on the operand stack itself, the value of the literal or a result, is
taken off again by the very combination that fails, so that the operands that are left were
there before the character.  A literal that is refused stays where it is.
-/

namespace Reckon

/-- The causes of a combination that fails. -/
def Rejection.IsCombination : Rejection → Prop
  | divisionByZero | noOperand | notBinary _ => True
  | _ => False

namespace Pending

variable {symbol incoming : Symbol} {operands base : List Float} {operators : List Symbol}
variable {pending : Pending} {cause : Rejection} {reduction : Reduction}

/-- A combination failed, and of the operands it left a bottom part of the old ones. -/
structure FallsBack (base : List Float) (cause : Rejection) (left : List Float) : Prop where
  combination : cause.IsCombination
  old : left <:+ base
  none : cause = .noOperand → left = []

/-- A combination that fails takes the topmost operand off at least. -/
theorem fallsBack_combine
    (failed : (combine symbol ⟨operands, operators⟩).result = .error cause) :
    FallsBack operands.tail cause (combine symbol ⟨operands, operators⟩).state.operands := by
  match operands with
  | [] | [_] =>
      cases failed
      exact ⟨trivial, List.nil_suffix, fun _ => rfl⟩
  | right :: left :: rest =>
      cases applied : symbol.apply left right with
      | ok result =>
          rw [combine_eq_logged applied] at failed
          cases failed
      | error other =>
          have combined : combine symbol ⟨right :: left :: rest, operators⟩ =
              .fail other ⟨rest, operators⟩ := by
            simp [combine, applied]
          have causes := Application.cause_of_result
            (show (Application.mk left symbol right).result = .error other from applied)
          rw [combined] at failed ⊢
          cases failed
          refine ⟨?_, List.suffix_cons left rest, ?_⟩
          · rcases causes with rfl | rfl | rfl <;> trivial
          · rintro rfl
            simp at causes

/-- All operands but the topmost one are old, and remain so as operands are combined.  The
symbol whose combination fails is off its stack. -/
theorem fallsBack_giveWayFrom (old : operands.tail <:+ base)
    (failed : (giveWayFrom reduction incoming operators operands).result = .error cause) :
    FallsBack base cause (giveWayFrom reduction incoming operators operands).state.operands ∧
      ∃ top below, operators = top :: below ∧
        (giveWayFrom reduction incoming operators operands).state.operators <:+ below := by
  induction operators generalizing operands with
  | nil => cases failed
  | cons top below ih =>
      cases waits : top.waitsFor incoming with
      | true =>
          rw [giveWayFrom_of_waitsFor waits] at failed
          cases failed
      | false =>
          rw [giveWayFrom, if_neg (by simp [waits])] at failed ⊢
          rcases Outcome.exists_of_andThen_error failed with
            ⟨combining, state⟩ | ⟨middle, combined, later, state⟩
          · have back := fallsBack_combine combining
            rw [state, operators_combine]
            exact ⟨⟨back.combination, back.old.trans old, back.none⟩, top, below, rfl,
              List.suffix_rfl⟩
          · rcases combine_cases combined with ⟨_, left, right, rest, result, _, rfl, _, rfl⟩
            cases reduction with
            | single => cases later
            | eager =>
                -- The result replaces both operands, so it is the only new one again.
                have oldRest : (result :: rest).tail <:+ base :=
                  (List.suffix_cons left rest).trans old
                rcases ih oldRest later with ⟨back, lower, lowest, rfl, symbols⟩
                rw [state]
                exact ⟨back, top, lower :: lowest, rfl,
                  symbols.trans (List.suffix_cons lower lowest)⟩

end Pending

namespace Machine

variable {machine middle : Machine} {text : List Char} {cause : Rejection} {next : Option Char}

/-- Reads the next character, or ends the text if there is none. -/
def readNext (next : Option Char) (machine : Machine) : Outcome Machine Unit :=
  match next with
  | some character => machine.readChar character
  | none => machine.endLiteral

/-- How many characters of a text are read before the first that fails. -/
def progress : (text : List Char) → Machine → Nat
  | [], _ => 0
  | character :: rest, machine =>
      match (machine.readChar character).result with
      | .ok () => (machine.readChar character).state.progress rest + 1
      | .error _ => 0

/-- What a machine that fails is left as, next to what it was before the failing character, which
is missing if the end of the text failed. -/
def Residue (cause : Rejection) (next : Option Char) (before after : Machine) : Prop :=
  match cause with
  | .overlong limit =>
      after = before ∧ before.draft.capacity = limit ∧ before.draft.text.length = limit
  | .literalAtBracket literal | .malformed literal =>
      after = before ∧ before.draft.text ≠ [] ∧ before.draft.toString = literal
  | .divisionByZero | .noOperand | .notBinary _ =>
      after.draft.text = [] ∧
        after.pending.operators <:+ before.pending.operators ∧
        after.pending.operators ≠ before.pending.operators ∧
        after.pending.operands <:+ before.pending.operands ∧
        (cause = .noOperand → after.pending.operands = [])
  | .noOperator => next = some ')' ∧ after.draft.text = [] ∧ after.pending.operators = []
  | _ => False

theorem residue_extendLiteral {character : Char}
    (failed : (machine.extendLiteral character).result = .error cause) :
    Residue cause next machine (machine.extendLiteral character).state := by
  by_cases room : machine.draft.text.length < machine.draft.capacity
  · simp [extendLiteral, Draft.extend, room] at failed
  · have refused : machine.extendLiteral character =
        .fail (.overlong machine.draft.capacity) machine := by
      simp [extendLiteral, Draft.extend, room]
    rw [refused] at failed ⊢
    cases failed
    exact ⟨rfl, rfl, Nat.le_antisymm machine.draft.length_le (Nat.le_of_not_lt room)⟩

theorem residue_endLiteral (failed : machine.endLiteral.result = .error cause) :
    Residue cause next machine machine.endLiteral.state := by
  by_cases between : machine.draft.text = []
  · rw [endLiteral_of_text_eq_nil between] at failed
    cases failed
  · rw [endLiteral_of_read? between] at failed ⊢
    cases read : Literal.read? machine.draft.text with
    | some value =>
        rw [read] at failed
        cases failed
    | none =>
        rw [read] at failed
        cases tolerance : machine.settings.tolerance with
        | lenient =>
            rw [tolerance] at failed
            cases failed
        | strict =>
            rw [tolerance] at failed
            cases failed
            exact ⟨rfl, between, rfl⟩

/-- Ending a literal adds one operand at the most. -/
theorem old_of_endLiteral (reached : machine.endLiteral.reached = .ok middle) :
    middle.draft.text = [] ∧ middle.pending.operators = machine.pending.operators ∧
      middle.pending.operands.tail <:+ machine.pending.operands := by
  rw [endLiteral] at reached
  split at reached
  · rename_i between
    cases reached
    exact ⟨Draft.value?_eq_none_iff.mp between, rfl, List.tail_suffix _⟩
  · cases reached
    exact ⟨rfl, rfl, List.suffix_rfl⟩
  · split at reached
    · cases reached
    · cases reached
      exact ⟨rfl, rfl, List.tail_suffix _⟩

theorem residue_of_fallsBack {before after : Machine} {top : Symbol} {below : List Symbol}
    (back : Pending.FallsBack before.pending.operands cause after.pending.operands)
    (noLiteral : after.draft.text = []) (pending : before.pending.operators = top :: below)
    (left : after.pending.operators <:+ below) : Residue cause next before after := by
  have residue : after.draft.text = [] ∧
      after.pending.operators <:+ before.pending.operators ∧
      after.pending.operators ≠ before.pending.operators ∧
      after.pending.operands <:+ before.pending.operands ∧
      (cause = .noOperand → after.pending.operands = []) := by
    refine ⟨noLiteral, ?_, ?_, back.old, back.none⟩
    · rw [pending]
      exact left.trans (List.suffix_cons top below)
    · rw [pending]
      intro same
      have shorter := left.length_le
      rw [same, List.length_cons] at shorter
      exact Nat.not_succ_le_self _ shorter
  have combination := back.combination
  cases cause with
  | divisionByZero | noOperand | notBinary _ => exact residue
  | _ => cases combination

theorem residue_makeWay {incoming : Symbol}
    (failed : (machine.makeWay incoming).result = .error cause) :
    Residue cause next machine (machine.makeWay incoming).state := by
  rcases Outcome.exists_of_andThen_error failed with
    ⟨refused, state⟩ | ⟨middle, ended, yielding, state⟩
  · rw [makeWay, state]
    exact residue_endLiteral refused
  · rcases old_of_endLiteral ended with ⟨noLiteral, same, old⟩
    rcases Pending.fallsBack_giveWayFrom old yielding with ⟨back, top, below, pending, left⟩
    rw [makeWay, state]
    exact residue_of_fallsBack back noLiteral (same.symm.trans pending) left

theorem text_of_makeWay {incoming : Symbol}
    (reached : (machine.makeWay incoming).reached = .ok middle) : middle.draft.text = [] := by
  rcases Outcome.exists_of_reached_andThen reached with ⟨ended, literal, yielded, _⟩
  rw [giveWay, reached_onPending, bind_eq_ok_iff] at yielded
  rcases yielded with ⟨pending, _, rest⟩
  cases rest
  exact (old_of_endLiteral literal).1

/-- A closing bracket fails only where no symbol is left. -/
theorem residue_closeGroup (noLiteral : machine.draft.text = [])
    (failed : machine.closeGroup.result = .error cause) :
    cause = .noOperator ∧ machine.closeGroup.state.draft.text = [] ∧
      machine.closeGroup.state.pending.operators = [] := by
  rw [closeGroup_eq] at failed ⊢
  rcases machine with ⟨settings, ⟨operands, _ | ⟨top, below⟩⟩, draft⟩
  · cases failed
    exact ⟨rfl, noLiteral, rfl⟩
  · rw [onPending, Pending.close_cons] at failed
    split at failed
    · cases failed
    · cases failed

theorem residue_readSymbol {symbol : Symbol}
    (failed : (machine.readSymbol symbol).result = .error cause) :
    Residue cause (some symbol.toChar) machine (machine.readSymbol symbol).state := by
  cases symbol with
  | openBracket =>
      rw [readSymbol, openGroup_eq] at failed ⊢
      split at failed
      · rename_i glued
        rw [if_pos glued]
        cases failed
        exact ⟨rfl, glued.2, rfl⟩
      · cases failed
  | binary operator =>
      rcases Outcome.exists_of_andThen_error failed with
        ⟨making, state⟩ | ⟨middle, _, adding, _⟩
      · rw [readSymbol, state]
        exact residue_makeWay making
      · cases adding
  | closeBracket =>
      rcases Outcome.exists_of_andThen_error failed with
        ⟨making, state⟩ | ⟨middle, made, closing, state⟩
      · rw [readSymbol, state]
        exact residue_makeWay making
      · rcases residue_closeGroup (text_of_makeWay made) closing with ⟨rfl, noLiteral, none⟩
        rw [readSymbol, state]
        exact ⟨rfl, noLiteral, none⟩

/-- What a single failing character leaves. -/
theorem residue_readNext (failed : (machine.readNext next).result = .error cause) :
    Residue cause next machine (machine.readNext next).state := by
  cases next with
  | none => exact residue_endLiteral failed
  | some character =>
      rw [readNext, readChar] at failed ⊢
      cases written : Symbol.ofChar? character with
      | none =>
          rw [written] at failed
          exact residue_extendLiteral failed
      | some symbol =>
          rw [written] at failed
          rw [Symbol.ofChar?_eq_some_iff] at written
          subst written
          exact residue_readSymbol failed

/-- A text fails at the character behind those that it gets through. -/
theorem fails_at_progress (failed : (machine.read text).result = .error cause) :
    machine.progress text ≤ text.length ∧
      ∃ before, (machine.readChars (text.take (machine.progress text))).reached = .ok before ∧
        (before.readNext text[machine.progress text]?).result = .error cause ∧
        (machine.read text).state = (before.readNext text[machine.progress text]?).state := by
  induction text generalizing machine with
  | nil => exact ⟨le_rfl, machine, rfl, failed, rfl⟩
  | cons character rest ih =>
      rw [read_cons] at failed ⊢
      rcases Outcome.exists_of_andThen_error failed with
        ⟨failing, state⟩ | ⟨middle, read, later, state⟩
      · have none : machine.progress (character :: rest) = 0 := by
          rw [progress, failing]
        rw [none, state]
        exact ⟨Nat.zero_le _, machine, rfl, failing, rfl⟩
      · rcases Outcome.reached_eq_ok_iff.mp read with ⟨succeeded, isMiddle⟩
        have further : machine.progress (character :: rest) = middle.progress rest + 1 := by
          rw [progress, succeeded, isMiddle]
        rcases ih later with ⟨bounded, before, reached, failing, laterState⟩
        rw [further, state, List.take_succ_cons, List.getElem?_cons_succ]
        refine ⟨Nat.succ_le_succ bounded, before, ?_, failing, laterState⟩
        rw [readChars_cons, Outcome.reached_andThen, read, ok_bind]
        exact reached

/-- What is left of a machine when it fails to read a text, whatever state it was in.  Behind
the characters that it gets through, the next one fails, or else the end of the text.  A literal
that is refused changes nothing; after a combination that failed there are only operands and
symbols from before the failing character, and fewer symbols; and a closing bracket may find
all symbols used up. -/
theorem residue_of_read (failed : (machine.read text).result = .error cause) :
    let index := machine.progress text
    let before := machine.readChars (text.take index)
    index ≤ text.length ∧ before.result = .ok () ∧
      (before.state.readNext text[index]?).result = .error cause ∧
      Residue cause text[index]? before.state (machine.read text).state := by
  rcases fails_at_progress failed with ⟨bounded, before, reached, failing, state⟩
  rcases Outcome.reached_eq_ok_iff.mp reached with ⟨succeeded, isBefore⟩
  dsimp only
  rw [isBefore, state]
  exact ⟨bounded, succeeded, failing, residue_readNext failing⟩

/-- The division fails at its closing bracket: the divisor and the division are gone, and all that
was pending in front of the group is still there. -/
theorem residue_of_division :
    let machine : Machine := ⟨.standard, ⟨[8.0, 5.0], [.binary .add, .openBracket]⟩, .empty 64⟩
    let text := "1*(2/0)".toList
    let before := (machine.readChars (text.take 6)).state
    let after := (machine.read text).state
    (machine.read text).result = .error .divisionByZero ∧ machine.progress text = 6 ∧
      before.pending.operands = [2.0, 1.0, 8.0, 5.0] ∧ after.pending.operands = [1.0, 8.0, 5.0] ∧
      Residue .divisionByZero (some ')') before after := by
  intro machine text before after
  have failed : (machine.read text).result = .error .divisionByZero := by decide +kernel
  have index : machine.progress text = 6 := by decide +kernel
  rcases residue_of_read failed with ⟨_, _, _, residue⟩
  rw [index] at residue
  exact ⟨failed, index, by decide +kernel, by decide +kernel, residue⟩

end Machine

end Reckon
