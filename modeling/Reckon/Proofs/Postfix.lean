import Reckon.Proofs.Token

/-!
# Evaluation by way of postfix notation

The classic way to evaluate a statement has three phases: a text becomes tokens,
the tokens become instructions in postfix order, and the instructions run on a
stack of operands.  Eager reduction carries out every instruction in the moment
in which the conversion would write it, and so gives the same values, as far as
there are drafts for the literals.
-/

namespace Reckon

/-- A step of a calculator with a stack of operands. -/
inductive Instruction where
  | push (value : Float)
  | apply (symbol : Symbol)
  deriving DecidableEq, Repr

namespace Instruction

/-- Runs instructions on a stack, topmost operand first.  There is no result if
operands are missing or an operator has no result. -/
def run : List Instruction → (operands : List Float) → Option (List Float)
  | [], operands => some operands
  | push value :: rest, operands => run rest (value :: operands)
  | apply symbol :: rest, right :: left :: operands =>
      match symbol.apply left right with
      | .ok result => run rest (result :: operands)
      | .error _ => none
  | apply _ :: _, _ => none

/-- Whether an operator is written before an incoming one is put on the stack:
it stands above the nearest opening bracket and its priority is not smaller. -/
def goesBefore (incoming : Operator) (waiting : Symbol) : Bool :=
  waiting ≠ .openBracket && (Symbol.binary incoming).rank ≤ waiting.rank

/-- Converts tokens to postfix order.  Operators wait on a stack, topmost first.
A closing bracket needs an opening one on the stack, and none may be left at the
end. -/
def ofTokens : (waiting : List Symbol) → List Token → Option (List Instruction)
  | waiting, [] =>
      if .openBracket ∈ waiting then none else some (waiting.map apply)
  | waiting, .operand _ value :: rest =>
      (ofTokens waiting rest).map fun later => push value :: later
  | waiting, .symbol .openBracket :: rest => ofTokens (.openBracket :: waiting) rest
  | waiting, .symbol .closeBracket :: rest =>
      match waiting.dropWhile (· ≠ .openBracket) with
      | [] => none
      | _ :: below =>
          (ofTokens below rest).map fun later =>
            (waiting.takeWhile (· ≠ .openBracket)).map apply ++ later
  | waiting, .symbol (.binary incoming) :: rest =>
      (ofTokens (.binary incoming :: waiting.dropWhile (goesBefore incoming)) rest).map
        fun later => (waiting.takeWhile (goesBefore incoming)).map apply ++ later

/-- The operand of a stack that holds exactly one. -/
def only? : (operands : List Float) → Option Float
  | [value] => some value
  | _ => none

/-- The value of a text in three phases, if all of them succeed and exactly one
operand is left. -/
def value? (options : Options) (text : List Char) : Option Float :=
  let scan := Scan.ofText options.tolerance options.literalLimit [] text
  if scan.refusal.isSome then none
  else
    (ofTokens [] scan.tokens).bind fun instructions =>
      (run instructions []).bind only?

theorem run_append (front back : List Instruction) (operands : List Float) :
    run (front ++ back) operands = (run front operands).bind (run back) := by
  induction front generalizing operands with
  | nil => rfl
  | cons instruction front ih =>
      cases instruction with
      | push value => exact ih (value :: operands)
      | apply symbol =>
          match operands with
          | [] | [_] => rfl
          | right :: left :: operands =>
              simp only [List.cons_append, run]
              cases symbol.apply left right with
              | ok result => exact ih (result :: operands)
              | error cause => rfl

/-- To apply a symbol is to combine the two topmost operands. -/
theorem run_apply_cons (symbol : Symbol) (rest : List Instruction)
    (operands : List Float) (below : List Symbol) :
    run (apply symbol :: rest) operands =
      (Pending.combine symbol ⟨operands, below⟩).reached.toOption.bind fun next =>
        run rest next.operands := by
  match operands with
  | [] | [_] => rfl
  | right :: left :: operands =>
      rw [Pending.reached_combine, run]
      cases symbol.apply left right with
      | ok result => rfl
      | error cause => rfl

/-- Brackets among the operators have no result. -/
theorem run_map_apply_of_mem {operators : List Symbol}
    (opening : .openBracket ∈ operators) (operands : List Float) :
    run (operators.map apply) operands = none := by
  induction operators generalizing operands with
  | nil => cases opening
  | cons top below ih =>
      rw [List.map_cons]
      match operands with
      | [] | [_] => rfl
      | right :: left :: operands =>
          rw [run]
          cases applied : top.apply left right with
          | error cause => rfl
          | ok result =>
              apply ih
              apply List.mem_of_ne_of_mem _ opening
              intro same
              subst same
              cases applied

theorem waitsFor_binary_eq (incoming : Operator) (waiting : Symbol) :
    (!waiting.waitsFor (.binary incoming)) = goesBefore incoming waiting := by
  cases waiting with
  | binary pending => cases pending <;> cases incoming <;> rfl
  | openBracket => rfl
  | closeBracket => cases incoming <;> rfl

theorem waitsFor_closeBracket_eq (waiting : Symbol) :
    (!waiting.waitsFor .closeBracket) = decide (waiting ≠ .openBracket) := by
  simp [Symbol.waitsFor, Symbol.rank]

end Instruction

namespace Pending

variable {incoming : Symbol} {operands : List Float} {operators : List Symbol}

open Instruction

theorem toOption_giveWayFrom :
    (giveWayFrom .eager incoming operators operands).reached.toOption =
      (run ((operators.takeWhile (!·.waitsFor incoming)).map apply) operands).map
        fun left => ⟨left, operators.dropWhile (!·.waitsFor incoming)⟩ := by
  induction operators generalizing operands with
  | nil => rfl
  | cons top below ih =>
      cases waits : top.waitsFor incoming with
      | true =>
          rw [giveWayFrom_of_waitsFor waits, List.takeWhile_cons,
            List.dropWhile_cons]
          simp [waits, run]
      | false =>
          rw [reached_giveWayFrom_eager waits, toOption_bind,
            List.takeWhile_cons_of_pos (by simp [waits]),
            List.dropWhile_cons_of_pos (by simp [waits]), List.map_cons,
            run_apply_cons _ _ _ below, Option.map_bind]
          exact congrArg _ (funext fun next => ih)

theorem toOption_combineAll :
    (combineAll operators operands).reached.toOption =
      (run (operators.map apply) operands).map fun left => ⟨left, []⟩ := by
  induction operators generalizing operands with
  | nil => rfl
  | cons top below ih =>
      rw [reached_combineAll_cons, toOption_bind, List.map_cons,
        run_apply_cons _ _ _ below, Option.map_bind]
      exact congrArg _ (funext fun next => ih)

theorem toOption_takeOnly (pending : Pending) :
    pending.takeOnly.result.toOption = only? pending.operands := by
  rcases pending with ⟨_ | ⟨value, _ | ⟨left, rest⟩⟩, operators⟩ <;> rfl

theorem toOption_conclude :
    (conclude .eager ⟨operands, operators⟩).result.toOption =
      (run (operators.map apply) operands).bind only? := by
  rw [result_conclude_eager, toOption_bind, toOption_combineAll, Option.bind_map]
  exact congrArg _ (funext fun left => toOption_takeOnly _)

theorem toOption_giveWay_binary (operator : Operator) :
    (giveWay .eager (.binary operator) ⟨operands, operators⟩).reached.toOption =
      (run ((operators.takeWhile (goesBefore operator)).map apply) operands).map
        fun left => ⟨left, operators.dropWhile (goesBefore operator)⟩ := by
  simp only [giveWay, toOption_giveWayFrom, waitsFor_binary_eq]

theorem toOption_giveWay_closeBracket :
    (giveWay .eager .closeBracket ⟨operands, operators⟩).reached.toOption =
      (run ((operators.takeWhile (· ≠ .openBracket)).map apply) operands).map
        fun left => ⟨left, operators.dropWhile (· ≠ .openBracket)⟩ := by
  simp only [giveWay, toOption_giveWayFrom, waitsFor_closeBracket_eq]

/-- Accepting tokens and concluding gives what the instructions of the tokens
give, on any stacks. -/
theorem toOption_acceptAll_conclude (tokens : List Token) :
    ((acceptAll .eager tokens ⟨operands, operators⟩).reached.bind fun pending =>
        (pending.conclude .eager).result).toOption =
      (ofTokens operators tokens).bind fun instructions =>
        (run instructions operands).bind only? := by
  induction tokens generalizing operands operators with
  | nil =>
      rw [reached_acceptAll_nil, ok_bind, toOption_conclude, ofTokens]
      split
      · rename_i opening
        rw [run_map_apply_of_mem opening]
        rfl
      · rfl
  | cons token rest ih =>
      rw [reached_acceptAll_cons, bind_assoc]
      match token with
      | .operand literal value =>
          rw [ofTokens, Option.bind_map]
          exact ih
      | .symbol .openBracket => exact ih
      | .symbol (.binary operator) =>
          simp only [accept, Outcome.reached_andThen, bind_assoc,
            Outcome.reached_done, ok_bind, addSymbol, ofTokens]
          rw [toOption_bind, toOption_giveWay_binary]
          simp only [Option.bind_map, Function.comp_def, ih, run_append]
          rw [Option.bind_comm]
          simp only [Option.bind_assoc]
      | .symbol .closeBracket =>
          simp only [accept, Outcome.reached_andThen, bind_assoc, reached_close,
            ofTokens]
          rw [toOption_bind, toOption_giveWay_closeBracket]
          simp only [Option.bind_map, Function.comp_def]
          cases operators.dropWhile (· ≠ .openBracket) with
          | nil =>
              simp only [error_bind, toOption_error, Option.bind_fun_none]
              rfl
          | cons top below =>
              simp only [ok_bind, ih, Option.bind_map, Function.comp_def, run_append]
              rw [Option.bind_comm]
              simp only [Option.bind_assoc]

end Pending

namespace Statement

open Instruction

theorem value_eq_ok_iff_value? {settings : Settings} (eager : settings.reduction = .eager)
    {statement : String} {text : List Char}
    (prepared : prepare settings.tolerance statement = .ok text) (result : Float) :
    value settings statement = .ok result ↔
      value? settings.toOptions text = some result := by
  rw [← toOption_eq_some_iff, value_eq, prepared, ok_bind, eager, Instruction.value?]
  rcases Scan.ofText settings.tolerance settings.literalLimit [] text with
    ⟨tokens, _ | cause⟩
  · simp only [Scan.carriedOut, bind_ok, Option.isSome_none, Bool.false_eq_true,
      if_false]
    rw [Pending.empty, Pending.toOption_acceptAll_conclude]
  · simp [Scan.carriedOut, bind_assoc]

/-- Under every limit for which there is a draft, the evaluation of a prepared
statement comes to an end, and eager reduction and the three phases give the
statement the same value and both give none where one of them does.  Under a
larger limit the evaluation breaks off, whatever the phases give. -/
theorem valueWith?_eq_ok_iff_phases {options : Options}
    (eager : options.reduction = .eager) {statement : String} {text : List Char}
    (prepared : prepare options.tolerance statement = .ok text) :
    (options.literalLimit ≤ Draft.largestCapacity →
      ∃ outcome, valueWith? options statement = some outcome ∧
        ∀ result, outcome = .ok result ↔ value? options text = some result) ∧
    (Draft.largestCapacity < options.literalLimit →
      valueWith? options statement = none) := by
  constructor
  · intro limit_le
    let settings : Settings := { options with limit_le }
    exact ⟨value settings statement, valueWith?_toOptions settings statement,
      @value_eq_ok_iff_value? settings eager _ _ prepared⟩
  · intro exceeded
    exact valueWith?_eq_none_iff.mpr ⟨exceeded, text, prepared⟩

theorem difference_eq_ok_iff_phases :
    prepare .strict "1 - 2*(3+4)" = .ok "1-2*(3+4)".toList ∧
      value? Settings.standard.toOptions "1-2*(3+4)".toList = some (-13.0) ∧
      valueWith? Settings.standard.toOptions "1 - 2*(3+4)" = some (.ok (-13.0)) := by
  have prepared : prepare .strict "1 - 2*(3+4)" = .ok "1-2*(3+4)".toList := rfl
  have phases : value? Settings.standard.toOptions "1-2*(3+4)".toList = some (-13.0) := by
    decide +kernel
  rcases (@valueWith?_eq_ok_iff_phases Settings.standard.toOptions rfl _ _ prepared).1
    Settings.standard.limit_le with ⟨outcome, ends, agrees⟩
  refine ⟨prepared, phases, ?_⟩
  rw [ends, (agrees (-13.0)).mpr phases]

/-- The phases give the numeral a value under the largest limit of 64 bits, but no
draft has room for so many characters. -/
theorem exists_phases_without_value :
    let options : Options :=
      { Settings.standard.toOptions with literalLimit := 18446744073709551615 }
    options.reduction = .eager ∧ prepare options.tolerance "1" = .ok ['1'] ∧
      value? options ['1'] = some 1.0 ∧ valueWith? options "1" = none := by
  intro options
  exact ⟨rfl, rfl, by decide +kernel, by decide +kernel⟩

end Statement

end Reckon
