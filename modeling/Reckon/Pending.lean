import Reckon.Outcome
import Reckon.Settings

/-!
# Pending operands and operators

Operands wait on one stack and symbols on another; the top of a stack is the
head of its list.  *Combining* replaces the two topmost operands by their
result.  An incoming symbol makes the pending ones that must not wait for it
*give way*, and at the end of a statement all that is left is *concluded* into
one value.
-/

namespace Reckon

/-- The operand stack and the operator stack, topmost entries first. -/
@[ext] structure Pending where
  operands : List Float
  operators : List Symbol
  deriving DecidableEq, Repr

namespace Pending

/-- Nothing pending. -/
def empty : Pending :=
  ⟨[], []⟩

/-- Puts a value on top of the operands. -/
def addOperand (value : Float) (pending : Pending) : Pending :=
  { pending with operands := value :: pending.operands }

/-- Puts a symbol on top of the operators. -/
def addSymbol (symbol : Symbol) (pending : Pending) : Pending :=
  { pending with operators := symbol :: pending.operators }

/-- Takes the topmost symbol off. -/
def takeSymbol (pending : Pending) : Outcome Pending Symbol :=
  match pending.operators with
  | top :: below => .done top { pending with operators := below }
  | [] => .fail .noOperator pending

/-- Replaces the two topmost operands by the result of a symbol.  Operands that
were taken off before a failure do not come back. -/
def combine (symbol : Symbol) (pending : Pending) : Outcome Pending Unit :=
  match pending.operands with
  | right :: left :: rest =>
      let below : Pending := { pending with operands := rest }
      match symbol.apply left right with
      | .ok result =>
          .logged (.combined left symbol right result) (below.addOperand result)
      | .error cause => .fail cause below
  | _ => .fail .noOperand { pending with operands := [] }

/-- Combines pending symbols, topmost first, up to the first one that waits for
the incoming symbol; single reduction stops after one. -/
def giveWayFrom (reduction : Reduction) (incoming : Symbol) :
    (symbols : List Symbol) → (operands : List Float) → Outcome Pending Unit
  | [], operands => .done () ⟨operands, []⟩
  | top :: below, operands =>
      if top.waitsFor incoming then .done () ⟨operands, top :: below⟩
      else
        (combine top ⟨operands, below⟩).andThen fun _ pending =>
          match reduction with
          | .single => .done () pending
          | .eager => giveWayFrom reduction incoming below pending.operands

/-- Combines the pending symbols that must not wait for an incoming one. -/
def giveWay (reduction : Reduction) (incoming : Symbol) (pending : Pending) :
    Outcome Pending Unit :=
  giveWayFrom reduction incoming pending.operators pending.operands

/-- Combines every pending symbol, topmost first. -/
def combineAll : (symbols : List Symbol) → (operands : List Float) →
    Outcome Pending Unit
  | [], operands => .done () ⟨operands, []⟩
  | top :: below, operands =>
      (combine top ⟨operands, below⟩).andThen fun _ pending =>
        combineAll below pending.operands

/-- Combines pending symbols, topmost first, until there is exactly one
operand. -/
def combineToOne : (symbols : List Symbol) → (operands : List Float) →
    Outcome Pending Unit
  | symbols, [value] => .done () ⟨[value], symbols⟩
  | [], operands => .fail .noOperator ⟨operands, []⟩
  | top :: below, operands =>
      (combine top ⟨operands, below⟩).andThen fun _ pending =>
        combineToOne below pending.operands

/-- Takes the value off that is the only operand. -/
def takeOnly (pending : Pending) : Outcome Pending Float :=
  match pending.operands with
  | [] => .fail .noOperand pending
  | [value] => .done value { pending with operands := [] }
  | _ => .fail .noOperator pending

/-- Combines all that is pending into one value, from the right.  Eager
reduction uses up every symbol; single reduction stops as soon as one operand is
left and may leave symbols behind. -/
def conclude (reduction : Reduction) (pending : Pending) : Outcome Pending Float :=
  let combined :=
    match reduction with
    | .eager => combineAll pending.operators pending.operands
    | .single => combineToOne pending.operators pending.operands
  combined.andThen fun _ rest => rest.takeOnly

/-- Combining leaves the operator stack alone, also when it fails. -/
@[simp] theorem operators_combine (symbol : Symbol) (pending : Pending) :
    (combine symbol pending).state.operators = pending.operators := by
  rw [combine]
  split
  · dsimp only
    split <;> rfl
  · rfl

theorem combine_eq_logged {symbol : Symbol} {left right result : Float}
    {operands : List Float} {operators : List Symbol}
    (applied : symbol.apply left right = .ok result) :
    combine symbol ⟨right :: left :: operands, operators⟩ =
      .logged (.combined left symbol right result) ⟨result :: operands, operators⟩ := by
  simp [combine, applied, addOperand]

/-- Nothing gives way to an opening bracket. -/
@[simp] theorem giveWay_openBracket (reduction : Reduction) (pending : Pending) :
    giveWay reduction .openBracket pending = .done () pending := by
  rcases pending with ⟨operands, _ | ⟨top, below⟩⟩
  · rfl
  · simp [giveWay, giveWayFrom]

end Pending

end Reckon
