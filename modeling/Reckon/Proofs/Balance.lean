import Reckon.Proofs.Token

/-!
# The balance of operands and operators

To combine takes one operand and one operator off.  How many operands there are
in excess of the operators, and how many groups are open, therefore depends on
the tokens that were accepted and not on what was combined in between.  In the
end there must be one operand in excess, and no open group.
-/

namespace Reckon

/-- The operands in excess of the operators, and the number of open groups. -/
@[ext] structure Balance where
  excess : Int
  depth : Nat
  deriving DecidableEq, Repr

/-- How a token changes the balance.  A closing bracket needs an open group. -/
def Token.Shifts : Token → (before after : Balance) → Prop
  | .operand _ _, before, after => after = ⟨before.excess + 1, before.depth⟩
  | .symbol (.binary _), before, after => after = ⟨before.excess - 1, before.depth⟩
  | .symbol .openBracket, before, after => after = ⟨before.excess, before.depth + 1⟩
  | .symbol .closeBracket, before, after => before = ⟨after.excess, after.depth + 1⟩

namespace Pending

variable {pending next : Pending} {incoming : Symbol}

def balance (pending : Pending) : Balance where
  excess := pending.operands.length - pending.operators.countP (· ≠ .openBracket)
  depth := pending.operators.count .openBracket

theorem balance_addOperand (pending : Pending) (value : Float) :
    (pending.addOperand value).balance =
      ⟨pending.balance.excess + 1, pending.balance.depth⟩ := by
  ext
  · simp only [balance, addOperand, List.length_cons]
    omega
  · rfl

theorem balance_addSymbol_binary (pending : Pending) (operator : Operator) :
    (pending.addSymbol (.binary operator)).balance =
      ⟨pending.balance.excess - 1, pending.balance.depth⟩ := by
  ext
  · simp only [balance, addSymbol]
    rw [List.countP_cons_of_pos (by simp)]
    omega
  · simp [balance, addSymbol]

theorem balance_addSymbol_openBracket (pending : Pending) :
    (pending.addSymbol .openBracket).balance =
      ⟨pending.balance.excess, pending.balance.depth + 1⟩ := by
  ext
  · simp [balance, addSymbol]
  · simp [balance, addSymbol]

theorem balance_combine (operator : Operator) (left right result : Float)
    (rest : List Float) (below : List Symbol) :
    balance ⟨right :: left :: rest, .binary operator :: below⟩ =
      balance ⟨result :: rest, below⟩ := by
  have before := balance_addSymbol_binary
    ((addOperand left ⟨rest, below⟩).addOperand right) operator
  rw [balance_addOperand, balance_addOperand, Int.add_sub_cancel] at before
  exact before.trans (balance_addOperand ⟨rest, below⟩ result).symm

theorem GivesWay.balance_eq (gaveWay : GivesWay incoming pending next) :
    pending.balance = next.balance := by
  induction gaveWay with
  | stop pending => rfl
  | combine _ _ _ ih => exact (balance_combine ..).trans ih

theorem balance_of_conclude {value : Float}
    (concluded : (pending.conclude .eager).result = .ok value) :
    pending.balance = ⟨1, 0⟩ :=
  (givesWay_of_conclude concluded).balance_eq

/-- Only an opening bracket waits for a closing one. -/
theorem eq_openBracket_of_waitsFor {symbol : Symbol}
    (waits : symbol.waitsFor .closeBracket = true) : symbol = .openBracket := by
  simpa [Symbol.waitsFor, Symbol.rank] using waits

theorem shifts_accept {token : Token}
    (accepted : (pending.accept .eager token).reached = .ok next) :
    token.Shifts pending.balance next.balance := by
  match token with
  | .operand literal value =>
      cases accepted
      exact balance_addOperand pending value
  | .symbol .openBracket =>
      cases accepted
      exact balance_addSymbol_openBracket pending
  | .symbol (.binary operator) =>
      rw [accept, Outcome.reached_andThen, bind_eq_ok_iff] at accepted
      rcases accepted with ⟨middle, gaveWay, added⟩
      cases added
      rw [(reached_giveWay_eq_ok_iff.mp gaveWay).1.balance_eq]
      exact balance_addSymbol_binary middle operator
  | .symbol .closeBracket =>
      rw [accept, Outcome.reached_andThen, bind_eq_ok_iff] at accepted
      rcases accepted with ⟨middle, gaveWay, closed⟩
      rcases reached_giveWay_eq_ok_iff.mp gaveWay with ⟨gaveWay, bottom⟩
      rw [gaveWay.balance_eq]
      rw [reached_close] at closed
      rcases middle with ⟨operands, _ | ⟨top, below⟩⟩
      · cases closed
      · cases closed
        cases eq_openBracket_of_waitsFor (bottom top rfl)
        exact balance_addSymbol_openBracket ⟨operands, below⟩

end Pending

end Reckon
