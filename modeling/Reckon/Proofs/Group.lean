import Reckon.Proofs.Admissible

/-!
# Groups

Under eager reduction a bracketed group is a frame: nothing inside it touches
what was pending in front of it, and its closing bracket combines exactly what
the end of a statement would combine.  So the value of a group is the value that
its inside has as a text of its own.
-/

namespace Reckon

namespace Pending

variable {frame pending next : Pending} {incoming : Symbol}

/-- What is pending within a group, on top of what was pending in front of it. -/
def enclose (frame pending : Pending) : Pending where
  operands := pending.operands ++ frame.operands
  operators := pending.operators ++ .openBracket :: frame.operators

theorem GivesWay.enclose (gaveWay : GivesWay incoming pending next) (frame : Pending) :
    GivesWay incoming (frame.enclose pending) (frame.enclose next) := by
  induction gaveWay with
  | stop pending => exact .stop _
  | combine yields applied _ ih => exact .combine yields applied ih

/-- The opening bracket stops the symbols that give way. -/
theorem head?_operators_enclose {property : Symbol → Prop} (opening : property .openBracket)
    (inside : ∀ top ∈ pending.operators.head?, property top) :
    ∀ top ∈ (frame.enclose pending).operators.head?, property top := by
  rcases pending with ⟨operands, _ | ⟨top, below⟩⟩
  · intro top isTop
    cases isTop
    exact opening
  · exact inside

theorem reached_giveWay_enclose
    (gaveWay : (pending.giveWay .eager incoming).reached = .ok next) :
    ((frame.enclose pending).giveWay .eager incoming).reached =
      .ok (frame.enclose next) := by
  rw [reached_giveWay_eq_ok_iff] at gaveWay ⊢
  exact ⟨gaveWay.1.enclose frame, head?_operators_enclose rfl gaveWay.2⟩

theorem reached_close_enclose (closed : pending.close.reached = .ok next) :
    (frame.enclose pending).close.reached = .ok (frame.enclose next) := by
  rw [reached_close] at closed ⊢
  rcases pending with ⟨operands, _ | ⟨top, below⟩⟩
  · cases closed
  · cases closed
    rfl

theorem reached_accept_enclose {token : Token}
    (accepted : (pending.accept .eager token).reached = .ok next) :
    ((frame.enclose pending).accept .eager token).reached = .ok (frame.enclose next) := by
  match token with
  | .operand literal value =>
      cases accepted
      rfl
  | .symbol .openBracket =>
      cases accepted
      rfl
  | .symbol .closeBracket =>
      rw [accept, Outcome.reached_andThen, bind_eq_ok_iff] at accepted
      rcases accepted with ⟨middle, gaveWay, closed⟩
      rw [accept, Outcome.reached_andThen, reached_giveWay_enclose gaveWay, ok_bind]
      exact reached_close_enclose closed
  | .symbol (.binary operator) =>
      rw [accept, Outcome.reached_andThen, bind_eq_ok_iff] at accepted
      rcases accepted with ⟨middle, gaveWay, added⟩
      rw [accept, Outcome.reached_andThen, reached_giveWay_enclose gaveWay, ok_bind]
      cases added
      rfl

theorem reached_acceptAll_enclose {tokens : List Token}
    (accepted : (pending.acceptAll .eager tokens).reached = .ok next) :
    ((frame.enclose pending).acceptAll .eager tokens).reached =
      .ok (frame.enclose next) := by
  induction tokens generalizing pending with
  | nil =>
      cases accepted
      rfl
  | cons token rest ih =>
      rw [reached_acceptAll_cons, bind_eq_ok_iff] at accepted
      rcases accepted with ⟨middle, first, accepted⟩
      rw [reached_acceptAll_cons, reached_accept_enclose first, ok_bind]
      exact ih accepted

/-- A closing bracket combines what the end of a statement would combine. -/
theorem reached_accept_closeBracket_enclose {value : Float}
    (concluded : (pending.conclude .eager).result = .ok value) :
    ((frame.enclose pending).accept .eager (.symbol .closeBracket)).reached =
      .ok (frame.addOperand value) := by
  have gaveWay : ((frame.enclose pending).giveWay .eager .closeBracket).reached =
      .ok (frame.enclose ⟨[value], []⟩) := by
    rw [reached_giveWay_eq_ok_iff]
    exact ⟨(givesWay_of_conclude concluded).enclose frame,
      head?_operators_enclose rfl (by simp)⟩
  rw [accept, Outcome.reached_andThen, gaveWay, ok_bind, reached_close]
  rfl

theorem result_conclude_operation (operator : Operator) (first second : Float) :
    (conclude .eager ⟨[second, first], [.binary operator]⟩).result =
      operator.apply first second := by
  rw [result_conclude_eager, reached_combineAll_cons, reached_combine]
  simp only [bind_assoc, ok_bind]
  exact bind_ok _

end Pending

namespace Scan

variable {tolerance : Tolerance} {limit : Nat} {text : List Char} {value : Float}

/-- On top of anything pending, a group adds the value of its inside. -/
theorem carriedOut_group {inside : Pending}
    (carried : (ofText tolerance limit [] text).carriedOut .eager .empty = .ok inside)
    (concluded : (inside.conclude .eager).result = .ok value) (frame : Pending) :
    (ofText tolerance limit [] ('(' :: (text ++ [')']))).carriedOut .eager frame =
      .ok (frame.addOperand value) := by
  rw [carriedOut_eq_ok_iff] at carried
  rcases carried with ⟨noRefusal, accepted⟩
  have framed : (ofText tolerance limit [] text).carriedOut .eager
      (frame.addSymbol .openBracket) = .ok (frame.enclose inside) :=
    carriedOut_eq_ok_iff.mpr ⟨noRefusal, Pending.reached_acceptAll_enclose accepted⟩
  rw [ofText_group, carriedOut_followedBy, carriedOut_single, Pending.accept,
    Outcome.reached_done, ok_bind, carriedOut_followedBy, framed, ok_bind,
    carriedOut_single]
  exact Pending.reached_accept_closeBracket_enclose concluded

end Scan

namespace Machine

/-- A machine between literals reads a group as its value, if the inside has one
for a machine that has read nothing. -/
theorem reached_read_group {settings : Settings} (eager : settings.reduction = .eager)
    {capacity : Nat} {fits : capacity ≤ Draft.largestCapacity}
    {text : List Char} {value : Float}
    (inside : (((Machine.mk settings .empty (.empty capacity fits)).read text).andThen
      fun _ machine => machine.conclude).result = .ok value) (frame : Pending) :
    ((Machine.mk settings frame (.empty capacity fits)).read
        ('(' :: (text ++ [')']))).reached =
      .ok ⟨settings, frame.addOperand value, .empty capacity fits⟩ := by
  rw [result_read_conclude, bind_eq_ok_iff] at inside
  rcases inside with ⟨pending, carried, concluded⟩
  simp only [eager] at carried concluded
  have group := Scan.carriedOut_group carried concluded frame
  rw [reached_read, eager]
  dsimp only [Draft.text_empty] at group ⊢
  rw [group]
  rfl

end Machine

namespace Statement

variable {settings : Settings} {left right : String} {first second : Float}

/-- The statement that joins two others, in brackets, by an operator. -/
def joined (left : String) (operator : Operator) (right : String) : String :=
  "(" ++ left ++ ")" ++ String.singleton operator.toChar ++ "(" ++ right ++ ")"

theorem strip_joined (left : String) (operator : Operator) (right : String) :
    strip (joined left operator right) =
      ('(' :: (strip left ++ [')'])) ++
        operator.toChar :: ('(' :: (strip right ++ [')'])) := by
  have solid : Text.isBlank operator.toChar = false :=
    isBlank_eq_false_of_isNative (isNative_toChar operator)
  have opening : Text.isBlank '(' = false := rfl
  have closing : Text.isBlank ')' = false := rfl
  simp [joined, strip, solid, opening, closing]

theorem value_joined (eager : settings.reduction = .eager)
    (leftValue : value settings left = .ok first)
    (rightValue : value settings right = .ok second) (operator : Operator) :
    value settings (joined left operator right) = operator.apply first second := by
  rw [value_eq_ok_iff, eager] at leftValue rightValue
  rcases leftValue with ⟨leftAdmissible, leftPending, leftCarried, leftConcluded⟩
  rcases rightValue with ⟨rightAdmissible, rightPending, rightCarried, rightConcluded⟩
  have admissible : Admissible settings.tolerance (strip (joined left operator right)) := by
    rw [strip_joined]
    exact leftAdmissible.group.operation rightAdmissible.group operator
  have added : ((Pending.empty.addOperand first).accept .eager
      (.symbol (.binary operator))).reached = .ok ⟨[first], [.binary operator]⟩ := rfl
  rw [value_eq, prepare_eq_ok_iff.mpr ⟨rfl, admissible⟩, ok_bind, strip_joined, eager,
    Scan.ofText_append_operator, Scan.carriedOut_followedBy,
    Scan.carriedOut_group leftCarried leftConcluded, ok_bind,
    Scan.carriedOut_followedBy, Scan.carriedOut_single, added, ok_bind,
    Scan.carriedOut_group rightCarried rightConcluded, ok_bind]
  exact Pending.result_conclude_operation operator first second

/-- A group is a frame.  Whatever is pending in front of it, a machine between
literals that reads it adds the value of its inside and changes nothing else; so
an operator between two statements in brackets has their values as operands. -/
theorem group_is_frame (eager : settings.reduction = .eager) :
    (∀ capacity (fits : capacity ≤ Draft.largestCapacity) operands operators text value,
      (((Machine.mk settings .empty (.empty capacity fits)).read text).andThen
          fun _ machine => machine.conclude).result = .ok value →
        let group := (Machine.mk settings ⟨operands, operators⟩ (.empty capacity fits)).read
          ('(' :: (text ++ [')']))
        group.result = .ok () ∧
          group.state = ⟨settings, ⟨value :: operands, operators⟩, .empty capacity fits⟩) ∧
    ∀ left right first second operator,
      value settings left = .ok first → value settings right = .ok second →
        value settings (joined left operator right) = operator.apply first second := by
  constructor
  · intro capacity fits operands operators text value inside
    exact Outcome.reached_eq_ok_iff.mp
      (Machine.reached_read_group eager inside ⟨operands, operators⟩)
  · intro left right first second operator leftValue rightValue
    exact value_joined eager leftValue rightValue operator

theorem sum_is_frame :
    ((Machine.mk .standard ⟨[7.0], [.binary .multiply]⟩ (.empty 1)).read
        "(1+2)".toList).state =
      ⟨.standard, ⟨[3.0, 7.0], [.binary .multiply]⟩, .empty 1⟩ ∧
    value .standard (joined "1 + 2" .divide "0") = .error .divisionByZero :=
  ⟨((group_is_frame rfl).1 1 (by decide) [7.0] [.binary .multiply] "1+2".toList 3.0
      (by decide +kernel)).2,
    ((group_is_frame rfl).2 "1 + 2" "0" 3.0 0.0 .divide (by decide +kernel)
      (by decide +kernel)).trans (by decide +kernel)⟩

end Statement

end Reckon
