import Reckon.Proofs.Admissible

/-!
# Precedence

Eager reduction evaluates phrases.  What is read of a phrase is never complete
on the stacks: operators may still be pending when the next symbol arrives.
The theorem to be proved by induction therefore speaks of whatever comes next,
as long as that combines the operators of the phrase before anything else.
-/

namespace Reckon

namespace Phrase

variable {level : Level}

/-- The tokens of a phrase. -/
def tokens : {level : Level} → Phrase level → List Token
  | _, literal text plain => [.operand text (literalValue text plain)]
  | _, group inner =>
      .symbol .openBracket :: (inner.tokens ++ [.symbol .closeBracket])
  | _, factor only => only.tokens
  | _, product left operator _ right =>
      left.tokens ++ .symbol (.binary operator) :: right.tokens
  | _, term only => only.tokens
  | _, sum left operator _ right =>
      left.tokens ++ .symbol (.binary operator) :: right.tokens

end Phrase

namespace Scan

variable {tolerance : Tolerance} {limit : Nat}

theorem ofChar?_eq_none_of_plain {character : Char}
    (plain : character.isDigit ∨ character = '.') :
    Symbol.ofChar? character = none := by
  rw [Option.eq_none_iff_forall_ne_some]
  intro symbol written
  rw [Symbol.ofChar?_eq_some_iff] at written
  subst written
  cases symbol with
  | binary operator => cases operator <;> simp [Symbol.toChar, Operator.toChar] at plain
  | openBracket => simp [Symbol.toChar] at plain
  | closeBracket => simp [Symbol.toChar] at plain

/-- The scan of the text of a phrase gives its tokens. -/
theorem ofText_phrase {level : Level} (phrase : Phrase level)
    (short : ∀ literal ∈ phrase.literals, literal.length ≤ limit) :
    ofText tolerance limit [] phrase.text = ⟨phrase.tokens, none⟩ := by
  induction phrase with
  | literal text plain =>
      have noSymbol : ∀ character ∈ text, Symbol.ofChar? character = none := by
        intro character member
        exact ofChar?_eq_none_of_plain (plain.alphabet character member)
      have room : text.length ≤ limit := short text (by simp [Phrase.literals])
      rw [Phrase.text, ofText_literal noSymbol (by simpa using room)]
      simp only [List.nil_append, ofLiteral, if_neg plain.ne_nil,
        Phrase.read?_eq_literalValue plain]
      rfl
  | group inner ih =>
      rw [Phrase.text, ofText_group, ih short]
      rfl
  | factor only ih => exact ih short
  | term only ih => exact ih short
  | product left operator _ right leftIH rightIH
  | sum left operator _ right leftIH rightIH =>
      rw [Phrase.text, ofText_append_operator, leftIH, rightIH]
      · rfl
      · intro literal member
        exact short literal (List.mem_append_right _ member)
      · intro literal member
        exact short literal (List.mem_append_left _ member)

end Scan

/-- The rank of the operators of a syntactic category; factors have none. -/
def Level.rank : Level → Nat
  | expression => 1
  | term => 2
  | factor => 3

namespace Pending

variable {Result Final : Type} {level tighter : Level}

/-- What comes next combines pending operators of a level, and of tighter
levels, before anything else. -/
def Combines (level : Level) (next : Pending → Except Rejection Result) : Prop :=
  ∀ (operator : Operator) (left right : Float) (operands : List Float)
    (operators : List Symbol), level.rank ≤ (Symbol.binary operator).rank →
      next ⟨right :: left :: operands, .binary operator :: operators⟩ =
        (operator.apply left right).bind fun result =>
          next ⟨result :: operands, operators⟩

/-- Operators of a level, and of tighter levels, are put on top of the pending
symbols. -/
def Holds (level : Level) (operators : List Symbol) : Prop :=
  ∀ top ∈ operators.head?, ∀ operator : Operator,
    level.rank ≤ (Symbol.binary operator).rank →
      top.waitsFor (.binary operator) = true

/-- Accepting the tokens before what comes next amounts to adding the value. -/
def Evaluates (level : Level) (tokens : List Token)
    (value : Except Rejection Float) : Prop :=
  ∀ {Result : Type} {next : Pending → Except Rejection Result},
    Combines level next → ∀ {operators : List Symbol}, Holds level operators →
      ∀ operands : List Float,
        ((acceptAll .eager tokens ⟨operands, operators⟩).reached.bind next) =
          value.bind fun result => next ⟨result :: operands, operators⟩

theorem Combines.bind {next : Pending → Except Rejection Result}
    (combines : Combines level next) (last : Result → Except Rejection Final) :
    Combines level fun pending => (next pending).bind last := by
  intro operator left right operands operators tight
  dsimp only
  rw [combines operator left right operands operators tight, bind_assoc]

theorem Combines.mono {next : Pending → Except Rejection Result}
    (combines : Combines level next) (ranked : level.rank ≤ tighter.rank) :
    Combines tighter next := by
  intro operator left right operands operators tight
  exact combines operator left right operands operators (ranked.trans tight)

theorem Holds.mono {operators : List Symbol} (holds : Holds level operators)
    (ranked : level.rank ≤ tighter.rank) : Holds tighter operators := by
  intro top first operator tight
  exact holds top first operator (ranked.trans tight)

/-- Operators of a tighter level are put on top of an operator. -/
theorem holds_binary {operator : Operator}
    (looser : (Symbol.binary operator).rank < level.rank) (below : List Symbol) :
    Holds level (.binary operator :: below) := by
  intro top isTop other tight
  cases isTop
  simp only [Symbol.waitsFor, Bool.or_eq_true, decide_eq_true_eq]
  right
  omega

theorem holds_openBracket (below : List Symbol) : Holds level (.openBracket :: below) := by
  intro top isTop operator _
  cases isTop
  rfl

theorem combines_giveWay {incoming : Symbol} (loose : incoming.rank ≤ level.rank) :
    Combines level fun pending => (pending.giveWay .eager incoming).reached := by
  intro operator left right operands operators tight
  have yields : (Symbol.binary operator).waitsFor incoming = false := by
    simp [Symbol.waitsFor, loose.trans tight]
  simp only [giveWay]
  rw [reached_giveWayFrom_eager yields, reached_combine, bind_assoc]
  rfl

theorem combines_accept {symbol : Symbol} (ends : symbol ≠ .openBracket)
    (loose : symbol.rank ≤ level.rank) :
    Combines level fun pending => (pending.accept .eager (.symbol symbol)).reached := by
  have combines := combines_giveWay loose
  cases symbol with
  | openBracket => exact (ends rfl).elim
  | binary operator =>
      simp only [accept, Outcome.reached_andThen]
      exact combines.bind _
  | closeBracket =>
      simp only [accept, Outcome.reached_andThen]
      exact combines.bind _

theorem combines_conclude :
    Combines level fun pending => (pending.conclude .eager).result := by
  intro operator left right operands operators _
  simp only [result_conclude_eager]
  rw [reached_combineAll_cons, reached_combine, bind_assoc, bind_assoc]
  rfl

theorem Evaluates.loosen {tokens : List Token} {value : Except Rejection Float}
    (evaluates : Evaluates tighter tokens value)
    (ranked : level.rank ≤ tighter.rank) : Evaluates level tokens value := by
  intro Result next combines operators holds operands
  exact evaluates (combines.mono ranked) (holds.mono ranked) operands

theorem Evaluates.operation {left right : List Token}
    {leftValue rightValue : Except Rejection Float} {operator : Operator}
    (evaluatesLeft : Evaluates level left leftValue)
    (evaluatesRight : Evaluates tighter right rightValue)
    (own : (Symbol.binary operator).rank = level.rank)
    (ranked : level.rank < tighter.rank) :
    Evaluates level (left ++ .symbol (.binary operator) :: right)
      (leftValue.bind fun first => rightValue.bind (operator.apply first)) := by
  intro Result next combines operators holds operands
  have accepted : Combines level fun pending =>
      ((pending.accept .eager (.symbol (.binary operator))).reached.bind fun pending =>
        (pending.acceptAll .eager right).reached.bind next) :=
    (combines_accept (by simp) own.le).bind _
  rw [reached_acceptAll_append, bind_assoc]
  simp only [reached_acceptAll_cons, bind_assoc]
  rw [evaluatesLeft accepted holds operands]
  apply congrArg
  funext first
  have stays : giveWay .eager (.binary operator) ⟨first :: operands, operators⟩ =
      .done () ⟨first :: operands, operators⟩ :=
    giveWay_of_waitsFor (fun top isTop => holds top isTop operator own.ge) .eager _
  have holdsRight : Holds tighter (.binary operator :: operators) :=
    holds_binary (own.trans_lt ranked) operators
  rw [accept, stays, Outcome.done_andThen, Outcome.reached_done, ok_bind, addSymbol,
    evaluatesRight (combines.mono ranked.le) holdsRight]
  apply congrArg
  funext second
  exact combines operator first second operands operators own.ge

theorem Evaluates.group {inner : List Token} {value : Except Rejection Float}
    (evaluates : Evaluates .expression inner value) :
    Evaluates .factor (.symbol .openBracket :: (inner ++ [.symbol .closeBracket]))
      value := by
  intro Result next combines operators holds operands
  have accepted : Combines .expression fun pending =>
      (pending.accept .eager (.symbol .closeBracket)).reached.bind next :=
    (combines_accept (by simp) (Nat.zero_le _)).bind _
  have opens : Holds .expression (.openBracket :: operators) := holds_openBracket operators
  rw [reached_acceptAll_cons, accept, Outcome.reached_done, ok_bind,
    reached_acceptAll_append, bind_assoc]
  simp only [reached_acceptAll_cons, reached_acceptAll_nil, bind_ok]
  exact evaluates accepted opens operands

theorem rank_of_isAdditive {operator : Operator} (additive : operator.isAdditive = true) :
    (Symbol.binary operator).rank = Level.expression.rank := by
  cases operator <;> first | rfl | cases additive

theorem rank_of_isAdditive_eq_false {operator : Operator}
    (multiplicative : operator.isAdditive = false) :
    (Symbol.binary operator).rank = Level.term.rank := by
  cases operator <;> first | rfl | cases multiplicative

theorem evaluates_phrase (phrase : Phrase level) :
    Evaluates level phrase.tokens phrase.value := by
  induction phrase with
  | literal text plain =>
      intro Result next combines operators holds operands
      rfl
  | group inner ih => exact ih.group
  | factor only ih => exact ih.loosen (by decide)
  | product left operator multiplicative right leftIH rightIH =>
      exact leftIH.operation rightIH (rank_of_isAdditive_eq_false multiplicative)
        (by decide)
  | term only ih => exact ih.loosen (by decide)
  | sum left operator additive right leftIH rightIH =>
      exact leftIH.operation rightIH (rank_of_isAdditive additive) (by decide)

end Pending

namespace Statement

variable {settings : Settings} {phrase : Phrase .expression} {statement : String}

/-- The value of a spaced phrase comes from its tokens. -/
theorem value_eq_of_spaced (settings : Settings)
    (short : ∀ literal ∈ phrase.literals, literal.length ≤ settings.literalLimit)
    (spaced : Spaced phrase.text statement.toList) :
    value settings statement =
      (Pending.acceptAll settings.reduction phrase.tokens .empty).reached.bind fun pending =>
        (pending.conclude settings.reduction).result := by
  rw [value_eq, prepare_eq_ok_of_spaced settings.tolerance spaced, ok_bind,
    Scan.ofText_phrase phrase short]
  simp only [Scan.carriedOut, bind_ok]

theorem value_eq_of_spaced_eager (eager : settings.reduction = .eager)
    (short : ∀ literal ∈ phrase.literals, literal.length ≤ settings.literalLimit)
    (spaced : Spaced phrase.text statement.toList) :
    value settings statement = phrase.value := by
  rw [value_eq_of_spaced settings short spaced, eager, Pending.empty,
    Pending.evaluates_phrase phrase Pending.combines_conclude]
  · exact bind_ok _
  · intro top none
    cases none

end Statement

/-- A phrase with blanks anywhere has the value of the phrase under eager
reduction, and is rejected only as a division by zero.  The limit may be any that
settings can have. -/
theorem Statement.value_eq_value_phrase {settings : Settings}
    (eager : settings.reduction = .eager) (phrase : Phrase .expression)
    (short : ∀ literal ∈ phrase.literals, literal.length ≤ settings.literalLimit)
    {statement : String} (spaced : Spaced phrase.text statement.toList) :
    value settings statement = phrase.value ∧
      ((∃ result, phrase.value = .ok result ∧ ¬phrase.DividesByZero) ∨
        (phrase.value = .error .divisionByZero ∧ phrase.DividesByZero)) := by
  exact ⟨value_eq_of_spaced_eager eager short spaced, phrase.value_cases⟩

theorem Statement.quotient_eq_value_phrase :
    let one : Phrase .factor := .literal ['1'] (by decide)
    let two : Phrase .factor := .literal ['2'] (by decide)
    let half : Phrase .factor := .literal ['0', '.', '5'] (by decide)
    let sum : Phrase .expression := .sum (.term (.factor one)) .add rfl (.factor two)
    let phrase : Phrase .expression :=
      .term (.product (.factor (.group sum)) .divide rfl half)
    Spaced phrase.text "(1 + 2) / 0 .5".toList ∧ phrase.value = .ok 6.0 ∧
      value .standard "(1 + 2) / 0 .5" = .ok 6.0 ∧ ¬phrase.DividesByZero := by
  intro one two half sum phrase
  have spaced : Spaced phrase.text "(1 + 2) / 0 .5".toList :=
    (spaced_iff (solid_text phrase)).mpr (by decide)
  have computed : phrase.value = .ok 6.0 := by decide +kernel
  rcases @value_eq_value_phrase .standard rfl phrase (by decide) _ spaced with
    ⟨same, ⟨_, _, divisible⟩ | ⟨failed, _⟩⟩
  · exact ⟨spaced, computed, same.trans computed, divisible⟩
  · cases failed.symm.trans computed

end Reckon
