import Reckon.Proofs.Balance
import Reckon.Proofs.Postfix
import Reckon.Proofs.Precedence

/-!
# Where single reduction is enough

An arriving symbol makes at most one pending operator give way under single
reduction, and as many as have to under eager reduction.  The two keep in step
as long as there is never more than one that has to.  In a group whose products
come before its sums, every operator makes its predecessor give way, so no two
are ever pending.  Outside all groups, further products may follow: the operators
that they leave pending only meet the end of the statement.
-/

namespace Reckon

namespace Operator

/-- Multiplications and divisions first, and only then additions and
subtractions. -/
def ProductsFirst (operators : List Operator) : Prop :=
  ∃ products sums, operators = products ++ sums ∧
    (∀ operator ∈ products, operator.isAdditive = false) ∧
    ∀ operator ∈ sums, operator.isAdditive = true

/-- Multiplications and divisions, then additions and subtractions, then
multiplications and divisions again. -/
def SumsBetween (operators : List Operator) : Prop :=
  ∃ products sums later, operators = products ++ sums ++ later ∧
    (∀ operator ∈ products, operator.isAdditive = false) ∧
    (∀ operator ∈ sums, operator.isAdditive = true) ∧
    ∀ operator ∈ later, operator.isAdditive = false

/-- A sum is not followed by a product. -/
def InOrder (earlier later : Operator) : Prop :=
  earlier.isAdditive = true → later.isAdditive = true

variable {operators front back : List Operator} {operator : Operator}

theorem pairwise_inOrder_of_products
    (products : ∀ operator ∈ operators, operator.isAdditive = false) :
    operators.Pairwise InOrder := by
  apply List.pairwise_of_forall_mem_list
  intro earlier member later _ isSum
  rw [products earlier member] at isSum
  cases isSum

theorem ProductsFirst.pairwise (ordered : ProductsFirst operators) :
    operators.Pairwise InOrder := by
  rcases ordered with ⟨products, sums, rfl, productive, additive⟩
  rw [List.pairwise_append]
  refine ⟨pairwise_inOrder_of_products productive, ?_, ?_⟩
  · apply List.pairwise_of_forall_mem_list
    intro _ _ later member _
    exact additive later member
  · intro _ _ later member _
    exact additive later member

/-- What comes before a sum has its products first. -/
theorem SumsBetween.pairwise_left (between : SumsBetween (front ++ operator :: back))
    (isSum : operator.isAdditive = true) : front.Pairwise InOrder := by
  rcases between with ⟨products, sums, later, parts, productive, additive, last⟩
  have ordered := ProductsFirst.pairwise ⟨products, sums, rfl, productive, additive⟩
  rcases List.append_eq_append_iff.mp parts with ⟨rest, start, _⟩ | ⟨rest, _, tail⟩
  · rw [start] at ordered
    exact (List.pairwise_append.mp ordered).1
  · have := last operator (by simp [tail])
    rw [isSum] at this
    cases this

end Operator

namespace Phrase

/-- The operators of a phrase outside its groups, from left to right. -/
def operators : {level : Level} → Phrase level → List Operator
  | _, literal _ _ => []
  | _, group _ => []
  | _, factor only => only.operators
  | _, product left operator _ right => left.operators ++ operator :: right.operators
  | _, term only => only.operators
  | _, sum left operator _ right => left.operators ++ operator :: right.operators

/-- The insides of all groups of a phrase, also of those within others. -/
def groups : {level : Level} → Phrase level → List (Phrase .expression)
  | _, literal _ _ => []
  | _, group inner => inner :: inner.groups
  | _, factor only => only.groups
  | _, product left _ _ right => left.groups ++ right.groups
  | _, term only => only.groups
  | _, sum left _ _ right => left.groups ++ right.groups

theorem operators_of_factor (phrase : Phrase .factor) : phrase.operators = [] := by
  cases phrase with
  | literal text plain => rfl
  | group inner => rfl

theorem isAdditive_of_mem_term : (phrase : Phrase .term) →
    ∀ operator ∈ phrase.operators, operator.isAdditive = false
  | factor only => by
      simp [operators, operators_of_factor]
  | product left operator multiplicative right => by
      intro other member
      rw [operators, operators_of_factor, List.mem_append, List.mem_singleton] at member
      rcases member with member | rfl
      · exact isAdditive_of_mem_term left other member
      · exact multiplicative

end Phrase

namespace Pending

/-- An operator on top of others, if there is one. -/
def onTop : Option Operator → (below : List Symbol) → List Symbol
  | none, below => below
  | some operator, below => .binary operator :: below

/-- On top of some pending operators, tokens lead to others, and single reduction
does with them what eager reduction does. -/
def Lockstep (tokens : List Token) (before after : List Symbol) : Prop :=
  ∀ operands,
    (acceptAll .single tokens ⟨operands, before⟩).reached =
        (acceptAll .eager tokens ⟨operands, before⟩).reached ∧
      ∀ next, (acceptAll .eager tokens ⟨operands, before⟩).reached = .ok next →
        next.operators = after

variable {before between after below : List Symbol} {incoming : Symbol}
variable {last : Option Operator}

theorem Lockstep.append {front back : List Token} (first : Lockstep front before between)
    (second : Lockstep back between after) : Lockstep (front ++ back) before after := by
  intro operands
  rw [reached_acceptAll_append, reached_acceptAll_append, (first operands).1]
  cases reached : (acceptAll .eager front ⟨operands, before⟩).reached with
  | error cause =>
      refine ⟨rfl, ?_⟩
      intro next failed
      cases failed
  | ok middle =>
      rcases middle with ⟨left, operators⟩
      cases (first operands).2 _ reached
      exact second left

theorem lockstep_accept {token : Token}
    (same : ∀ operands, (accept .single token ⟨operands, before⟩).reached =
      (accept .eager token ⟨operands, before⟩).reached)
    (leaves : ∀ operands next,
      (accept .eager token ⟨operands, before⟩).reached = .ok next → next.operators = after) :
    Lockstep [token] before after := by
  intro operands
  rw [reached_acceptAll_cons, reached_acceptAll_cons]
  simp only [reached_acceptAll_nil, bind_ok]
  exact ⟨same operands, leaves operands⟩

/-- Above a symbol that waits, an operator that does not is combined with either
reduction, and nothing else is. -/
theorem reached_giveWay_cons {top : Symbol} (yields : top.waitsFor incoming = false)
    (waits : ∀ symbol ∈ below.head?, symbol.waitsFor incoming = true)
    (reduction : Reduction) (operands : List Float) :
    (giveWay reduction incoming ⟨operands, top :: below⟩).reached =
      (combine top ⟨operands, below⟩).reached := by
  cases reduction with
  | single => exact reached_giveWayFrom_single yields
  | eager =>
      rw [giveWay, reached_giveWayFrom_eager yields]
      cases reached : (combine top ⟨operands, below⟩).reached with
      | error cause => rfl
      | ok next =>
          rcases combine_cases reached with
            ⟨operator, left, right, rest, result, _, _, _, rfl⟩
          exact congrArg Outcome.reached (giveWay_of_waitsFor waits .eager (result :: rest))

theorem giveWay_onTop (last : Option Operator) (below : List Symbol)
    (yields : ∀ operator ∈ last, (Symbol.binary operator).waitsFor incoming = false)
    (waits : ∀ symbol ∈ below.head?, symbol.waitsFor incoming = true)
    (operands : List Float) :
    (giveWay .single incoming ⟨operands, onTop last below⟩).reached =
        (giveWay .eager incoming ⟨operands, onTop last below⟩).reached ∧
      ∀ next, (giveWay .eager incoming ⟨operands, onTop last below⟩).reached = .ok next →
        next.operators = below := by
  cases last with
  | none =>
      rw [onTop, giveWay_of_waitsFor waits, giveWay_of_waitsFor waits]
      refine ⟨rfl, ?_⟩
      intro next reached
      cases reached
      rfl
  | some operator =>
      have combines := reached_giveWay_cons (yields operator rfl) waits
      rw [onTop, combines .single, combines .eager]
      refine ⟨rfl, ?_⟩
      intro next reached
      rcases combine_cases reached with
        ⟨operator, left, right, rest, result, _, _, _, rfl⟩
      rfl

/-- An operator that makes the one on top give way takes its place. -/
theorem lockstep_binary {operator : Operator}
    (yields : ∀ pending ∈ last,
      (Symbol.binary pending).waitsFor (.binary operator) = false)
    (waits : ∀ symbol ∈ below.head?, symbol.waitsFor (.binary operator) = true) :
    Lockstep [.symbol (.binary operator)] (onTop last below) (.binary operator :: below) := by
  have gaveWay := giveWay_onTop last below yields waits
  apply lockstep_accept
  · intro operands
    rw [accept, accept, Outcome.reached_andThen, Outcome.reached_andThen,
      (gaveWay operands).1]
  · intro operands next reached
    rw [accept, Outcome.reached_andThen, bind_eq_ok_iff] at reached
    rcases reached with ⟨middle, reached, added⟩
    cases added
    rw [addSymbol, (gaveWay operands).2 middle reached]
    rfl

/-- A closing bracket takes off its opening one and the operator above it. -/
theorem lockstep_closeBracket :
    Lockstep [.symbol .closeBracket] (onTop last (.openBracket :: below)) below := by
  have gaveWay := giveWay_onTop last (.openBracket :: below)
    (fun operator _ => Symbol.binary_waitsFor_closeBracket operator) (by simp)
  apply lockstep_accept
  · intro operands
    rw [accept, accept, Outcome.reached_andThen, Outcome.reached_andThen,
      (gaveWay operands).1]
  · intro operands next reached
    rw [accept, Outcome.reached_andThen, bind_eq_ok_iff] at reached
    rcases reached with ⟨middle, reached, closed⟩
    rw [reached_close, (gaveWay operands).2 middle reached] at closed
    cases closed
    rfl

theorem lockstep_operand (literal : List Char) (value : Float) (before : List Symbol) :
    Lockstep [.operand literal value] before before := by
  apply lockstep_accept
  · intro operands
    rfl
  · intro operands next reached
    cases reached
    rfl

theorem lockstep_openBracket (before : List Symbol) :
    Lockstep [.symbol .openBracket] before (.openBracket :: before) := by
  apply lockstep_accept
  · intro operands
    rfl
  · intro operands next reached
    cases reached
    rfl

/-- An operator makes one of the same level, or of a tighter one, give way. -/
theorem yields_of_inOrder {pending incoming : Operator}
    (inOrder : pending.InOrder incoming) :
    (Symbol.binary pending).waitsFor (.binary incoming) = false := by
  cases pending <;> cases incoming <;> first | rfl | cases inOrder rfl

/-- Operands of a level leave at most the last of their operators pending, on top of
what lets them be put there. -/
def KeepsStep (level : Level) (tokens : List Token) (operators : List Operator) : Prop :=
  ∀ ⦃before : List Symbol⦄, Holds level before →
    Lockstep tokens before (onTop operators.getLast? before)

/-- An operator replaces the last one of its left side. -/
theorem KeepsStep.operator {level : Level} {left right : List Token}
    {front : List Operator} {operator : Operator} (keeps : KeepsStep level left front)
    (own : (Symbol.binary operator).rank = level.rank)
    (inOrder : ∀ earlier ∈ front, earlier.InOrder operator) (holds : Holds level before)
    (rest : Lockstep right (.binary operator :: before) after) :
    Lockstep (left ++ .symbol (.binary operator) :: right) before after := by
  have replaced : Lockstep [.symbol (.binary operator)] (onTop front.getLast? before)
      (.binary operator :: before) := by
    apply lockstep_binary
    · intro pending isLast
      exact yields_of_inOrder (inOrder pending (List.mem_of_getLast? isLast))
    · intro symbol isTop
      exact holds symbol isTop operator own.ge
  exact (keeps holds).append (replaced.append rest)

theorem KeepsStep.operation {level tighter : Level} {left right : List Token}
    {front : List Operator} {operator : Operator} (leftKeeps : KeepsStep level left front)
    (rightKeeps : KeepsStep tighter right [])
    (own : (Symbol.binary operator).rank = level.rank)
    (ranked : level.rank < tighter.rank)
    (inOrder : ∀ earlier ∈ front, earlier.InOrder operator) :
    KeepsStep level (left ++ .symbol (.binary operator) :: right) (front ++ [operator]) := by
  intro before holds
  rw [List.getLast?_concat]
  exact leftKeeps.operator own inOrder holds
    (rightKeeps (holds_binary (own.trans_lt ranked) before))

theorem keepsStep_group {inner : List Token} {operators : List Operator}
    (keeps : KeepsStep .expression inner operators) :
    KeepsStep .factor (.symbol .openBracket :: (inner ++ [.symbol .closeBracket])) [] := by
  intro before holds
  exact (lockstep_openBracket before).append
    ((keeps (holds_openBracket before)).append lockstep_closeBracket)

/-- Where no sum is followed by a product, phrases keep step. -/
theorem keepsStep_phrase {level : Level} (phrase : Phrase level)
    (groups : ∀ inner ∈ phrase.groups, Operator.ProductsFirst inner.operators)
    (ordered : phrase.operators.Pairwise Operator.InOrder) :
    KeepsStep level phrase.tokens phrase.operators := by
  induction phrase with
  | literal text plain =>
      intro before holds
      exact lockstep_operand text _ before
  | group inner ih =>
      rw [Phrase.groups, List.forall_mem_cons] at groups
      exact keepsStep_group (ih groups.2 groups.1.pairwise)
  | factor only ih =>
      intro before holds
      exact ih groups ordered (holds.mono (by decide))
  | term only ih =>
      intro before holds
      exact ih groups ordered (holds.mono (by decide))
  | product left operator multiplicative right leftIH rightIH =>
      have single := right.operators_of_factor
      rw [Phrase.groups, List.forall_mem_append] at groups
      rw [Phrase.operators, single] at ordered ⊢
      rw [List.pairwise_append] at ordered
      have rightKeeps := rightIH groups.2 (single ▸ .nil)
      rw [single] at rightKeeps
      exact (leftIH groups.1 ordered.1).operation rightKeeps
        (rank_of_isAdditive_eq_false multiplicative) (by decide)
        fun earlier member => ordered.2.2 earlier member operator List.mem_cons_self
  | sum left operator additive right leftIH rightIH =>
      rw [Phrase.groups, List.forall_mem_append] at groups
      rw [Phrase.operators, List.pairwise_append, List.pairwise_cons] at ordered
      -- The products of a further term would follow a sum.
      have single : right.operators = [] := by
        rw [List.eq_nil_iff_forall_not_mem]
        intro later member
        have product := right.isAdditive_of_mem_term later member
        rw [ordered.2.1.1 later member additive] at product
        cases product
      have rightKeeps := rightIH groups.2 (single ▸ .nil)
      rw [single] at rightKeeps
      rw [Phrase.operators, single]
      exact (leftIH groups.1 ordered.1).operation rightKeeps
        (rank_of_isAdditive additive) (by decide)
        fun earlier member => ordered.2.2 earlier member operator List.mem_cons_self

/-- With nothing pending in front, products may also follow the sums. -/
theorem exists_lockstep_of_sumsBetween (phrase : Phrase .expression)
    (groups : ∀ inner ∈ phrase.groups, Operator.ProductsFirst inner.operators)
    (between : Operator.SumsBetween phrase.operators) :
    ∃ after, Lockstep phrase.tokens [] after := by
  have none : Holds .expression [] := by
    intro top isTop
    cases isTop
  cases phrase with
  | term only =>
      have ordered := Operator.pairwise_inOrder_of_products only.isAdditive_of_mem_term
      exact ⟨_, keepsStep_phrase (.term only) groups ordered none⟩
  | sum left operator additive right =>
      rw [Phrase.groups, List.forall_mem_append] at groups
      have own := rank_of_isAdditive additive
      have ordered := between.pairwise_left additive
      have leftKeeps := keepsStep_phrase left groups.1 ordered
      have rightKeeps := keepsStep_phrase right groups.2
        (Operator.pairwise_inOrder_of_products right.isAdditive_of_mem_term)
      exact ⟨_, leftKeeps.operator own (fun _ _ _ => additive) none
        (rightKeeps (holds_binary (own.trans_lt (by decide)) []))⟩

/-! ## The end of a statement -/

/-- Accepting a phrase adds one operand in excess. -/
theorem balance_of_acceptAll_phrase {level : Level} (phrase : Phrase level)
    {pending next : Pending}
    (accepted : (pending.acceptAll .eager phrase.tokens).reached = .ok next) :
    next.balance = ⟨pending.balance.excess + 1, pending.balance.depth⟩ := by
  induction phrase generalizing pending next with
  | literal text plain =>
      cases accepted
      exact balance_addOperand pending _
  | group inner ih =>
      rw [Phrase.tokens, reached_acceptAll_cons, bind_eq_ok_iff] at accepted
      rcases accepted with ⟨opened, first, accepted⟩
      rw [reached_acceptAll_append, bind_eq_ok_iff] at accepted
      rcases accepted with ⟨filled, inside, accepted⟩
      rw [reached_acceptAll_cons, bind_eq_ok_iff] at accepted
      rcases accepted with ⟨closed, last, nothing⟩
      cases nothing
      have opens : opened.balance = ⟨pending.balance.excess, pending.balance.depth + 1⟩ :=
        shifts_accept first
      have closes : filled.balance = ⟨closed.balance.excess, closed.balance.depth + 1⟩ :=
        shifts_accept last
      rw [ih inside, opens, Balance.mk.injEq] at closes
      exact Balance.ext closes.1.symm (Nat.succ.inj closes.2).symm
  | factor only ih => exact ih accepted
  | term only ih => exact ih accepted
  | product left operator _ right leftIH rightIH
  | sum left operator _ right leftIH rightIH =>
      rw [Phrase.tokens, reached_acceptAll_append, bind_eq_ok_iff] at accepted
      rcases accepted with ⟨first, leftAccepted, accepted⟩
      rw [reached_acceptAll_cons, bind_eq_ok_iff] at accepted
      rcases accepted with ⟨second, operatorAccepted, rightAccepted⟩
      have shrinks : second.balance = ⟨first.balance.excess - 1, first.balance.depth⟩ :=
        shifts_accept operatorAccepted
      rw [rightIH rightAccepted, shrinks, leftIH leftAccepted]
      simp

/-- With one operand more than operators, single reduction uses up all of them. -/
theorem reached_combineToOne_eq {operators : List Symbol} {operands : List Float}
    (enough : operands.length = operators.length + 1) :
    (combineToOne operators operands).reached = (combineAll operators operands).reached := by
  induction operators generalizing operands with
  | nil =>
      match operands with
      | [value] => rfl
  | cons top below ih =>
      match operands with
      | right :: left :: rest =>
          rw [reached_combineToOne_cons, reached_combineAll_cons, reached_combine]
          cases top.apply left right with
          | error cause => rfl
          | ok result =>
              apply ih
              simpa using enough

theorem result_conclude_single_eq {pending : Pending} (balanced : pending.balance = ⟨1, 0⟩) :
    (pending.conclude .single).result = (pending.conclude .eager).result := by
  have noBracket : pending.operators.count .openBracket = 0 :=
    congrArg Balance.depth balanced
  have excess : (pending.operands.length : Int) -
      pending.operators.countP (· ≠ .openBracket) = 1 := congrArg Balance.excess balanced
  have all : pending.operators.countP (· ≠ .openBracket) = pending.operators.length := by
    rw [List.countP_eq_length]
    intro symbol member
    have := List.count_eq_zero.mp noBracket
    simp only [ne_eq, decide_not, Bool.not_eq_eq_eq_not, Bool.not_true, decide_eq_false_iff_not]
    rintro rfl
    exact this member
  rw [result_conclude_single, result_conclude_eager, reached_combineToOne_eq]
  omega

end Pending

namespace Statement

open Pending

/-- Both reductions give a phrase the same value, if products come before sums in
all of its groups and, outside them, sums only between products.  The limit may be
any that settings can have. -/
theorem value_single_eq_value_eager (settings : Settings) (phrase : Phrase .expression)
    (short : ∀ literal ∈ phrase.literals, literal.length ≤ settings.literalLimit)
    (groups : ∀ inner ∈ phrase.groups, Operator.ProductsFirst inner.operators)
    (outside : Operator.SumsBetween phrase.operators)
    {statement : String} (spaced : Spaced phrase.text statement.toList) :
    value { settings with reduction := .single } statement =
        value { settings with reduction := .eager } statement ∧
      value { settings with reduction := .single } statement = phrase.value := by
  have inStep : value { settings with reduction := .single } statement =
      value { settings with reduction := .eager } statement := by
    rcases exists_lockstep_of_sumsBetween phrase groups outside with ⟨after, lockstep⟩
    rw [value_eq_of_spaced { settings with reduction := .single } short spaced,
      value_eq_of_spaced { settings with reduction := .eager } short spaced]
    dsimp only
    rw [Pending.empty, (lockstep []).1]
    cases reached : (acceptAll .eager phrase.tokens ⟨[], []⟩).reached with
    | error cause => rfl
    | ok pending =>
        exact result_conclude_single_eq (balance_of_acceptAll_phrase phrase reached)
  exact ⟨inStep, inStep.trans (value_eq_of_spaced_eager rfl short spaced)⟩

theorem difference_in_step :
    let two : Phrase .factor := .literal ['2'] (by decide)
    let six : Phrase .factor := .literal ['6'] (by decide)
    let inner : Phrase .expression :=
      .sum (.term (.product (.factor two) .multiply rfl six)) .add rfl (.factor two)
    let phrase : Phrase .expression :=
      .sum (.term (.product (.factor (.group inner)) .multiply rfl six)) .subtract rfl
        (.product (.factor six) .divide rfl two)
    (∀ inner ∈ phrase.groups, Operator.ProductsFirst inner.operators) ∧
      Operator.SumsBetween phrase.operators ∧
      Spaced phrase.text "(2*6 + 2) * 6 - 6/2".toList ∧ phrase.value = .ok 81.0 ∧
      value { Settings.standard with reduction := .eager } "(2*6 + 2) * 6 - 6/2" = .ok 81.0 ∧
      value { Settings.standard with reduction := .single } "(2*6 + 2) * 6 - 6/2" = .ok 81.0 := by
  intro two six inner phrase
  have groups : ∀ group ∈ phrase.groups, Operator.ProductsFirst group.operators := by
    intro group member
    rw [List.mem_singleton.mp member]
    exact ⟨[.multiply], [.add], rfl, by decide, by decide⟩
  have outside : Operator.SumsBetween phrase.operators :=
    ⟨[.multiply], [.subtract], [.divide], rfl, by decide, by decide, by decide⟩
  have spaced : Spaced phrase.text "(2*6 + 2) * 6 - 6/2".toList :=
    (spaced_iff (solid_text phrase)).mpr (by decide)
  have computed : phrase.value = .ok 81.0 := by decide +kernel
  rcases value_single_eq_value_eager .standard phrase (by decide) groups outside spaced with
    ⟨inStep, same⟩
  exact ⟨groups, outside, spaced, computed, inStep.symm.trans (same.trans computed),
    same.trans computed⟩

/-- A product between sums leaves two operators to give way. -/
example : value { Settings.standard with reduction := .single } "1-2*3+4" = .ok (-9.0) ∧
    value { Settings.standard with reduction := .eager } "1-2*3+4" = .ok (-1.0) := by
  decide +kernel

end Statement

end Reckon
