import Reckon.Proofs.Lockstep

/-!
# What single reduction computes

Under single reduction an operator makes at most one pending operator give way.  Behind a
product that is the last operator of the product, so the `+` or `-` in front of the product
stays pending until the end of the statement.  An expression thus falls into segments, of
which all but the first begin with a product.  Each segment is added up from the left, and the
segments are combined from the right.
-/

namespace Reckon

namespace Phrase

/-- A term behind the first one of an expression, with the operator in front of it. -/
structure Summand where
  operator : Operator
  additive : operator.isAdditive = true
  term : Phrase .term

/-- A term and the summands that are added to it from the left. -/
structure Segment where
  head : Phrase .term
  further : List Summand

/-- Whether a term has at least two factors. -/
def isProduct : Phrase .term → Bool
  | factor _ => false
  | product .. => true

/-- The first term of an expression. -/
def first : Phrase .expression → Phrase .term
  | term only => only
  | sum left _ _ _ => left.first

/-- The terms of an expression behind the first one, from left to right. -/
def summands : Phrase .expression → List Summand
  | term _ => []
  | sum left operator additive right => left.summands ++ [⟨operator, additive, right⟩]

/-- Cuts summands into those in front of the first product and the segments that begin with
products, each with the operator in front of it. -/
def cut : List Summand → List Summand × List (Operator × Segment)
  | [] => ([], [])
  | summand :: rest =>
      if summand.term.isProduct then
        ([], (summand.operator, ⟨summand.term, (cut rest).1⟩) :: (cut rest).2)
      else (summand :: (cut rest).1, (cut rest).2)

/-- Adds summands to a value, from the left. -/
def addUp (total : Float) : List Summand → Except Rejection Float
  | [] => .ok total
  | summand :: rest =>
      summand.term.value.bind fun value =>
        (summand.operator.apply total value).bind fun total => addUp total rest

def Segment.value (segment : Segment) : Except Rejection Float :=
  segment.head.value.bind fun first => addUp first segment.further

/-- Combines the value of a segment with those of the segments behind it, from the right. -/
def nest (left : Float) : List (Operator × Segment) → Except Rejection Float
  | [] => .ok left
  | (operator, next) :: rest =>
      (next.value.bind fun value => nest value rest).bind (operator.apply left)

/-- The first segment of an expression. -/
def firstSegment (phrase : Phrase .expression) : Segment :=
  ⟨phrase.first, (cut phrase.summands).1⟩

/-- The segments behind the first one, each with the operator in front of it. -/
def furtherSegments (phrase : Phrase .expression) : List (Operator × Segment) :=
  (cut phrase.summands).2

/-- The value of an expression that is added up by segments. -/
def segmentedValue (phrase : Phrase .expression) : Except Rejection Float :=
  phrase.firstSegment.value.bind fun left => nest left phrase.furtherSegments

/-- The value of the segments of summands, the first of which goes on from a total. -/
def goOn (total : Float) (summands : List Summand) : Except Rejection Float :=
  (addUp total (cut summands).1).bind fun left => nest left (cut summands).2

variable {summand : Summand}

theorem segmentedValue_eq (phrase : Phrase .expression) :
    phrase.segmentedValue = phrase.first.value.bind fun first => goOn first phrase.summands :=
  bind_assoc _ _ _

@[simp] theorem goOn_nil (total : Float) : goOn total [] = .ok total := rfl

/-- A product begins a segment of its own. -/
theorem goOn_product (isProduct : summand.term.isProduct = true) (total : Float)
    (rest : List Summand) :
    goOn total (summand :: rest) =
      (summand.term.value.bind fun value => goOn value rest).bind
        (summand.operator.apply total) := by
  rw [goOn, cut, if_pos isProduct, addUp, ok_bind, nest, Segment.value]
  simp only [bind_assoc, goOn]

/-- Any other term belongs to the segment under way. -/
theorem goOn_factor (single : summand.term.isProduct = false) (total : Float)
    (rest : List Summand) :
    goOn total (summand :: rest) =
      summand.term.value.bind fun value =>
        (summand.operator.apply total value).bind fun total => goOn total rest := by
  rw [goOn, cut, if_neg (by simp [single]), addUp]
  simp only [bind_assoc, goOn]

theorem goOn_singleton (summand : Summand) (total : Float) :
    goOn total [summand] = summand.term.value.bind (summand.operator.apply total) := by
  cases isProduct : summand.term.isProduct with
  | true =>
      rw [goOn_product isProduct]
      simp only [goOn_nil, bind_ok]
  | false =>
      rw [goOn_factor isProduct]
      simp only [goOn_nil, bind_ok]

/-! ### Divisions -/

theorem Summand.exists_apply (summand : Summand) (left right : Float) :
    ∃ result, summand.operator.apply left right = .ok result := by
  rcases summand with ⟨operator, additive, term⟩
  cases operator with
  | add => exact ⟨_, rfl⟩
  | subtract => exact ⟨_, rfl⟩
  | multiply => cases additive
  | divide => cases additive

/-- Going on fails only as a division by zero in one of the terms. -/
theorem goOn_cases (total : Float) (summands : List Summand) :
    (∃ result, goOn total summands = .ok result ∧
        ¬∃ summand ∈ summands, summand.term.DividesByZero) ∨
      (goOn total summands = .error .divisionByZero ∧
        ∃ summand ∈ summands, summand.term.DividesByZero) := by
  induction summands generalizing total with
  | nil => exact .inl ⟨total, rfl, by simp⟩
  | cons summand rest ih =>
      simp only [List.exists_mem_cons_iff]
      cases isProduct : summand.term.isProduct with
      | true =>
          rw [goOn_product isProduct]
          rcases summand.term.value_cases with ⟨value, found, divides⟩ | ⟨failed, divides⟩
          · rw [found, ok_bind]
            rcases ih value with ⟨right, later, dividesLater⟩ | ⟨failed, dividesLater⟩
            · rcases summand.exists_apply total right with ⟨result, applied⟩
              rw [later, ok_bind, applied]
              exact .inl ⟨result, rfl, by simp_all⟩
            · rw [failed]
              exact .inr ⟨rfl, .inr dividesLater⟩
          · rw [failed]
            exact .inr ⟨rfl, .inl divides⟩
      | false =>
          rw [goOn_factor isProduct]
          rcases summand.term.value_cases with ⟨value, found, divides⟩ | ⟨failed, divides⟩
          · rcases summand.exists_apply total value with ⟨next, applied⟩
            rw [found, ok_bind, applied, ok_bind]
            rcases ih next with ⟨result, later, dividesLater⟩ | ⟨failed, dividesLater⟩
            · exact .inl ⟨result, later, by simp_all⟩
            · exact .inr ⟨failed, .inr dividesLater⟩
          · rw [failed]
            exact .inr ⟨rfl, .inl divides⟩

theorem dividesByZero_expression (phrase : Phrase .expression) :
    phrase.DividesByZero ↔
      phrase.first.DividesByZero ∨ ∃ summand ∈ phrase.summands, summand.term.DividesByZero := by
  match phrase with
  | term only => simp [first, summands, DividesByZero, divisors]
  | sum left operator additive right =>
      have noDivision : operator ≠ .divide := by
        intro division
        subst division
        cases additive
      rw [dividesByZero_sum, dividesByZero_expression left]
      simp [first, summands, noDivision, or_and_right, exists_or, or_assoc]

/-- Segments have a value together unless some divisor in the expression equals zero. -/
theorem segmentedValue_cases (phrase : Phrase .expression) :
    (∃ result, phrase.segmentedValue = .ok result ∧ ¬phrase.DividesByZero) ∨
      (phrase.segmentedValue = .error .divisionByZero ∧ phrase.DividesByZero) := by
  rw [segmentedValue_eq, dividesByZero_expression]
  rcases phrase.first.value_cases with ⟨value, found, divides⟩ | ⟨failed, divides⟩
  · rw [found, ok_bind]
    rcases goOn_cases value phrase.summands with ⟨result, later, dividesLater⟩ | ⟨failed, later⟩
    · exact .inl ⟨result, later, by simp_all⟩
    · exact .inr ⟨failed, .inr later⟩
  · rw [failed]
    exact .inr ⟨rfl, .inl divides⟩

/-! ### Tokens -/

/-- The tokens of summands, each with its operator in front. -/
def summandTokens (summands : List Summand) : List Token :=
  summands.flatMap fun summand =>
    .symbol (.binary summand.operator) :: summand.term.tokens

theorem tokens_eq (phrase : Phrase .expression) :
    phrase.tokens = phrase.first.tokens ++ summandTokens phrase.summands := by
  match phrase with
  | term only => simp [tokens, first, summands, summandTokens]
  | sum left operator additive right =>
      rw [tokens, tokens_eq left, first, summands, summandTokens, summandTokens,
        List.flatMap_append, List.append_assoc]
      simp

theorem groups_eq (phrase : Phrase .expression) :
    phrase.groups = phrase.first.groups ++ phrase.summands.flatMap fun summand =>
      summand.term.groups := by
  match phrase with
  | term only => simp [groups, first, summands]
  | sum left operator additive right =>
      rw [groups, groups_eq left, first, summands, List.flatMap_append, List.append_assoc]
      simp

end Phrase

namespace Pending

/-! ## Terms -/

section Terms

open Phrase (isProduct)

variable {before : List Symbol} {term : Phrase .term} {operands : List Float}

/-- Nothing that is pending concerns a factor. -/
theorem reached_factor (factor : Phrase .factor) (operands : List Float)
    (before : List Symbol) :
    (acceptAll .eager factor.tokens ⟨operands, before⟩).reached =
      factor.value.bind fun value => .ok ⟨value :: operands, before⟩ := by
  have above : ∀ operator : Operator,
      ¬Level.factor.rank ≤ (Symbol.binary operator).rank := by
    intro operator
    cases operator <;> decide
  have combines : Combines .factor (Except.ok : Pending → Except Rejection Pending) :=
    fun operator _ _ _ _ tight => (above operator tight).elim
  have holds : Holds .factor before := fun _ _ operator tight => (above operator tight).elim
  have evaluated := evaluates_phrase factor combines holds operands
  rwa [bind_ok] at evaluated

/-- A term is accepted with either reduction alike.  The last operator of a product is left
pending, and so are its two operands. -/
theorem reached_term (holds : Holds .term before)
    (groups : ∀ inner ∈ term.groups, Operator.ProductsFirst inner.operators)
    (operands : List Float) :
    (acceptAll .single term.tokens ⟨operands, before⟩).reached =
      match term with
      | .factor only => only.value.bind fun value => .ok ⟨value :: operands, before⟩
      | .product left operator _ right =>
          left.value.bind fun first => right.value.bind fun second =>
            .ok ⟨second :: first :: operands, .binary operator :: before⟩ := by
  have ordered := Operator.pairwise_inOrder_of_products term.isAdditive_of_mem_term
  rw [(keepsStep_phrase term groups ordered holds operands).1]
  cases term with
  | factor only => exact reached_factor only operands before
  | product left operator multiplicative right =>
      have own := rank_of_isAdditive_eq_false multiplicative
      have accepted : Combines .term fun pending =>
          (pending.accept .eager (.symbol (.binary operator))).reached.bind fun pending =>
            (pending.acceptAll .eager right.tokens).reached :=
        (combines_accept (by simp) own.le).bind _
      rw [Phrase.tokens, reached_acceptAll_append]
      simp only [reached_acceptAll_cons]
      rw [evaluates_phrase left accepted holds operands]
      apply congrArg
      funext first
      have stays : giveWay .eager (.binary operator) ⟨first :: operands, before⟩ =
          .done () ⟨first :: operands, before⟩ :=
        giveWay_of_waitsFor (fun top isTop => holds top isTop operator own.ge) .eager _
      rw [accept, stays, Outcome.done_andThen, Outcome.reached_done, ok_bind, addSymbol,
        reached_factor]

theorem combines_conclude_single {level : Level} :
    Combines level fun pending => (pending.conclude .single).result := by
  intro operator left right operands operators _
  simp only [result_conclude_single]
  rw [reached_combineToOne_cons, reached_combine, bind_assoc, bind_assoc]
  rfl

/-- An operator that joins terms makes the topmost one give way, and only that. -/
theorem reached_accept_single {incoming : Operator} (additive : incoming.isAdditive = true)
    (top : Operator) (left right : Float) (operands : List Float) (below : List Symbol) :
    (accept .single (.symbol (.binary incoming))
        ⟨right :: left :: operands, .binary top :: below⟩).reached =
      (top.apply left right).bind fun result =>
        .ok ⟨result :: operands, .binary incoming :: below⟩ := by
  have yields : (Symbol.binary top).waitsFor (.binary incoming) = false :=
    yields_of_inOrder fun _ => additive
  rw [accept, Outcome.reached_andThen, giveWay, reached_giveWayFrom_single yields,
    reached_combine, bind_assoc]
  rfl

/-- At the end of a statement, a term stands for its value. -/
theorem conclude_term (holds : Holds .term before)
    (groups : ∀ inner ∈ term.groups, Operator.ProductsFirst inner.operators)
    (operands : List Float) :
    ((acceptAll .single term.tokens ⟨operands, before⟩).reached.bind fun pending =>
        (pending.conclude .single).result) =
      term.value.bind fun value => (conclude .single ⟨value :: operands, before⟩).result := by
  rw [reached_term holds groups]
  cases term with
  | factor only =>
      simp only [bind_assoc, ok_bind]
      rfl
  | product left operator multiplicative right =>
      have own := rank_of_isAdditive_eq_false multiplicative
      simp only [bind_assoc, ok_bind, Phrase.value]
      apply congrArg
      funext first
      apply congrArg
      funext second
      exact combines_conclude_single operator first second operands before own.ge

/-- In front of an operator, a product stands for its value and keeps all else pending. -/
theorem accept_product (isProduct : term.isProduct = true) (holds : Holds .term before)
    (groups : ∀ inner ∈ term.groups, Operator.ProductsFirst inner.operators)
    {incoming : Operator} (additive : incoming.isAdditive = true) (operands : List Float) :
    ((acceptAll .single term.tokens ⟨operands, before⟩).reached.bind fun pending =>
        (pending.accept .single (.symbol (.binary incoming))).reached) =
      term.value.bind fun value =>
        .ok ⟨value :: operands, .binary incoming :: before⟩ := by
  rw [reached_term holds groups]
  cases term with
  | factor only => cases isProduct
  | product left operator multiplicative right =>
      simp only [bind_assoc, ok_bind, Phrase.value, reached_accept_single additive]

/-- In front of an operator, any other term is combined with the total in front of it. -/
theorem accept_factor (single : term.isProduct = false) {joining incoming : Operator}
    (joins : joining.isAdditive = true) (additive : incoming.isAdditive = true)
    (groups : ∀ inner ∈ term.groups, Operator.ProductsFirst inner.operators) (total : Float)
    (operands : List Float) (below : List Symbol) :
    ((acceptAll .single term.tokens ⟨total :: operands, .binary joining :: below⟩).reached.bind
        fun pending => (pending.accept .single (.symbol (.binary incoming))).reached) =
      term.value.bind fun value => (joining.apply total value).bind fun total =>
        .ok ⟨total :: operands, .binary incoming :: below⟩ := by
  have holds : Holds .term (.binary joining :: below) :=
    holds_binary ((rank_of_isAdditive joins).trans_lt (by decide)) below
  rw [reached_term holds groups]
  cases term with
  | factor only =>
      simp only [bind_assoc, ok_bind, reached_accept_single additive]
      rfl
  | product left operator multiplicative right => cases single

/-- In front of the first operator, the first term stands for its value. -/
theorem accept_first (term : Phrase .term)
    (groups : ∀ inner ∈ term.groups, Operator.ProductsFirst inner.operators)
    {incoming : Operator} (additive : incoming.isAdditive = true) :
    ((acceptAll .single term.tokens .empty).reached.bind fun pending =>
        (pending.accept .single (.symbol (.binary incoming))).reached) =
      term.value.bind fun value => .ok ⟨[value], [.binary incoming]⟩ := by
  have holds : Holds .term [] := by
    intro top isTop
    cases isTop
  cases isProduct : term.isProduct with
  | true => exact accept_product isProduct holds groups additive []
  | false =>
      rw [empty, reached_term holds groups]
      cases term with
      | factor only =>
          simp only [bind_assoc, ok_bind]
          rfl
      | product left operator multiplicative right => cases isProduct

end Terms

/-! ## Expressions -/

open Phrase (Summand goOn summandTokens)

theorem summandTokens_cons (summand : Summand) (rest : List Summand) :
    summandTokens (summand :: rest) =
      .symbol (.binary summand.operator) :: (summand.term.tokens ++ summandTokens rest) := rfl

theorem reached_acceptAll_append_cons {reduction : Reduction} {pending : Pending}
    (front : List Token) (token : Token) (back : List Token) :
    (pending.acceptAll reduction (front ++ token :: back)).reached =
      ((pending.acceptAll reduction front).reached.bind fun next =>
        (next.accept reduction token).reached).bind fun next =>
          (next.acceptAll reduction back).reached := by
  rw [reached_acceptAll_append, bind_assoc]
  simp only [reached_acceptAll_cons]

/-- From a total and a pending operator on, the summands that follow are worth what going on
with them gives.  Whatever is pending below is not touched until then. -/
theorem conclude_summands {summand : Summand} {rest : List Summand}
    (groups : ∀ other ∈ summand :: rest, ∀ inner ∈ other.term.groups,
      Operator.ProductsFirst inner.operators)
    (total : Float) (operands : List Float) (below : List Symbol) :
    ((acceptAll .single (summand.term.tokens ++ summandTokens rest)
        ⟨total :: operands, .binary summand.operator :: below⟩).reached.bind fun pending =>
          (pending.conclude .single).result) =
      (goOn total (summand :: rest)).bind fun value =>
        (conclude .single ⟨value :: operands, below⟩).result := by
  have own := rank_of_isAdditive summand.additive
  have holds : Holds .term (.binary summand.operator :: below) :=
    holds_binary (own.trans_lt (by decide)) below
  have settles (right : Float) :
      (conclude .single ⟨right :: total :: operands, .binary summand.operator :: below⟩).result =
        (summand.operator.apply total right).bind fun value =>
          (conclude .single ⟨value :: operands, below⟩).result :=
    combines_conclude_single _ total right operands below own.ge
  rw [List.forall_mem_cons] at groups
  match rest with
  | [] =>
      rw [summandTokens, List.flatMap_nil, List.append_nil, conclude_term holds groups.1,
        Phrase.goOn_singleton]
      simp only [bind_assoc, settles]
  | next :: rest =>
      have later := conclude_summands groups.2
      rw [summandTokens_cons, reached_acceptAll_append_cons]
      cases isProduct : summand.term.isProduct with
      | true =>
          rw [accept_product isProduct holds groups.1 next.additive, Phrase.goOn_product isProduct]
          simp only [bind_assoc, ok_bind, later, settles]
      | false =>
          rw [accept_factor isProduct summand.additive next.additive groups.1,
            Phrase.goOn_factor isProduct]
          simp only [bind_assoc, ok_bind, later]

theorem conclude_expression (phrase : Phrase .expression)
    (groups : ∀ inner ∈ phrase.groups, Operator.ProductsFirst inner.operators) :
    ((acceptAll .single phrase.tokens .empty).reached.bind fun pending =>
        (pending.conclude .single).result) = phrase.segmentedValue := by
  rw [Phrase.groups_eq, List.forall_mem_append] at groups
  rw [Phrase.tokens_eq, Phrase.segmentedValue_eq]
  cases summands : phrase.summands with
  | nil =>
      have holds : Holds .term [] := by
        intro top isTop
        cases isTop
      rw [summandTokens, List.flatMap_nil, List.append_nil, empty,
        conclude_term holds groups.1]
      rfl
  | cons summand rest =>
      have later : ∀ other ∈ summand :: rest, ∀ inner ∈ other.term.groups,
          Operator.ProductsFirst inner.operators := by
        rw [← summands]
        intro other member inner isInner
        exact groups.2 inner (List.mem_flatMap.mpr ⟨other, member, isInner⟩)
      rw [summandTokens_cons, reached_acceptAll_append_cons,
        accept_first phrase.first groups.1 summand.additive]
      simp only [bind_assoc, ok_bind, conclude_summands later]
      exact congrArg _ (funext fun value => bind_ok _)

end Pending

namespace Statement

variable {settings : Settings}

/-- Under single reduction an expression has the value of its segments, if products come before
sums in all of its groups, which is nothing to ask for where there are none.  The limit may be
any that settings can have. -/
theorem value_eq_segmentedValue (single : settings.reduction = .single)
    (phrase : Phrase .expression)
    (short : ∀ literal ∈ phrase.literals, literal.length ≤ settings.literalLimit)
    (groups : ∀ inner ∈ phrase.groups, Operator.ProductsFirst inner.operators)
    {statement : String} (spaced : Spaced phrase.text statement.toList) :
    value settings statement = phrase.segmentedValue ∧
      ((∃ result, phrase.segmentedValue = .ok result ∧ ¬phrase.DividesByZero) ∨
        (phrase.segmentedValue = .error .divisionByZero ∧ phrase.DividesByZero)) := by
  refine ⟨?_, phrase.segmentedValue_cases⟩
  rw [value_eq_of_spaced settings short spaced, single]
  exact Pending.conclude_expression phrase groups

theorem value_of_two_products :
    let number (digit : Char) (plain : Literal.IsPlain [digit]) : Phrase .factor :=
      .literal [digit] plain
    let eight := number '8' (by decide)
    let six := number '6' (by decide)
    let two := number '2' (by decide)
    let phrase : Phrase .expression :=
      .sum (.sum (.sum (.term (.factor eight))
          .subtract rfl (.product (.factor two) .multiply rfl six))
          .add rfl (.factor six))
        .subtract rfl (.product (.product (.factor six) .divide rfl two) .multiply rfl two)
    let settings := { Settings.standard with reduction := .single }
    Spaced phrase.text "8 - 2*6 + 6 - 6/2*2".toList ∧
      value settings "8 - 2*6 + 6 - 6/2*2" = phrase.segmentedValue ∧
      value settings "8 - 2*6 + 6 - 6/2*2" = .ok (8.0 - (12.0 + 6.0 - 6.0)) := by
  intro number eight six two phrase settings
  have spaced : Spaced phrase.text "8 - 2*6 + 6 - 6/2*2".toList :=
    (spaced_iff (solid_text phrase)).mpr (by decide)
  have bare : phrase.groups = [] := rfl
  have groups : ∀ inner ∈ phrase.groups, Operator.ProductsFirst inner.operators := by
    simp [bare]
  exact ⟨spaced, (value_eq_segmentedValue rfl phrase (by decide) groups spaced).1,
    by decide +kernel⟩

end Statement

end Reckon
