import Reckon.Proofs.Admissible
import Reckon.Proofs.Balance

/-!
# The shape of accepted statements

A strict statement that has a value under eager reduction is a phrase, with one
exception: behind a closing bracket, nothing keeps another operand from coming
next.  An operand there makes up for one that is missing somewhere else, as in
`()1` or `1+(2+)3`.
-/

namespace Reckon

namespace Phrase

/-- A phrase, an operator and one more factor. -/
def extend : Phrase .expression → Operator → Phrase .factor → Phrase .expression
  | term left, operator, right =>
      if additive : operator.isAdditive = true then
        sum (term left) operator additive (factor right)
      else
        term (product left operator (by simpa using additive) right)
  | sum first join joins left, operator, right =>
      if additive : operator.isAdditive = true then
        sum (sum first join joins left) operator additive (factor right)
      else
        sum first join joins (product left operator (by simpa using additive) right)

theorem text_extend (left : Phrase .expression) (operator : Operator)
    (right : Phrase .factor) :
    (left.extend operator right).text = left.text ++ operator.toChar :: right.text := by
  cases left with
  | term left =>
      rw [extend]
      split <;> rfl
  | sum first join joins left =>
      rw [extend]
      split
      · rfl
      · simp [text]

end Phrase

/-! ## Tokens and their texts -/

/-- Whether an operand begins with a character. -/
def startsOperand (character : Char) : Bool :=
  character.isDigit || character = '.' || character = '('

/-- Neighbours that are not a closing bracket and the beginning of an operand. -/
def Apart (left right : Char) : Prop :=
  ¬(left = ')' ∧ startsOperand right)

instance : DecidableRel Apart :=
  fun left right => inferInstanceAs (Decidable ¬(left = ')' ∧ startsOperand right))

namespace Token

/-- The characters of a token. -/
def text : Token → List Char
  | operand literal _ => literal
  | symbol written => [written.toChar]

/-- Operands are plain literals. -/
def IsPlain : Token → Prop
  | operand literal _ => Literal.IsPlain literal
  | symbol _ => True

def startsOperand : Token → Bool
  | operand _ _ | symbol .openBracket => true
  | symbol .closeBracket | symbol (.binary _) => false

def endsOperand : Token → Bool
  | operand _ _ | symbol .closeBracket => true
  | symbol .openBracket | symbol (.binary _) => false

/-- No operand begins where another one has just ended. -/
def Separated : (ended : Bool) → List Token → Prop
  | _, [] => True
  | ended, token :: rest =>
      (ended → token.startsOperand = false) ∧ Separated token.endsOperand rest

end Token

/-- Tokens with a text, to be read behind the end of an operand or not. -/
structure Spells (ended : Bool) (tokens : List Token) (text : List Char) : Prop where
  text_eq : tokens.flatMap Token.text = text
  plain : ∀ token ∈ tokens, token.IsPlain
  separated : Token.Separated ended tokens

theorem Spells.cons {ended : Bool} (token : Token) {tokens : List Token}
    {text : List Char} (plain : token.IsPlain)
    (separate : ended → token.startsOperand = false)
    (rest : Spells token.endsOperand tokens text) :
    Spells ended (token :: tokens) (token.text ++ text) where
  text_eq := by
    rw [List.flatMap_cons, rest.text_eq]
  plain := by
    intro other member
    rcases List.mem_cons.mp member with rfl | member
    · exact plain
    · exact rest.plain other member
  separated := ⟨separate, rest.separated⟩

namespace Scan

variable {limit : Nat} {literal text : List Char}

theorem refusal_followedBy {first later : Scan}
    (complete : (first.followedBy later).refusal = none) :
    first.refusal = none ∧ later.refusal = none ∧
      (first.followedBy later).tokens = first.tokens ++ later.tokens := by
  rcases first with ⟨tokens, _ | cause⟩
  · exact ⟨rfl, complete, rfl⟩
  · cases complete

/-- A strict scan without refusal has made an operand of every literal. -/
theorem ofLiteral_strict_cases (complete : (ofLiteral .strict literal).refusal = none) :
    (literal = [] ∧ (ofLiteral .strict literal).tokens = []) ∨
      ∃ value, Literal.read? literal = some value ∧
        (ofLiteral .strict literal).tokens = [.operand literal value] := by
  by_cases empty : literal = []
  · left
    rw [empty]
    exact ⟨rfl, rfl⟩
  · right
    simp only [ofLiteral, if_neg empty] at complete ⊢
    cases read : Literal.read? literal with
    | some value => exact ⟨value, rfl, rfl⟩
    | none =>
        rw [read] at complete
        cases complete

end Scan

theorem isDigit_or_point_of_isNative {character : Char}
    (native : Statement.isNative character)
    (noSymbol : Symbol.ofChar? character = none) :
    character.isDigit ∨ character = '.' := by
  simp only [Statement.isNative, Bool.or_eq_true, List.contains_iff_mem, List.mem_cons,
    List.not_mem_nil, or_false] at native
  rcases native with digit | rfl | rfl | rfl | rfl | rfl | rfl | rfl
  · exact .inl digit
  · exact .inr rfl
  all_goals cases noSymbol

theorem startsOperand_of_alphabet {character : Char}
    (alphabet : character.isDigit ∨ character = '.') : startsOperand character := by
  rcases alphabet with digit | rfl
  · simp [startsOperand, digit]
  · rfl

/-- A literal may stand in front of whatever can stand behind an operand. -/
theorem Spells.literal {literal text : List Char} {tokens : List Token} {ended : Bool}
    (complete : (Scan.ofLiteral .strict literal).refusal = none)
    (alphabet : ∀ character ∈ literal, character.isDigit ∨ character = '.')
    (between : ended → literal = []) (rest : ∀ ended, Spells ended tokens text) :
    Spells ended ((Scan.ofLiteral .strict literal).tokens ++ tokens)
      (literal ++ text) := by
  rcases Scan.ofLiteral_strict_cases complete with
    ⟨rfl, none⟩ | ⟨value, read, only⟩
  · rw [none]
    exact rest ended
  · have plain : Literal.IsPlain literal := by
      rw [Literal.isPlain_iff_isSome_read? alphabet, read]
      rfl
    rw [only]
    exact .cons (.operand literal value) plain
      (fun isEnded => absurd (between isEnded) plain.ne_nil) (rest _)

/-- The strict scan of a text spells it, if it is complete and no operand begins
right behind a closing bracket. -/
theorem Scan.spells_ofText {limit : Nat} {literal text : List Char} {ended : Bool}
    (complete : (ofText .strict limit literal text).refusal = none)
    (alphabet : ∀ character ∈ literal, character.isDigit ∨ character = '.')
    (native : ∀ character ∈ text, Statement.isNative character)
    (apart : text.IsChain Apart)
    (between : ended → literal = [] ∧
      ∀ character ∈ text.head?, startsOperand character = false) :
    Spells ended (ofText .strict limit literal text).tokens (literal ++ text) := by
  induction text generalizing literal ended with
  | nil =>
      rw [ofText] at complete ⊢
      have nothing : ∀ ended, Spells ended [] [] := by
        intro ended
        exact ⟨rfl, by simp, trivial⟩
      have spells := Spells.literal complete alphabet
        (fun isEnded => (between isEnded).1) nothing
      rwa [List.append_nil] at spells
  | cons character rest ih =>
      have nativeRest : ∀ other ∈ rest, Statement.isNative other := by
        intro other member
        exact native other (List.mem_cons_of_mem _ member)
      have apartRest : rest.IsChain Apart := apart.tail
      cases written : Symbol.ofChar? character with
      | none =>
          have own := isDigit_or_point_of_isNative (native character List.mem_cons_self)
            written
          by_cases room : literal.length < limit
          · rw [ofText_of_ofChar?_eq_none written room] at complete ⊢
            have longer : ∀ other ∈ literal ++ [character],
                other.isDigit ∨ other = '.' := by
              intro other member
              rcases List.mem_append.mp member with member | member
              · exact alphabet other member
              · rwa [List.mem_singleton.mp member]
            have notEnded : ¬ended := by
              intro isEnded
              have := (between isEnded).2 character rfl
              rw [startsOperand_of_alphabet own] at this
              cases this
            have spells : Spells ended _ (literal ++ [character] ++ rest) :=
              ih complete longer nativeRest apartRest fun isEnded => (notEnded isEnded).elim
            rwa [List.append_assoc] at spells
          · simp [ofText, written, room] at complete
      | some symbol =>
          rw [Symbol.ofChar?_eq_some_iff] at written
          subst written
          by_cases opening : symbol = .openBracket
          · subst opening
            by_cases empty : literal = []
            · subst empty
              have complete := (refusal_followedBy (ofText_openBracket ▸ complete)).2.1
              rw [Symbol.toChar, ofText_openBracket]
              apply Spells.cons (.symbol .openBracket) trivial
              · intro isEnded
                have := (between isEnded).2 '(' rfl
                cases this
              · exact ih complete (by simp) nativeRest apartRest
                  (by simp [Token.endsOperand])
            · simp [ofText, empty, Symbol.toChar, Symbol.ofChar?] at complete
          · rw [ofText_symbol (Symbol.ofChar?_toChar symbol) opening] at complete ⊢
            rcases refusal_followedBy complete with ⟨first, complete, tokens⟩
            rw [tokens]
            apply Spells.literal first alphabet fun isEnded => (between isEnded).1
            intro ended
            apply Spells.cons (.symbol symbol) trivial
            · intro _
              cases symbol with
              | openBracket => exact (opening rfl).elim
              | binary operator => rfl
              | closeBracket => rfl
            · apply ih complete (by simp) nativeRest apartRest
              intro closing
              refine ⟨rfl, fun next isFirst => ?_⟩
              cases symbol with
              | openBracket => cases closing
              | binary operator => cases closing
              | closeBracket =>
                  have neighbours := apart.rel_head? isFirst
                  simpa [Apart, Symbol.toChar] using neighbours

/-! ## Phrases under way -/

/-- What stands in front of a factor in its group. -/
inductive Opening where
  | start
  | behind (left : Phrase .expression) (operator : Operator)

namespace Opening

def text : Opening → List Char
  | start => []
  | behind left operator => left.text ++ [operator.toChar]

/-- The phrase that comes of the factor. -/
def fill : Opening → Phrase .factor → Phrase .expression
  | start, right => .term (.factor right)
  | behind left operator, right => left.extend operator right

theorem text_fill (before : Opening) (right : Phrase .factor) :
    (before.fill right).text = before.text ++ right.text := by
  cases before with
  | start => rfl
  | behind left operator => simp [fill, text, Phrase.text_extend]

/-- The text up to an open group that is nested in others, innermost first. -/
def outerText : List Opening → List Char
  | [] => []
  | before :: outer => outerText outer ++ before.text ++ ['(']

end Opening

/-- A phrase of which a part has been read: what stands in front of the open
groups, innermost first, and of the innermost one what stands in front of the
next factor, or a phrase. -/
inductive Sketch where
  | awaiting (outer : List Opening) (before : Opening)
  | complete (outer : List Opening) (phrase : Phrase .expression)

namespace Sketch

def text : Sketch → List Char
  | awaiting outer before => Opening.outerText outer ++ before.text
  | complete outer phrase => Opening.outerText outer ++ phrase.text

def ended : Sketch → Bool
  | awaiting _ _ => false
  | complete _ _ => true

/-- A complete phrase has one operand in excess. -/
def balance : Sketch → Balance
  | awaiting outer _ => ⟨0, outer.length⟩
  | complete outer _ => ⟨1, outer.length⟩

/-- A token continues a sketch if it leaves enough operands. -/
theorem exists_next {sketch : Sketch} {token : Token} {after : Balance}
    (plain : token.IsPlain) (separate : sketch.ended → token.startsOperand = false)
    (shifts : token.Shifts sketch.balance after)
    (enough : (if token.endsOperand then 1 else 0) ≤ after.excess) :
    ∃ next : Sketch, next.text = sketch.text ++ token.text ∧
      next.ended = token.endsOperand ∧ next.balance = after := by
  cases sketch with
  | awaiting outer before =>
      cases token with
      | operand literal value =>
          refine ⟨.complete outer (before.fill (.literal literal plain)), ?_, rfl, ?_⟩
          · simp [text, Opening.text_fill, Phrase.text, Token.text]
          · exact shifts.symm
      | symbol written =>
          cases written with
          | openBracket =>
              refine ⟨.awaiting (before :: outer) .start, ?_, rfl, ?_⟩
              · simp [text, Opening.outerText, Opening.text, Token.text, Symbol.toChar]
              · exact shifts.symm
          | closeBracket =>
              have none : (0 : Int) = after.excess := congrArg Balance.excess shifts
              rw [← none] at enough
              cases enough
          | binary operator =>
              have fewer : after = ⟨0 - 1, outer.length⟩ := shifts
              rw [fewer] at enough
              cases enough
  | complete outer phrase =>
      cases token with
      | operand literal value => cases separate rfl
      | symbol written =>
          cases written with
          | openBracket => cases separate rfl
          | closeBracket =>
              have excess : (1 : Int) = after.excess := congrArg Balance.excess shifts
              have depth : outer.length = after.depth + 1 :=
                congrArg Balance.depth shifts
              cases outer with
              | nil => cases depth
              | cons before outer =>
                  refine ⟨.complete outer (before.fill (.group phrase)), ?_, rfl, ?_⟩
                  · simp [text, Opening.outerText, Opening.text_fill, Phrase.text,
                      Token.text, Symbol.toChar]
                  · exact Balance.ext excess (Nat.succ.inj depth)
          | binary operator =>
              refine ⟨.awaiting outer (.behind phrase operator), ?_, rfl, ?_⟩
              · simp [text, Opening.text, Token.text, Symbol.toChar]
              · exact shifts.symm

end Sketch

section Runs

variable {tokens : List Token} {pending next : Pending} {result : Float}

/-- Behind an operand, at least one is in excess: what is missing earlier cannot be
made up for later. -/
theorem le_excess_of_conclude {ended : Bool} (separated : Token.Separated ended tokens)
    (accepted : (pending.acceptAll .eager tokens).reached = .ok next)
    (concluded : (next.conclude .eager).result = .ok result) :
    (if ended then 1 else 0) ≤ pending.balance.excess := by
  induction tokens generalizing ended pending with
  | nil =>
      cases accepted
      have last : pending.balance = ⟨1, 0⟩ := Pending.balance_of_conclude concluded
      rw [last]
      cases ended <;> decide
  | cons token rest ih =>
      rw [Pending.reached_acceptAll_cons, bind_eq_ok_iff] at accepted
      rcases accepted with ⟨middle, first, accepted⟩
      have enough := ih separated.2 accepted
      have shifts := Pending.shifts_accept first
      have notEnded : token.startsOperand = true → ended = false := by
        intro starts
        cases ended with
        | false => rfl
        | true => exact absurd starts (by simp [separated.1 rfl])
      match token with
      | .operand literal value =>
          have grows : middle.balance.excess = pending.balance.excess + 1 :=
            congrArg Balance.excess shifts
          rw [notEnded rfl]
          simp only [Token.endsOperand, if_true] at enough
          simp only [Bool.false_eq_true, if_false]
          omega
      | .symbol .openBracket =>
          have same := congrArg Balance.excess shifts
          rw [notEnded rfl, ← same]
          exact enough
      | .symbol .closeBracket =>
          have same := congrArg Balance.excess shifts
          rw [same]
          refine Int.le_trans ?_ enough
          cases ended <;> decide
      | .symbol (.binary operator) =>
          have shrinks : middle.balance.excess = pending.balance.excess - 1 :=
            congrArg Balance.excess shifts
          simp only [Token.endsOperand, Bool.false_eq_true, if_false] at enough
          split <;> omega

/-- Tokens that continue a sketch to a value complete it to a phrase. -/
theorem exists_phrase_of_conclude {sketch : Sketch}
    (plain : ∀ token ∈ tokens, token.IsPlain)
    (separated : Token.Separated sketch.ended tokens)
    (balance : pending.balance = sketch.balance)
    (accepted : (pending.acceptAll .eager tokens).reached = .ok next)
    (concluded : (next.conclude .eager).result = .ok result) :
    ∃ phrase : Phrase .expression,
      phrase.text = sketch.text ++ tokens.flatMap Token.text := by
  induction tokens generalizing sketch pending with
  | nil =>
      cases accepted
      have last : pending.balance = ⟨1, 0⟩ := Pending.balance_of_conclude concluded
      rw [last] at balance
      match sketch with
      | .awaiting outer before => cases balance
      | .complete [] phrase => exact ⟨phrase, (List.append_nil _).symm⟩
      | .complete (before :: outer) phrase => cases balance
  | cons token rest ih =>
      rw [Pending.reached_acceptAll_cons, bind_eq_ok_iff] at accepted
      rcases accepted with ⟨middle, first, accepted⟩
      have enough := le_excess_of_conclude separated.2 accepted concluded
      have continues := Sketch.exists_next (plain token List.mem_cons_self) separated.1
        (balance ▸ Pending.shifts_accept first) enough
      rcases continues with ⟨continued, text, ended, balanced⟩
      rw [List.flatMap_cons, ← List.append_assoc, ← text]
      exact ih (fun other member => plain other (List.mem_cons_of_mem _ member))
        (ended ▸ separated.2) balanced.symm accepted

end Runs

namespace Statement

/-- In a phrase, no operand begins right behind a closing bracket. -/
theorem isChain_apart_text {level : Level} (phrase : Phrase level) :
    phrase.text.IsChain Apart := by
  apply phrase.isChain_text
  · intro text plain
    rw [List.isChain_iff_forall_rel_of_append_cons_cons]
    rintro first second front back rfl ⟨rfl, _⟩
    have := plain.alphabet ')' (by simp)
    simp at this
  · intro operator character glued
    exact (Phrase.toChar_ne_bracket operator).2 glued.1
  · intro character operator glued
    cases operator <;> cases glued.2
  · intro character glued
    cases glued.1
  · intro character glued
    cases glued.2

theorem isChain_apart_iff {text : List Char} :
    text.IsChain Apart ↔
      ∀ character, startsOperand character → ¬[')', character] <:+: text := by
  rw [List.isChain_iff_forall_rel_of_append_cons_cons]
  constructor
  · intro apart character starts glued
    rcases glued with ⟨front, back, rfl⟩
    exact apart (List.append_assoc front [')', character] back) ⟨rfl, starts⟩
  · rintro apart first second front back rfl ⟨rfl, starts⟩
    exact apart second starts ⟨front, back, List.append_assoc front [')', second] back⟩

variable {settings : Settings} {statement : String} {result : Float}

/-- Among the strict statements that have a value under eager reduction, the
phrases are those in which no operand begins right behind a closing bracket. -/
theorem exists_phrase_iff (strict : settings.tolerance = .strict)
    (eager : settings.reduction = .eager)
    (accepted : value settings statement = .ok result) :
    (∃ phrase : Phrase .expression, phrase.text = strip statement) ↔
      ∀ character, startsOperand character →
        ¬[')', character] <:+: strip statement := by
  rw [← isChain_apart_iff]
  constructor
  · intro derived
    rcases derived with ⟨phrase, text⟩
    exact text ▸ isChain_apart_text phrase
  · intro apart
    rw [value_eq_ok_iff, strict, eager] at accepted
    rcases accepted with ⟨admissible, pending, carried, concluded⟩
    rcases Scan.carriedOut_eq_ok_iff.mp carried with ⟨complete, accepted⟩
    have spells : Spells false _ ([] ++ strip statement) :=
      Scan.spells_ofText complete (by simp) (admissible.native rfl) apart (by simp)
    have separated : Token.Separated (Sketch.awaiting [] .start).ended _ :=
      spells.separated
    obtain ⟨phrase, text⟩ :=
      exists_phrase_of_conclude spells.plain separated rfl accepted concluded
    exact ⟨phrase, text.trans spells.text_eq⟩

theorem exists_phrase_quotient :
    value .standard "(1 + 2) / .5" = .ok 6.0 ∧
      ∃ phrase : Phrase .expression, phrase.text = strip "(1 + 2) / .5" := by
  have accepted : value .standard "(1 + 2) / .5" = .ok 6.0 := by decide +kernel
  exact ⟨accepted, (exists_phrase_iff rfl rfl accepted).mpr
    (isChain_apart_iff.mp (by decide))⟩

/-- An addition inside brackets takes its first operand from outside. -/
theorem exists_value_not_phrase :
    value .standard "1+(2+)3" = .ok 6.0 ∧
      ¬∃ phrase : Phrase .expression, phrase.text = strip "1+(2+)3" := by
  refine ⟨by decide +kernel, ?_⟩
  intro derived
  rcases derived with ⟨phrase, text⟩
  have apart := isChain_apart_text phrase
  rw [text] at apart
  exact absurd apart (by decide)

end Statement

end Reckon
