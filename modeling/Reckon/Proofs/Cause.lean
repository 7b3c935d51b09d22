import Reckon.Proofs.Bracket
import Reckon.Proofs.Leniency
import Reckon.Proofs.Rounded
import Reckon.Proofs.Shape

/-!
# Which causes arise

A statement is rejected while it is prepared, at the end of a literal, while operands
are combined, or at the end.  Each stage has its own causes.
-/

namespace Reckon

/-- A text over digits and points that is no plain literal and fits into a limit. -/
structure Literal.IsMalformed (limit : Nat) (text : List Char) : Prop where
  nonempty : text ≠ []
  length_le : text.length ≤ limit
  alphabet : ∀ character ∈ text, character.isDigit ∨ character = '.'
  notPlain : (∀ character ∈ text, ¬character.isDigit) ∨ 2 ≤ text.count '.'

theorem Literal.isMalformed_of_read? {limit : Nat} {text : List Char} (nonempty : text ≠ [])
    (short : text.length ≤ limit)
    (alphabet : ∀ character ∈ text, character.isDigit ∨ character = '.')
    (unread : read? text = none) : IsMalformed limit text where
  nonempty := nonempty
  length_le := short
  alphabet := alphabet
  notPlain := by
    have notPlain : ¬IsPlain text := by
      rw [isPlain_iff_isSome_read? alphabet, unread]
      simp
    by_cases digit : ∃ character ∈ text, character.isDigit
    · right
      by_contra few
      exact notPlain ⟨alphabet, digit, by omega⟩
    · left
      intro character member isDigit
      exact digit ⟨character, member, isDigit⟩

namespace Rejection

/-- What settings admit of a cause. -/
def Arises (settings : Settings) : Rejection → Prop
  | foreign _ _ | literalAtBracket _ => settings.tolerance = .strict
  | malformed literal =>
      settings.tolerance = .strict ∧
        Literal.IsMalformed settings.literalLimit literal.toList
  | overlong limit => limit = settings.literalLimit
  | notBinary character => settings.reduction = .single ∧ character = '('
  | notFinite | unrounded _ => False
  | empty | comma | doubledPoint | unbalanced _ _ | divisionByZero | noOperand |
      noOperator => True

/-- The causes of pending symbols that cannot be combined or taken off. -/
def IsPendency : Rejection → Prop
  | divisionByZero | noOperand | noOperator => True
  | _ => False

theorem IsPendency.arises {cause : Rejection} (pendency : cause.IsPendency)
    (settings : Settings) : cause.Arises settings := by
  cases cause <;> trivial

end Rejection

/-! ## Literals -/

namespace Scan

variable {settings : Settings} {literal text : List Char} {cause : Rejection}

theorem refusal_followedBy_cases {first later : Scan}
    (refused : cause ∈ (first.followedBy later).refusal) :
    cause ∈ first.refusal ∨ cause ∈ later.refusal := by
  rcases first with ⟨tokens, _ | own⟩
  · exact .inr refused
  · exact .inl refused

theorem arises_ofLiteral (short : literal.length ≤ settings.literalLimit)
    (alphabet : settings.tolerance = .strict →
      ∀ character ∈ literal, character.isDigit ∨ character = '.')
    (refused : cause ∈ (ofLiteral settings.tolerance literal).refusal) :
    cause.Arises settings := by
  by_cases nonempty : literal = []
  · simp [ofLiteral, nonempty] at refused
  · simp only [ofLiteral, if_neg nonempty] at refused
    cases read : Literal.read? literal with
    | some value => simp [read, single] at refused
    | none =>
        cases tolerance : settings.tolerance with
        | lenient => simp [read, tolerance] at refused
        | strict =>
            simp only [read, tolerance, Option.mem_def, Option.some.injEq] at refused
            subst refused
            refine ⟨tolerance, ?_⟩
            rw [String.toList_ofList]
            exact Literal.isMalformed_of_read? nonempty short (alphabet tolerance) read

/-- A scan refuses only literals, each with a cause that the settings admit. -/
theorem arises_ofText (short : literal.length ≤ settings.literalLimit)
    (alphabet : settings.tolerance = .strict →
      ∀ character ∈ literal, character.isDigit ∨ character = '.')
    (native : settings.tolerance = .strict → ∀ character ∈ text, Statement.isNative character)
    (refused : cause ∈
      (ofText settings.tolerance settings.literalLimit literal text).refusal) :
    cause.Arises settings := by
  induction text generalizing literal with
  | nil => exact arises_ofLiteral short alphabet refused
  | cons character rest ih =>
      have nativeRest : settings.tolerance = .strict →
          ∀ other ∈ rest, Statement.isNative other := by
        intro strict other member
        exact native strict other (List.mem_cons_of_mem _ member)
      cases written : Symbol.ofChar? character with
      | none =>
          by_cases room : literal.length < settings.literalLimit
          · rw [ofText_of_ofChar?_eq_none written room] at refused
            have longer : (literal ++ [character]).length ≤ settings.literalLimit := by
              rw [List.length_append]
              exact room
            refine ih longer ?_ nativeRest refused
            intro strict other member
            rcases List.mem_append.mp member with member | member
            · exact alphabet strict other member
            · rw [List.mem_singleton.mp member]
              exact isDigit_or_point_of_isNative (native strict character List.mem_cons_self)
                written
          · simp only [ofText, written, if_neg room, Option.mem_def, Option.some.injEq]
              at refused
            subst refused
            rfl
      | some symbol =>
          by_cases opening : symbol = .openBracket
          · subst opening
            simp only [ofText, written] at refused
            split at refused
            · rename_i glued
              cases refused
              exact glued.1
            · rcases refusal_followedBy_cases refused with refused | refused
              · cases refused
              · exact ih short alphabet nativeRest refused
          · rw [ofText_symbol written opening] at refused
            rcases refusal_followedBy_cases refused with refused | refused
            · exact arises_ofLiteral short alphabet refused
            · rcases refusal_followedBy_cases refused with refused | refused
              · cases refused
              · exact ih (Nat.zero_le _) (by simp) nativeRest refused

end Scan

/-! ## Operands and operators -/

namespace Pending

variable {pending next : Pending} {incoming : Symbol} {reduction : Reduction}
variable {operands : List Float} {operators below : List Symbol} {cause : Rejection}

/-- To combine an opening bracket is the only failure that is not one of what is
pending. -/
theorem combine_error_cases {symbol : Symbol} (notClosing : .closeBracket ≠ symbol)
    (failed : (combine symbol pending).reached = .error cause) :
    cause.IsPendency ∨ symbol = .openBracket ∧ cause = .notBinary '(' := by
  match pending with
  | ⟨[], operators⟩ | ⟨[_], operators⟩ =>
      cases failed
      exact .inl trivial
  | ⟨right :: left :: rest, operators⟩ =>
      rw [reached_combine] at failed
      cases symbol with
      | binary operator =>
          left
          rcases Phrase.apply_cases operator left right with
            ⟨value, applied, _⟩ | ⟨refused, _⟩
          · rw [Symbol.apply, applied] at failed
            cases failed
          · rw [Symbol.apply, refused] at failed
            cases failed
            trivial
      | openBracket =>
          cases failed
          exact .inr ⟨rfl, rfl⟩
      | closeBracket => exact (notClosing rfl).elim

/-- Symbols that give way leave the ones below them. -/
theorem GivesWay.operators_suffix (gaveWay : GivesWay incoming pending next) :
    next.operators <:+ pending.operators := by
  induction gaveWay with
  | stop pending => exact List.suffix_rfl
  | combine _ _ _ ih => exact ih.trans (List.suffix_cons _ _)

theorem isPendency_of_giveWayFrom (noClosing : .closeBracket ∉ operators)
    (failed : (giveWayFrom reduction incoming operators operands).reached = .error cause) :
    cause.IsPendency := by
  induction operators generalizing operands with
  | nil => cases failed
  | cons top below ih =>
      rw [List.mem_cons, not_or] at noClosing
      cases waits : top.waitsFor incoming with
      | true =>
          rw [giveWayFrom_of_waitsFor waits] at failed
          cases failed
      | false =>
          have combined : ∀ {cause},
              (combine top ⟨operands, below⟩).reached = .error cause → cause.IsPendency := by
            intro cause failed
            rcases combine_error_cases noClosing.1 failed with pendency | ⟨rfl, _⟩
            · exact pendency
            · simp at waits
          cases reduction with
          | single =>
              rw [reached_giveWayFrom_single waits] at failed
              exact combined failed
          | eager =>
              rw [reached_giveWayFrom_eager waits, bind_eq_error_iff] at failed
              rcases failed with failed | ⟨middle, _, failed⟩
              · exact combined failed
              · exact ih noClosing.2 failed

/-- Closing brackets are never pending. -/
theorem notMem_closeBracket_of_accept {token : Token}
    (noClosing : .closeBracket ∉ pending.operators)
    (accepted : (pending.accept reduction token).reached = .ok next) :
    .closeBracket ∉ next.operators := by
  match token with
  | .operand literal value =>
      cases accepted
      exact noClosing
  | .symbol .openBracket =>
      rw [accept, Outcome.reached_done] at accepted
      cases accepted
      simpa [addSymbol] using noClosing
  | .symbol (.binary operator) =>
      rw [accept, Outcome.reached_andThen, bind_eq_ok_iff] at accepted
      rcases accepted with ⟨middle, gaveWay, added⟩
      rw [Outcome.reached_done] at added
      cases added
      have kept := (givesWay_of_giveWay gaveWay).operators_suffix.subset
      simpa [addSymbol] using fun member => noClosing (kept member)
  | .symbol .closeBracket =>
      rw [accept, Outcome.reached_andThen, bind_eq_ok_iff] at accepted
      rcases accepted with ⟨middle, gaveWay, closed⟩
      have kept := (givesWay_of_giveWay gaveWay).operators_suffix.subset
      rw [reached_close] at closed
      rcases middle with ⟨operands, _ | ⟨top, below⟩⟩
      · cases closed
      · cases closed
        exact fun member => noClosing (kept (List.mem_cons_of_mem _ member))

theorem isPendency_of_accept {token : Token} (noClosing : .closeBracket ∉ pending.operators)
    (failed : (pending.accept reduction token).reached = .error cause) :
    cause.IsPendency := by
  match token with
  | .operand literal value => cases failed
  | .symbol .openBracket => cases failed
  | .symbol (.binary operator) =>
      rw [accept, Outcome.reached_andThen, bind_eq_error_iff] at failed
      rcases failed with failed | ⟨middle, _, failed⟩
      · exact isPendency_of_giveWayFrom noClosing failed
      · cases failed
  | .symbol .closeBracket =>
      rw [accept, Outcome.reached_andThen, bind_eq_error_iff] at failed
      rcases failed with failed | ⟨middle, _, failed⟩
      · exact isPendency_of_giveWayFrom noClosing failed
      · rw [reached_close] at failed
        split at failed
        · cases failed
          trivial
        · cases failed

/-- Accepting tokens never combines a bracket. -/
theorem isPendency_of_acceptAll {tokens : List Token}
    (noClosing : .closeBracket ∉ pending.operators)
    (failed : (pending.acceptAll reduction tokens).reached = .error cause) :
    cause.IsPendency := by
  induction tokens generalizing pending with
  | nil => cases failed
  | cons token rest ih =>
      rw [reached_acceptAll_cons, bind_eq_error_iff] at failed
      rcases failed with failed | ⟨middle, accepted, failed⟩
      · exact isPendency_of_accept noClosing failed
      · exact ih (notMem_closeBracket_of_accept noClosing accepted) failed

theorem notMem_closeBracket_of_acceptAll {tokens : List Token}
    (noClosing : .closeBracket ∉ pending.operators)
    (accepted : (pending.acceptAll reduction tokens).reached = .ok next) :
    .closeBracket ∉ next.operators := by
  induction tokens generalizing pending with
  | nil =>
      cases accepted
      exact noClosing
  | cons token rest ih =>
      rw [reached_acceptAll_cons, bind_eq_ok_iff] at accepted
      rcases accepted with ⟨middle, first, accepted⟩
      exact ih (notMem_closeBracket_of_accept noClosing first) accepted

theorem isPendency_of_takeOnly (failed : pending.takeOnly.result = .error cause) :
    cause.IsPendency := by
  rw [takeOnly] at failed
  split at failed <;> cases failed <;> trivial

theorem combineAll_error_cases (noClosing : .closeBracket ∉ operators)
    (failed : (combineAll operators operands).reached = .error cause) :
    cause.IsPendency ∨ .openBracket ∈ operators ∧ cause = .notBinary '(' := by
  induction operators generalizing operands with
  | nil => cases failed
  | cons top below ih =>
      rw [List.mem_cons, not_or] at noClosing
      rw [reached_combineAll_cons, bind_eq_error_iff] at failed
      rcases failed with failed | ⟨middle, _, failed⟩
      · exact (combine_error_cases noClosing.1 failed).imp_right
          (And.imp_left fun opening => List.mem_cons.mpr (.inl opening.symm))
      · exact (ih noClosing.2 failed).imp_right (And.imp_left (List.mem_cons_of_mem top))

theorem combineToOne_error_cases (noClosing : .closeBracket ∉ operators)
    (failed : (combineToOne operators operands).reached = .error cause) :
    cause.IsPendency ∨ .openBracket ∈ operators ∧ cause = .notBinary '(' := by
  induction operators generalizing operands with
  | nil =>
      left
      match operands with
      | [] | _ :: _ :: _ =>
          cases failed
          trivial
      | [_] => cases failed
  | cons top below ih =>
      rw [List.mem_cons, not_or] at noClosing
      match operands with
      | [] =>
          cases failed
          exact .inl trivial
      | [_] => cases failed
      | right :: left :: rest =>
          rw [reached_combineToOne_cons, bind_eq_error_iff] at failed
          rcases failed with failed | ⟨middle, _, failed⟩
          · exact (combine_error_cases noClosing.1 failed).imp_right
              (And.imp_left fun opening => List.mem_cons.mpr (.inl opening.symm))
          · exact (ih noClosing.2 failed).imp_right (And.imp_left (List.mem_cons_of_mem top))

/-- At the end, an opening bracket may be left to be combined. -/
theorem conclude_error_cases (noClosing : .closeBracket ∉ pending.operators)
    (failed : (pending.conclude reduction).result = .error cause) :
    cause.IsPendency ∨ .openBracket ∈ pending.operators ∧ cause = .notBinary '(' := by
  cases reduction with
  | eager =>
      rw [result_conclude_eager, bind_eq_error_iff] at failed
      rcases failed with failed | ⟨rest, _, failed⟩
      · exact combineAll_error_cases noClosing failed
      · exact .inl (isPendency_of_takeOnly failed)
  | single =>
      rw [result_conclude_single, bind_eq_error_iff] at failed
      rcases failed with failed | ⟨rest, _, failed⟩
      · exact combineToOne_error_cases noClosing failed
      · exact .inl (isPendency_of_takeOnly failed)

end Pending

namespace Statement

variable {settings : Settings} {statement : String} {text : List Char}
variable {pending : Pending} {cause : Rejection}

theorem arises_prepare (failed : prepare settings.tolerance statement = .error cause) :
    cause.Arises settings := by
  simp only [prepare] at failed
  split at failed
  · cases failed
    trivial
  split at failed
  · cases failed
    trivial
  split at failed
  · cases failed
    trivial
  split at failed
  · cases failed
    trivial
  split at failed
  · rename_i strict _
    cases failed
    exact strict
  · cases failed

/-- Under eager reduction all groups are closed in the end, if there are as many closing
brackets as opening ones. -/
theorem notMem_openBracket_of_carriedOut (eager : settings.reduction = .eager)
    (balanced : text.count '(' = text.count ')')
    (carried : (Scan.ofText settings.tolerance settings.literalLimit [] text).carriedOut
      settings.reduction .empty = .ok pending) : .openBracket ∉ pending.operators := by
  have read : ((Machine.fresh settings).read text).reached =
      ((Scan.ofText settings.tolerance settings.literalLimit [] text).carriedOut
        settings.reduction .empty).bind fun pending =>
          .ok { Machine.fresh settings with pending } :=
    Machine.reached_read text
  rw [carried, ok_bind] at read
  have tallies := Machine.tallies_read read
  have none := tallies.eager eager
  have depth : pending.operators.count .openBracket + text.count ')' =
      0 + text.count '(' + discards ((Machine.fresh settings).read text).events :=
    tallies.depth
  rw [← List.count_eq_zero]
  omega

/-- A statement is rejected while it is prepared, for what is pending, for a literal, or for an
opening bracket that single reduction left to be combined. -/
theorem value_error_cases (failed : value settings statement = .error cause) :
    prepare settings.tolerance statement = .error cause ∨
      Admissible settings.tolerance (strip statement) ∧
        (cause.IsPendency ∨
          cause ∈ (Scan.ofText settings.tolerance settings.literalLimit []
            (strip statement)).refusal ∨
          settings.reduction = .single ∧ cause = .notBinary '(') := by
  rw [value_eq, bind_eq_error_iff] at failed
  rcases failed with failed | ⟨text, prepared, failed⟩
  · exact .inl failed
  right
  rw [prepare_eq_ok_iff] at prepared
  rcases prepared with ⟨rfl, admissible⟩
  refine ⟨admissible, ?_⟩
  rw [bind_eq_error_iff] at failed
  rcases failed with failed | ⟨pending, carried, failed⟩
  · rw [Scan.carriedOut, bind_eq_error_iff] at failed
    rcases failed with failed | ⟨pending, _, failed⟩
    · exact .inl (Pending.isPendency_of_acceptAll (by simp [Pending.empty]) failed)
    · split at failed
      · cases failed
      · rename_i other refused
        cases failed
        exact .inr (.inl refused)
  · have accepted := (Scan.carriedOut_eq_ok_iff.mp carried).2
    have noClosing := Pending.notMem_closeBracket_of_acceptAll (by simp [Pending.empty])
      accepted
    rcases Pending.conclude_error_cases noClosing failed with pendency | ⟨opening, rfl⟩
    · exact .inl pendency
    · cases reduction : settings.reduction with
      | single => exact .inr (.inr ⟨rfl, rfl⟩)
      | eager =>
          exact absurd opening
            (notMem_openBracket_of_carriedOut reduction admissible.balanced carried)

theorem arises_value (failed : value settings statement = .error cause) :
    cause.Arises settings := by
  rcases value_error_cases failed with prepared | ⟨admissible, pendency | refused | bracket⟩
  · exact arises_prepare prepared
  · exact pendency.arises settings
  · exact Scan.arises_ofText (Nat.zero_le _) (by simp) admissible.native refused
  · rcases bracket with ⟨single, rfl⟩
    exact ⟨single, rfl⟩

/-- Rendering adds one cause, and it is not that of rounding. -/
theorem evaluate_error_cases (failed : evaluate settings statement = .error cause) :
    value settings statement = .error cause ∨ cause = .notFinite := by
  rw [evaluate, bind_eq_error_iff] at failed
  rcases failed with failed | ⟨result, _, failed⟩
  · exact .inl failed
  · right
    cases rounded : roundAway settings.precision result with
    | error other =>
        rw [render, rounded] at failed
        cases failed
        exact (roundAway_eq_error_iff.mp rounded).2
    | ok other =>
        rw [render, rounded] at failed
        cases failed

/-- The causes that a statement can be rejected with.  Brackets are only combined under
single reduction, and then only opening ones; a value is never rejected for not being
finite, and a rounded value can always be read; causes carry the limit and the literal
that they are about; and leniency has none of the causes that are only strict. -/
theorem causes_of_rejection (settings : Settings) (statement : String) :
    (settings.reduction = .eager →
      ∀ character, value settings statement ≠ .error (.notBinary character)) ∧
    (∀ character, value settings statement = .error (.notBinary character) →
      character = '(') ∧
    value settings statement ≠ .error .notFinite ∧
    (∀ reason, value settings statement ≠ .error (.unrounded reason) ∧
      evaluate settings statement ≠ .error (.unrounded reason)) ∧
    (∀ result, value settings statement = .ok result → Binary64.isFinite result →
      settings.precision < (Numeral.shortest (Binary64.code result)).places →
        ∃ rounded, Literal.read? (roundedText settings.precision result) = some rounded ∧
          roundAway settings.precision result = .ok rounded) ∧
    (∀ limit, value settings statement = .error (.overlong limit) →
      limit = settings.literalLimit) ∧
    (settings.tolerance = .strict →
      ∀ literal, value settings statement = .error (.malformed literal) →
        Literal.IsMalformed settings.literalLimit literal.toList) ∧
    (settings.tolerance = .lenient →
      ∀ cause, value settings statement = .error cause → ¬cause.IsStrictOnly) := by
  refine ⟨?_, ?_, ?_, ?_, ?_, ?_, ?_, ?_⟩
  · intro eager character failed
    have single := (arises_value failed).1
    rw [eager] at single
    cases single
  · intro character failed
    exact (arises_value failed).2
  · exact arises_value
  · intro reason
    refine ⟨arises_value, fun failed => ?_⟩
    rcases evaluate_error_cases failed with failed | other
    · exact arises_value failed
    · cases other
  · intro result _ finite long
    exact exists_read?_roundedText finite long
  · intro limit failed
    exact arises_value failed
  · intro _ literal failed
    exact (arises_value failed).2
  · intro lenient cause failed strictOnly
    have strict : settings.tolerance = .strict := by
      have arises := arises_value failed
      cases cause with
      | foreign position character => exact arises
      | literalAtBracket literal => exact arises
      | malformed literal => exact arises.1
      | _ => cases strictOnly
    rw [lenient] at strict
    cases strict

theorem causes_of_literals_and_rounding :
    let narrow : Settings :=
      { Settings.forgiving with literalLimit := 2, limit_le := by decide }
    value .standard "1 + 1.2.3" = .error (.malformed "1.2.3") ∧
      Literal.IsMalformed 64 "1.2.3".toList ∧
    value narrow "2 + 345" = .error (.overlong 2) ∧
      ¬(Rejection.overlong 2).IsStrictOnly ∧
    value .standard ".1 + .2" = .ok 0.30000000000000004 ∧
      ∃ rounded, Literal.read? (roundedText 4 0.30000000000000004) = some rounded ∧
        roundAway 4 0.30000000000000004 = .ok rounded := by
  intro narrow
  have malformed : value .standard "1 + 1.2.3" = .error (.malformed "1.2.3") := by
    decide +kernel
  have overlong : value narrow "2 + 345" = .error (.overlong 2) := by
    decide +kernel
  have long : value .standard ".1 + .2" = .ok 0.30000000000000004 := by
    decide +kernel
  rcases causes_of_rejection .standard "1 + 1.2.3" with ⟨_, _, _, _, _, _, strict, _⟩
  rcases causes_of_rejection narrow "2 + 345" with ⟨_, _, _, _, _, _, _, lenient⟩
  rcases causes_of_rejection .standard ".1 + .2" with ⟨_, _, _, _, rounds, _, _, _⟩
  exact ⟨malformed, strict rfl _ malformed, overlong, lenient rfl _ overlong, long,
    rounds _ long (by decide +kernel) (by decide +kernel)⟩

/-- A bracket can be combined: its closing bracket took the addition off instead. -/
example : value { Settings.standard with reduction := .single } "(1+2*3)" =
    .error (.notBinary '(') := by
  decide +kernel

end Statement

end Reckon
