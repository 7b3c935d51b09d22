import Reckon.Proofs.Admissible

/-!
# What leniency adds

The tolerance matters in three places: foreign characters, literals that run into an
opening bracket, and literals that cannot be read.  In each of them a strict evaluation
ends, with a cause of its own.  So a lenient evaluation goes its own way only where the
strict one is over, and wherever the strict one ends otherwise they end alike.
-/

namespace Reckon

/-- The causes that only strict settings give. -/
def Rejection.IsStrictOnly : Rejection → Prop
  | foreign _ _ | literalAtBracket _ | malformed _ => True
  | _ => False

section Results

variable {Value Result : Type}

/-- A lenient result next to a strict one: they are the same, unless the strict one is
a rejection that only strict settings give. -/
def Relaxes (strict lenient : Except Rejection Value) : Prop :=
  lenient = strict ∨ ∃ cause, strict = .error cause ∧ cause.IsStrictOnly

theorem Relaxes.refl (result : Except Rejection Value) : Relaxes result result :=
  AgreesUnless.refl _ result

theorem Relaxes.bind {strict lenient : Except Rejection Value}
    {strictNext lenientNext : Value → Except Rejection Result}
    (first : Relaxes strict lenient)
    (next : ∀ value, Relaxes (strictNext value) (lenientNext value)) :
    Relaxes (strict.bind strictNext) (lenient.bind lenientNext) :=
  AgreesUnless.bind first next

end Results

namespace Scan

variable {limit : Nat} {reduction : Reduction}

theorem relaxes_ofLiteral (literal : List Char) (pending : Pending) :
    Relaxes ((ofLiteral .strict literal).carriedOut reduction pending)
      ((ofLiteral .lenient literal).carriedOut reduction pending) := by
  by_cases empty : literal = []
  · subst empty
    exact .refl _
  · simp only [ofLiteral, if_neg empty]
    cases Literal.read? literal with
    | some value => exact .refl _
    | none => exact .inr ⟨_, rfl, trivial⟩

/-- The two scans of a text are carried out alike until the strict one ends in a refusal
of its own. -/
theorem relaxes_ofText (literal text : List Char) (pending : Pending) :
    Relaxes ((ofText .strict limit literal text).carriedOut reduction pending)
      ((ofText .lenient limit literal text).carriedOut reduction pending) := by
  induction text generalizing literal pending with
  | nil => exact relaxes_ofLiteral literal pending
  | cons character rest ih =>
      cases written : Symbol.ofChar? character with
      | none =>
          by_cases room : literal.length < limit
          · rw [ofText_of_ofChar?_eq_none written room, ofText_of_ofChar?_eq_none written room]
            exact ih (literal ++ [character]) pending
          · simp only [ofText, written, if_neg room]
            exact .refl _
      | some symbol =>
          by_cases opening : symbol = .openBracket
          · subst opening
            simp only [ofText, written, true_and, reduceCtorEq, false_and, if_false]
            split
            · exact .inr ⟨_, rfl, trivial⟩
            · rw [carriedOut_followedBy, carriedOut_followedBy]
              exact (Relaxes.refl _).bind fun pending => ih literal pending
          · rw [ofText_symbol written opening, ofText_symbol written opening]
            simp only [carriedOut_followedBy]
            exact (relaxes_ofLiteral literal pending).bind fun pending =>
              (Relaxes.refl _).bind fun pending => ih [] pending

end Scan

namespace Statement

theorem relaxes_prepare (statement : String) :
    Relaxes (prepare .strict statement) (prepare .lenient statement) := by
  simp only [prepare]
  split
  · exact .refl _
  split
  · exact .refl _
  split
  · exact .refl _
  split
  · exact .refl _
  cases firstForeign? (strip statement) with
  | none => exact .refl _
  | some foreign => exact .inr ⟨_, rfl, trivial⟩

theorem relaxes_value (settings : Settings) (statement : String) :
    Relaxes (value { settings with tolerance := .strict } statement)
      (value { settings with tolerance := .lenient } statement) := by
  rw [value_eq { settings with tolerance := .strict },
    value_eq { settings with tolerance := .lenient }]
  exact (relaxes_prepare statement).bind fun text =>
    (Scan.relaxes_ofText [] text .empty).bind fun pending => .refl _

/-- A strict evaluation that does not end in a cause of its own ends as a lenient one
does. -/
theorem value_lenient_eq_value_strict (settings : Settings) (statement : String)
    (otherCause : ∀ cause,
      value { settings with tolerance := .strict } statement = .error cause →
        ¬cause.IsStrictOnly) :
    value { settings with tolerance := .lenient } statement =
      value { settings with tolerance := .strict } statement := by
  rcases relaxes_value settings statement with same | ⟨cause, rejected, strictOnly⟩
  · exact same
  · exact (otherCause cause rejected strictOnly).elim

theorem overlong_lenient_eq_strict :
    let narrow : Settings :=
      { Settings.standard with literalLimit := 3, limit_le := by decide }
    value narrow "1 + 2345" = .error (.overlong 3) ∧
      value { narrow with tolerance := .lenient } "1 + 2345" = .error (.overlong 3) := by
  intro narrow
  have rejected : value narrow "1 + 2345" = .error (.overlong 3) := by
    decide +kernel
  refine ⟨rejected, ?_⟩
  rw [← rejected]
  apply value_lenient_eq_value_strict narrow
  intro cause same
  cases rejected.symm.trans same
  exact id

/-- A literal that runs into an opening bracket goes on behind it. -/
example : value .standard "2(3)" = .error (.literalAtBracket "2") ∧
    value { Settings.standard with tolerance := .lenient } "2(3)" = .ok 23.0 := by
  decide +kernel

end Statement

end Reckon
