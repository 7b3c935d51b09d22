import Reckon.Proofs.Cause
import Reckon.Proofs.Objection
import Reckon.Proofs.Piece

/-!
# The literal limit

A larger limit only lets longer literals through.  Two evaluations that differ in the limit go
the same way until a literal exceeds the smaller one, which ends that evaluation with a cause of
its own; and a literal that exceeds the limit is a long run of characters between symbols, where
opening brackets do not count.  All this is about limits for which there is a draft; beyond them
no statement is read at all.
-/

namespace Reckon

variable {limit larger exceeded : Nat} {tolerance : Tolerance} {reduction : Reduction}
variable {literal text : List Char}

namespace Scan

/-- The scans of a text with two limits are carried out alike until a literal exceeds the
smaller one. -/
theorem agrees_ofText (le : limit ≤ larger) (literal text : List Char) (pending : Pending) :
    AgreesUnless (· = .overlong limit)
      ((ofText tolerance limit literal text).carriedOut reduction pending)
      ((ofText tolerance larger literal text).carriedOut reduction pending) := by
  induction text generalizing literal pending with
  | nil => exact .refl _ _
  | cons character rest ih =>
      cases written : Symbol.ofChar? character with
      | none =>
          by_cases room : literal.length < limit
          · rw [ofText_of_ofChar?_eq_none written room,
              ofText_of_ofChar?_eq_none written (room.trans_le le)]
            exact ih (literal ++ [character]) pending
          · -- Here the smaller limit ends its run; the other one no longer matters.
            right
            simp only [ofText, written, if_neg room]
            exact ⟨_, rfl, rfl⟩
      | some symbol =>
          by_cases opening : symbol = .openBracket
          · subst opening
            simp only [ofText, written]
            split
            · exact .refl _ _
            · rw [carriedOut_followedBy, carriedOut_followedBy]
              exact (AgreesUnless.refl _ _).bind fun pending => ih literal pending
          · rw [ofText_symbol written opening, ofText_symbol written opening]
            simp only [carriedOut_followedBy]
            exact (AgreesUnless.refl _ _).bind fun pending =>
              (AgreesUnless.refl _ _).bind fun pending => ih [] pending

/-- The end of a literal does not refuse it for its length. -/
theorem overlong_notMem_refusal_ofLiteral :
    .overlong exceeded ∉ (ofLiteral tolerance literal).refusal := by
  intro refused
  simp only [ofLiteral] at refused
  split at refused
  · cases refused
  split at refused
  · cases refused
  · cases tolerance with
    | strict => cases refused
    | lenient => cases refused

/-- A literal that exceeds the limit is a run of more characters without symbols. -/
theorem exists_run_of_overlong (plain : SymbolFree literal)
    (refused : .overlong exceeded ∈ (ofText tolerance limit literal text).refusal) :
    ∃ run, run <:+: literal ++ text.filter (· ≠ '(') ∧ limit < run.length ∧ SymbolFree run := by
  induction text generalizing literal with
  | nil => exact (overlong_notMem_refusal_ofLiteral refused).elim
  | cons character rest ih =>
      cases written : Symbol.ofChar? character with
      | none =>
          have plainLonger : SymbolFree (literal ++ [character]) := by
            intro other member
            rcases List.mem_append.mp member with member | member
            · exact plain other member
            · exact List.mem_singleton.mp member ▸ written
          rw [filter_ne_openBracket_cons (ne_openBracket_of_plain written),
            List.append_cons literal]
          by_cases room : literal.length < limit
          · rw [ofText_of_ofChar?_eq_none written room] at refused
            exact ih plainLonger refused
          · refine ⟨literal ++ [character], List.infix_append' [] _ _, ?_, plainLonger⟩
            rw [List.length_append]
            exact Nat.lt_succ_of_le (Nat.le_of_not_lt room)
      | some symbol =>
          by_cases opening : symbol = .openBracket
          · subst opening
            cases Symbol.ofChar?_eq_some_iff.mp written
            simp only [ofText, written] at refused
            split at refused
            · cases refused
            · rcases refusal_followedBy_cases refused with refused | refused
              · cases refused
              · exact ih plain refused
          · rw [ofText_symbol written opening] at refused
            have ends := endsPiece_of_symbol written opening
            rcases refusal_followedBy_cases refused with refused | refused
            · exact (overlong_notMem_refusal_ofLiteral refused).elim
            rcases refusal_followedBy_cases refused with refused | refused
            · cases refused
            rcases ih (by simp [SymbolFree]) refused with ⟨run, isInfix, longer, plainRun⟩
            refine ⟨run, isInfix.trans ?_, longer, plainRun⟩
            rw [filter_ne_openBracket_cons (ne_openBracket_of_endsPiece ends),
              List.append_cons literal]
            exact (List.suffix_append _ _).isInfix

end Scan

namespace Statement

variable {settings : Settings} {statement : String}

/-- Evaluations with two limits end alike unless a literal exceeds the smaller one. -/
theorem agrees_value (le : settings.literalLimit ≤ larger)
    (limit_le : larger ≤ Draft.largestCapacity) (statement : String) :
    AgreesUnless (· = .overlong settings.literalLimit) (value settings statement)
      (value { settings with literalLimit := larger, limit_le } statement) := by
  rw [value_eq, value_eq { settings with literalLimit := larger, limit_le }]
  exact (AgreesUnless.refl _ _).bind fun text =>
    (Scan.agrees_ofText le [] text .empty).bind fun pending => .refl _ _

theorem overlong_mem_refusal_of_value
    (rejected : value settings statement = .error (.overlong exceeded)) :
    .overlong exceeded ∈ (Scan.ofText settings.tolerance settings.literalLimit []
      (strip statement)).refusal := by
  rcases value_error_cases rejected with prepared | ⟨_, pendency | refused | bracket⟩
  · cases (prepare_eq_error_iff.mp prepared).1
  · cases pendency
  · exact refused
  · cases bracket.2

/-- The text of a statement rejected for a literal has a run of too many characters
between symbols. -/
theorem exists_run_of_value (rejected : value settings statement = .error (.overlong exceeded)) :
    exceeded = settings.literalLimit ∧
      ∃ run, run <:+: (strip statement).filter (· ≠ '(') ∧ settings.literalLimit < run.length ∧
        ∀ character ∈ run, endsPiece character = false := by
  rcases Scan.exists_run_of_overlong (by simp [SymbolFree])
      (overlong_mem_refusal_of_value rejected) with ⟨run, isInfix, longer, plain⟩
  exact ⟨arises_value rejected, run, isInfix, longer,
    fun character member => endsPiece_of_plain (plain character member)⟩

/-- Options under which an evaluation comes to an end are settings, or the statement is
rejected beforehand. -/
theorem valueWith?_eq_some_cases {options : Options} {outcome : Except Rejection Float}
    (ends : valueWith? options statement = some outcome) :
    (∃ settings : Settings, settings.toOptions = options ∧ value settings statement = outcome) ∨
      ∃ cause, prepare options.tolerance statement = .error cause ∧ outcome = .error cause := by
  by_cases limit_le : options.literalLimit ≤ Draft.largestCapacity
  · left
    refine ⟨{ options with limit_le }, rfl, ?_⟩
    exact Option.some.inj ((valueWith?_toOptions { options with limit_le } statement).symm.trans ends)
  · right
    cases prepared : prepare options.tolerance statement with
    | error cause =>
        rw [valueWith?, prepared] at ends
        exact ⟨cause, rfl, (Option.some.inj ends).symm⟩
    | ok text =>
        rw [valueWith?_eq_none_iff.mpr ⟨Nat.lt_of_not_le limit_le, text, prepared⟩] at ends
        cases ends

/-- Where there is a draft for the larger limit, it changes nothing but for statements in which a
literal exceeds the smaller one. -/
theorem valueWith?_raised {options : Options} (le : options.literalLimit ≤ larger)
    (limit_le : larger ≤ Draft.largestCapacity)
    (within : ∀ limit, valueWith? options statement ≠ some (.error (.overlong limit))) :
    valueWith? { options with literalLimit := larger } statement =
      valueWith? options statement := by
  let settings : Settings := { options with limit_le := le.trans limit_le }
  let raised : Settings := { settings with literalLimit := larger, limit_le }
  have small : valueWith? options statement = some (value settings statement) :=
    valueWith?_toOptions settings statement
  have large : valueWith? { options with literalLimit := larger } statement =
      some (value raised statement) :=
    valueWith?_toOptions raised statement
  rw [small, large]
  rcases @agrees_value _ settings le limit_le statement with same | ⟨cause, rejected, exceeds⟩
  · exact congrArg some same
  · subst exceeds
    exact (within _ (small.trans (congrArg some rejected))).elim

/-- A larger limit changes nothing but for statements in which a literal exceeds the smaller
one, and these have a run of too many characters between symbols; unless the larger limit is
one for which there is no draft, where an evaluation breaks off that gets past the
preparation. -/
theorem valueWith?_of_larger_limit (options : Options) (le : options.literalLimit ≤ larger)
    (statement : String) :
    let raised := { options with literalLimit := larger }
    (valueWith? raised statement ≠ none →
      (∀ limit, valueWith? options statement ≠ some (.error (.overlong limit))) →
        valueWith? raised statement = valueWith? options statement) ∧
    (∀ limit, valueWith? options statement = some (.error (.overlong limit)) →
      limit = options.literalLimit ∧
        ∃ run, run <:+: (strip statement).filter (· ≠ '(') ∧ options.literalLimit < run.length ∧
          ∀ character ∈ run, endsPiece character = false) ∧
    (valueWith? raised statement = none ↔
      Draft.largestCapacity < larger ∧
        ∃ text, prepare options.tolerance statement = .ok text) := by
  refine ⟨?_, ?_, valueWith?_eq_none_iff⟩
  · intro ends within
    rcases Nat.lt_or_ge Draft.largestCapacity larger with exceeded | limit_le
    · cases prepared : prepare options.tolerance statement with
      | error cause => rw [valueWith?, valueWith?, prepared]
      | ok text => exact (ends (valueWith?_eq_none_iff.mpr ⟨exceeded, text, prepared⟩)).elim
    · exact valueWith?_raised le limit_le within
  · intro limit rejected
    rcases valueWith?_eq_some_cases rejected with ⟨settings, rfl, evaluated⟩ | ⟨cause, prepared, same⟩
    · exact exists_run_of_value evaluated
    · cases same
      cases (prepare_eq_error_iff.mp prepared).1

/-- A division fails before a literal is too long, and a literal is too long together with what
stands behind its brackets. -/
theorem valueWith?_of_larger_limit_division :
    let options : Options := { Settings.forgiving.toOptions with literalLimit := 3 }
    let raised := { options with literalLimit := Draft.largestCapacity }
    options.literalLimit ≤ Draft.largestCapacity ∧
      valueWith? options "123 / 0 + 4567" = some (.error .divisionByZero) ∧
      valueWith? raised "123 / 0 + 4567" = some (.error .divisionByZero) ∧
      valueWith? options "2 * (34(5 6))" = some (.error (.overlong 3)) ∧
      ∃ run, run <:+: (strip "2 * (34(5 6))").filter (· ≠ '(') ∧ 3 < run.length ∧
        ∀ character ∈ run, endsPiece character = false := by
  intro options raised
  have le : options.literalLimit ≤ Draft.largestCapacity := by decide
  have divided : valueWith? options "123 / 0 + 4567" = some (.error .divisionByZero) := by
    decide +kernel
  have exceeded : valueWith? options "2 * (34(5 6))" = some (.error (.overlong 3)) := by
    decide +kernel
  have contract := valueWith?_of_larger_limit options le "123 / 0 + 4567"
  refine ⟨le, divided, ?_, exceeded,
    ((valueWith?_of_larger_limit options le "2 * (34(5 6))").2.1 3 exceeded).2⟩
  refine (contract.1 ?_ ?_).trans divided
  · intro broken
    exact absurd (contract.2.2.mp broken).1 (Nat.lt_irrefl _)
  · intro limit rejected
    cases divided.symm.trans rejected

/-- For a limit that no draft has, there is no value any more. -/
theorem exists_value_lost_by_larger_limit :
    let options := Settings.standard.toOptions
    let raised := { options with literalLimit := 18446744073709551615 }
    options.literalLimit ≤ raised.literalLimit ∧
      valueWith? options "1" = some (.ok 1.0) ∧ valueWith? raised "1" = none := by
  intro options raised
  decide +kernel

end Statement

end Reckon
