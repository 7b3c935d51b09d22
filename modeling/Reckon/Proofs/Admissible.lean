import Mathlib.Data.List.TakeWhile
import Reckon.Proofs.Phrase
import Reckon.Proofs.Token

/-!
# Texts that are read

A statement is read if its text without blanks is *admissible*.  The texts of
phrases are, and blanks may be put into them anywhere.
-/

namespace Reckon.Statement

/-- The second text is the first one with blanks put in anywhere. -/
inductive Spaced : (text spaced : List Char) → Prop where
  | nil : Spaced [] []
  | keep (character : Char) {text spaced : List Char} :
      Spaced text spaced → Spaced (character :: text) (character :: spaced)
  | blank {character : Char} (isBlank : Text.isBlank character)
      {text spaced : List Char} :
      Spaced text spaced → Spaced text (character :: spaced)

theorem Spaced.refl (text : List Char) : Spaced text text := by
  induction text with
  | nil => exact .nil
  | cons character text ih => exact .keep character ih

/-- Stripping takes off exactly the blanks that were put in. -/
theorem spaced_iff {text spaced : List Char}
    (solid : ∀ character ∈ text, Text.isBlank character = false) :
    Spaced text spaced ↔
      spaced.filter (fun character => !Text.isBlank character) = text := by
  constructor
  · intro inserted
    induction inserted with
    | nil => rfl
    | keep character inserted ih =>
        have kept := solid character List.mem_cons_self
        rw [List.filter_cons_of_pos (by simp [kept]),
          ih fun other member => solid other (List.mem_cons_of_mem _ member)]
    | blank isBlank inserted ih =>
        rw [List.filter_cons_of_neg (by simp [isBlank]), ih solid]
  · intro stripped
    subst stripped
    induction spaced with
    | nil => exact .nil
    | cons character spaced ih =>
        cases isBlank : Text.isBlank character with
        | true =>
            rw [List.filter_cons_of_neg (by simp [isBlank])] at solid ⊢
            exact .blank isBlank (ih solid)
        | false =>
            rw [List.filter_cons_of_pos (by simp [isBlank])] at solid ⊢
            exact .keep character (ih fun other member =>
              solid other (List.mem_cons_of_mem _ member))

/-- Neighbours of which at most one is a point. -/
def Undoubled (left right : Char) : Prop :=
  ¬(left = '.' ∧ right = '.')

theorem hasDoubledPoint_eq_false_iff {text : List Char} :
    hasDoubledPoint text = false ↔ text.IsChain Undoubled := by
  induction text with
  | nil => simp [hasDoubledPoint]
  | cons first rest ih =>
      cases rest with
      | nil => simp [hasDoubledPoint]
      | cons second rest =>
          rw [List.isChain_cons_cons, ← ih]
          by_cases doubled : first = '.' ∧ second = '.'
          · rcases doubled with ⟨rfl, rfl⟩
            simp [hasDoubledPoint, Undoubled]
          · rw [hasDoubledPoint.eq_2]
            · exact (and_iff_right doubled).symm
            · intro tail isPoint same
              cases same
              exact doubled ⟨isPoint, rfl⟩

theorem firstForeign?_eq_none_iff {text : List Char} :
    firstForeign? text = none ↔ ∀ character ∈ text, isNative character := by
  simp [firstForeign?]

/-- What a text must be like in order to be read. -/
structure Admissible (tolerance : Tolerance) (text : List Char) : Prop where
  nonempty : text ≠ []
  noComma : ',' ∉ text
  undoubled : text.IsChain Undoubled
  balanced : text.count '(' = text.count ')'
  native : tolerance = .strict → ∀ character ∈ text, isNative character

theorem prepare_eq_ok_iff {tolerance : Tolerance} {statement : String}
    {text : List Char} :
    prepare tolerance statement = .ok text ↔
      text = strip statement ∧ Admissible tolerance (strip statement) := by
  simp only [prepare]
  generalize strip statement = stripped
  by_cases empty : stripped = []
  · exact iff_of_false (by simp [empty]) fun read => read.2.nonempty empty
  by_cases comma : ',' ∈ stripped
  · exact iff_of_false (by simp [empty, comma]) fun read => read.2.noComma comma
  cases doubled : hasDoubledPoint stripped with
  | true =>
      apply iff_of_false
      · simp [empty, comma]
      · intro read
        rw [hasDoubledPoint_eq_false_iff.mpr read.2.undoubled] at doubled
        cases doubled
  | false =>
      by_cases balanced : stripped.count '(' = stripped.count ')'
      · have admissible : Admissible tolerance stripped ↔
            tolerance = .strict → firstForeign? stripped = none := by
          rw [firstForeign?_eq_none_iff]
          exact ⟨Admissible.native, fun native =>
            ⟨empty, comma, hasDoubledPoint_eq_false_iff.mp doubled, balanced, native⟩⟩
        rw [admissible]
        cases tolerance with
        | lenient => simpa [empty, comma, balanced] using eq_comm
        | strict =>
            cases firstForeign? stripped with
            | none => simpa [empty, comma, balanced] using eq_comm
            | some foreign => simp [empty, comma, balanced]
      · exact iff_of_false (by simp [empty, comma, balanced]) fun read =>
          balanced read.2.balanced

theorem isNative_toChar (operator : Operator) : isNative operator.toChar := by
  cases operator <;> rfl

theorem isBlank_eq_false_of_isNative {character : Char}
    (native : isNative character) : Text.isBlank character = false := by
  simp only [isNative, Bool.or_eq_true, List.contains_iff_mem, List.mem_cons,
    List.not_mem_nil, or_false] at native
  rcases native with digit | rfl | rfl | rfl | rfl | rfl | rfl | rfl
  · simp only [Char.isDigit, Bool.and_eq_true, decide_eq_true_eq] at digit
    have least : 48 ≤ character.toNat := digit.1
    have greatest : character.toNat ≤ 57 := digit.2
    simp only [Text.isBlank, Text.blankRanges, List.any_cons, List.any_nil,
      Bool.or_false, Bool.or_eq_false_iff, Bool.and_eq_false_iff,
      decide_eq_false_iff_not]
    omega
  all_goals rfl

theorem undoubled_of_isPlain {text : List Char} (plain : Literal.IsPlain text) :
    text.IsChain Undoubled := by
  rw [List.isChain_iff_forall_rel_of_append_cons_cons]
  rintro first second front back rfl ⟨rfl, rfl⟩
  have twice := plain.point
  simp only [List.count_append, List.count_cons_self] at twice
  omega

namespace Admissible

variable {tolerance : Tolerance} {text left right : List Char}

theorem literal (tolerance : Tolerance) (plain : Literal.IsPlain text) :
    Admissible tolerance text where
  nonempty := plain.ne_nil
  noComma member := by
    rcases plain.alphabet ',' member with digit | isPoint
    · cases digit
    · cases isPoint
  undoubled := undoubled_of_isPlain plain
  balanced := by
    have noBracket : ∀ bracket ∈ ['(', ')'], text.count bracket = 0 := by
      intro bracket isBracket
      apply List.count_eq_zero_of_not_mem
      intro member
      have := plain.alphabet bracket member
      simp only [List.mem_cons, List.not_mem_nil, or_false] at isBracket
      rcases isBracket with rfl | rfl <;> simp at this
    rw [noBracket '(' (by simp), noBracket ')' (by simp)]
  native _ character member := by
    rcases plain.alphabet character member with digit | rfl
    · simp [isNative, digit]
    · rfl

theorem group (inner : Admissible tolerance text) :
    Admissible tolerance ('(' :: (text ++ [')'])) where
  nonempty := List.cons_ne_nil _ _
  noComma := by
    simp [inner.noComma]
  undoubled := by
    apply List.IsChain.cons
    · apply inner.undoubled.append (List.isChain_singleton _)
      intro character _ next first doubled
      cases first
      cases doubled.2
    · intro character _ doubled
      cases doubled.1
  balanced := by
    simp [List.count_append, inner.balanced]
  native strict character member := by
    simp only [List.mem_cons, List.mem_append, List.not_mem_nil, or_false] at member
    rcases member with rfl | member | rfl
    · rfl
    · exact inner.native strict character member
    · rfl

theorem operation (first : Admissible tolerance left)
    (second : Admissible tolerance right) (operator : Operator) :
    Admissible tolerance (left ++ operator.toChar :: right) where
  nonempty := by simp
  noComma := by
    have notComma : ',' ≠ operator.toChar := by
      cases operator <;> decide
    simp [first.noComma, second.noComma, notComma]
  undoubled := by
    have notPoint : operator.toChar ≠ '.' := by
      cases operator <;> decide
    apply first.undoubled.append
    · exact second.undoubled.cons fun character _ doubled => notPoint doubled.1
    · intro character _ next isFirst doubled
      cases isFirst
      exact notPoint doubled.2
  balanced := by
    have other := Phrase.toChar_ne_bracket operator
    simp [List.count_append, first.balanced, second.balanced, other]
  native strict character member := by
    rcases List.mem_append.mp member with member | member
    · exact first.native strict character member
    · rcases List.mem_cons.mp member with rfl | member
      · exact isNative_toChar operator
      · exact second.native strict character member

end Admissible

/-- The text of a phrase is read with either tolerance. -/
theorem admissible_text (tolerance : Tolerance) {level : Level}
    (phrase : Phrase level) : Admissible tolerance phrase.text := by
  induction phrase with
  | literal text plain => exact .literal tolerance plain
  | group inner ih => exact ih.group
  | factor only ih => exact ih
  | product left operator _ right leftIH rightIH => exact leftIH.operation rightIH operator
  | term only ih => exact ih
  | sum left operator _ right leftIH rightIH => exact leftIH.operation rightIH operator

theorem solid_text {level : Level} (phrase : Phrase level) :
    ∀ character ∈ phrase.text, Text.isBlank character = false := by
  intro character member
  exact isBlank_eq_false_of_isNative
    ((admissible_text .strict phrase).native rfl character member)

/-- A spaced phrase is read as the phrase. -/
theorem prepare_eq_ok_of_spaced (tolerance : Tolerance) {level : Level}
    {phrase : Phrase level} {statement : String}
    (spaced : Spaced phrase.text statement.toList) :
    prepare tolerance statement = .ok phrase.text := by
  have stripped : strip statement = phrase.text :=
    (spaced_iff (solid_text phrase)).mp spaced
  rw [prepare_eq_ok_iff, stripped]
  exact ⟨rfl, admissible_text tolerance phrase⟩

/-- The value of a statement is what is concluded from its scan. -/
theorem value_eq_ok_iff {settings : Settings} {statement : String} {result : Float} :
    value settings statement = .ok result ↔
      Admissible settings.tolerance (strip statement) ∧
        ∃ pending, (Scan.ofText settings.tolerance settings.literalLimit []
            (strip statement)).carriedOut settings.reduction .empty = .ok pending ∧
          (pending.conclude settings.reduction).result = .ok result := by
  simp only [value_eq, bind_eq_ok_iff, prepare_eq_ok_iff]
  constructor
  · intro found
    rcases found with ⟨text, ⟨rfl, admissible⟩, carried⟩
    exact ⟨admissible, carried⟩
  · intro found
    exact ⟨strip statement, ⟨rfl, found.1⟩, found.2⟩

end Reckon.Statement
