import Mathlib.Data.List.TakeWhile
import Reckon.Literal

/-!
# Plain literals

Among the literals that can be read, the plain ones are written with digits and
at most one point.  Over the alphabet of digits and points nothing else can be
read.
-/

namespace Reckon.Literal

/-- A run of digits and points with a digit in it and at most one point. -/
structure IsPlain (text : List Char) : Prop where
  alphabet : ∀ character ∈ text, character.isDigit ∨ character = '.'
  digit : ∃ character ∈ text, character.isDigit
  point : text.count '.' ≤ 1

theorem isPlain_iff_all {text : List Char} :
    IsPlain text ↔ text.all (fun character => character.isDigit || character = '.') ∧
      text.any Char.isDigit ∧ text.count '.' ≤ 1 := by
  simp only [List.all_eq_true, List.any_eq_true, Bool.or_eq_true, decide_eq_true_eq]
  exact ⟨fun plain => ⟨plain.alphabet, plain.digit, plain.point⟩,
    fun ⟨alphabet, digit, point⟩ => ⟨alphabet, digit, point⟩⟩

instance (text : List Char) : Decidable (IsPlain text) :=
  decidable_of_iff _ isPlain_iff_all.symm

theorem IsPlain.ne_nil {text : List Char} (plain : IsPlain text) : text ≠ [] := by
  rcases plain.digit with ⟨character, member, _⟩
  exact List.ne_nil_of_mem member

variable {text whole fraction : List Char}

theorem splitSign_eq_of_alphabet
    (alphabet : ∀ character ∈ text, character.isDigit ∨ character = '.') :
    splitSign text = (false, text) := by
  rw [splitSign.eq_def]
  split
  · have := alphabet '-' (by simp)
    simp at this
  · have := alphabet '+' (by simp)
    simp at this
  · rfl

/-- Digits alone are a numeral without a fraction. -/
theorem readDecimal?_digits (digits : ∀ character ∈ whole, character.isDigit)
    (nonempty : whole ≠ []) : readDecimal? whole = some (⟨whole, []⟩, 0) := by
  have taken : whole.takeWhile Char.isDigit = whole :=
    List.takeWhile_eq_self_iff.mpr digits
  have left : whole.dropWhile Char.isDigit = [] :=
    List.dropWhile_eq_nil_iff.mpr digits
  simp [readDecimal?, taken, left, splitFraction, nonempty, readExponent?]

/-- Behind the digits after a point nothing but an exponent may follow. -/
theorem readDecimal?_point {rest : List Char}
    (digits : ∀ character ∈ whole, character.isDigit)
    (fractionDigits : ∀ character ∈ fraction, character.isDigit)
    (ends : ∀ character ∈ rest.head?, ¬character.isDigit) :
    readDecimal? (whole ++ '.' :: (fraction ++ rest)) =
      if whole = [] ∧ fraction = [] then none
      else (readExponent? rest).map fun exponent => (⟨whole, fraction⟩, exponent) := by
  have stop : rest.takeWhile Char.isDigit = [] ∧ rest.dropWhile Char.isDigit = rest := by
    cases rest with
    | nil => exact ⟨rfl, rfl⟩
    | cons character rest =>
        have other := ends character rfl
        simp [other]
  simp [readDecimal?, List.takeWhile_append_of_pos digits,
    List.dropWhile_append_of_pos digits, splitFraction,
    List.takeWhile_append_of_pos fractionDigits,
    List.dropWhile_append_of_pos fractionDigits, stop]

theorem namedCode?_eq_none_of_alphabet
    (alphabet : ∀ character ∈ text, character.isDigit ∨ character = '.') :
    namedCode? text = none := by
  have lower : ∀ character ∈ text, character.toLower = character := by
    intro character member
    rcases alphabet character member with digit | rfl
    · simp only [Char.isDigit, Bool.and_eq_true, decide_eq_true_eq] at digit
      apply dif_neg
      intro upper
      exact absurd (UInt32.le_trans upper.1 digit.2) (by decide)
    · rfl
  have lowered : text.map Char.toLower = text := by
    calc text.map Char.toLower
      _ = text.map id := List.map_congr_left lower
      _ = text := List.map_id text
  rw [namedCode?, lowered]
  split
  · have := alphabet 'i' (by simp)
    simp at this
  · have := alphabet 'i' (by simp)
    simp at this
  · have := alphabet 'n' (by simp)
    simp at this
  · rfl

/-- A text over digits and points consists of digits, or of digits around a
first point. -/
theorem exists_whole_of_alphabet
    (alphabet : ∀ character ∈ text, character.isDigit ∨ character = '.') :
    ∃ whole, (∀ character ∈ whole, character.isDigit) ∧
      (text = whole ∨ ∃ rest, text = whole ++ '.' :: rest) := by
  refine ⟨text.takeWhile Char.isDigit, fun _ => List.mem_takeWhile_imp, ?_⟩
  have parts := List.takeWhile_append_dropWhile (p := Char.isDigit) (l := text)
  cases remaining : text.dropWhile Char.isDigit with
  | nil =>
      left
      rw [remaining, List.append_nil] at parts
      exact parts.symm
  | cons character rest =>
      right
      have notDigit : ¬character.isDigit := by
        have := List.head?_dropWhile_not Char.isDigit text
        simpa [remaining] using this
      have member : character ∈ text := by
        rw [← parts, remaining]
        simp
      have isPoint := (alphabet character member).resolve_left notDigit
      refine ⟨rest, ?_⟩
      rw [← isPoint, ← remaining, parts]

theorem not_isDigit_point : ¬ '.'.isDigit := by
  decide

theorem isPlain_digits (digits : ∀ character ∈ whole, character.isDigit)
    (nonempty : whole ≠ []) : IsPlain whole where
  alphabet character member := .inl (digits character member)
  digit := by
    rcases List.exists_mem_of_ne_nil whole nonempty with ⟨character, member⟩
    exact ⟨character, member, digits character member⟩
  point := by
    rw [List.count_eq_zero_of_not_mem]
    · exact Nat.zero_le 1
    · intro member
      exact not_isDigit_point (digits '.' member)

theorem isPlain_point (digits : ∀ character ∈ whole, character.isDigit)
    (fractionDigits : ∀ character ∈ fraction, character.isDigit)
    (nonempty : ¬(whole = [] ∧ fraction = [])) :
    IsPlain (whole ++ '.' :: fraction) where
  alphabet character member := by
    rcases List.mem_append.mp member with front | back
    · exact .inl (digits character front)
    · rcases List.mem_cons.mp back with same | back
      · exact .inr same
      · exact .inl (fractionDigits character back)
  digit := by
    by_cases empty : whole = []
    · obtain ⟨character, member⟩ :=
        List.exists_mem_of_ne_nil fraction fun none => nonempty ⟨empty, none⟩
      exact ⟨character, by simp [member], fractionDigits character member⟩
    · rcases List.exists_mem_of_ne_nil whole empty with ⟨character, member⟩
      exact ⟨character, by simp [member], digits character member⟩
  point := by
    have front : whole.count '.' = 0 :=
      List.count_eq_zero_of_not_mem fun member =>
        not_isDigit_point (digits '.' member)
    have back : fraction.count '.' = 0 :=
      List.count_eq_zero_of_not_mem fun member =>
        not_isDigit_point (fractionDigits '.' member)
    simp [List.count_append, front, back]

/-- Over digits and points, exactly the plain literals can be read. -/
theorem isPlain_iff_isSome_read?
    (alphabet : ∀ character ∈ text, character.isDigit ∨ character = '.') :
    IsPlain text ↔ (read? text).isSome := by
  have decimal : (read? text).isSome = (readDecimal? text).isSome := by
    rw [read?, splitSign_eq_of_alphabet alphabet]
    dsimp only
    cases readDecimal? text with
    | some decimal => rfl
    | none => simp [namedCode?_eq_none_of_alphabet alphabet]
  rw [decimal]
  rcases exists_whole_of_alphabet alphabet with ⟨whole, digits, rfl | ⟨behind, rfl⟩⟩
  · constructor
    · intro plain
      rw [readDecimal?_digits digits plain.ne_nil]
      rfl
    · intro read
      apply isPlain_digits digits
      intro empty
      subst empty
      simp [readDecimal?, splitFraction] at read
  · have behindAlphabet : ∀ character ∈ behind,
        character.isDigit ∨ character = '.' := by
      intro character member
      exact alphabet character (by simp [member])
    obtain ⟨fraction, fractionDigits, rfl | ⟨rest, rfl⟩⟩ :=
      exists_whole_of_alphabet behindAlphabet
    · have reading : readDecimal? (whole ++ '.' :: (behind ++ [])) = _ :=
        readDecimal?_point digits fractionDigits (by simp)
      rw [List.append_nil] at reading
      rw [reading]
      split
      · rename_i empty
        rcases empty with ⟨rfl, rfl⟩
        decide
      · rename_i nonempty
        exact iff_of_true (isPlain_point digits fractionDigits nonempty) rfl
    · -- A second point cannot begin an exponent.
      rw [readDecimal?_point digits fractionDigits (by simp)]
      apply iff_of_false
      · intro plain
        have twice := plain.point
        simp only [List.count_append, List.count_cons_self] at twice
        omega
      · simp [readExponent?]

end Reckon.Literal
