import Reckon.Proofs.IntegerExpression
import Reckon.Proofs.NormalNumeral
import Reckon.Proofs.Spacing

/-!
# The text of a rounded value

A rendered magnitude is a normal numeral with no more places than the precision allows.  What
a fraction is rounded up to is read from a numeral on the grid of the precision, and then
displayed by a numeral on the same grid.  Both are the same number up to 15 places, because
no other point of the grid reads as that double: the step that led to it passed over the
double that was rounded.
-/

namespace Reckon

namespace Numeral

variable {precision number code : Nat}

theorem isNormal_rendered (finite : code < Binary64.infinityCode) : (rendered code).IsNormal := by
  rw [rendered]
  split
  · exact {
      toIsDecimal := isDecimal_ofScaled _ 0
      reduced := Digits.isReduced_ofNat _
      trailing := by simp [ofScaled] }
  · exact isNormal_shortest finite

theorem places_rendered_le (code : Nat) : (rendered code).places ≤ (shortest code).places := by
  rw [rendered]
  split
  · rw [places_ofScaled]
    exact Nat.zero_le _
  · exact le_rfl

/-! ## The grid that a value is rounded on -/

/-- What is not above the displayed number is not rounded above the magnitude. -/
theorem nearestCode_le_of_le_shortest (finite : code < Binary64.infinityCode)
    (below : number * Digits.weight (shortest code).places ≤
      (shortest code).coefficient * Digits.weight precision) :
    Binary64.nearestCode number (Digits.weight precision) ≤ code := by
  conv_rhs => rw [← nearestCode_shortest finite]
  exact Binary64.nearestCode_mono (Digits.weight_pos _) (Digits.weight_pos _) below

section Grid

variable (finite : code < Binary64.infinityCode) (long : precision < (shortest code).places)
include finite long

/-- What needs more places is not on the grid. -/
theorem nearestCode_ne (multiple : Nat) :
    Binary64.nearestCode multiple (Digits.weight precision) ≠ code := by
  intro onGrid
  have reads : (ofScaled multiple precision).Reads code := by
    rwa [Reads, coefficient_ofScaled, places_ofScaled]
  have fewest := reads.places_shortest_le finite
  rw [places_ofScaled] at fewest
  omega

/-- With fewer steps than it is rounded up to, a magnitude is not reached. -/
theorem nearestCode_lt_of_lt_stepsUp {multiple : Nat}
    (less : multiple < (shortest code).stepsUp precision) :
    Binary64.nearestCode multiple (Digits.weight precision) < code := by
  have below := mt stepsUp_le_iff.mpr (Nat.not_le_of_lt less)
  apply Nat.lt_of_le_of_ne _ (nearestCode_ne finite long multiple)
  exact nearestCode_le_of_le_shortest finite (Nat.lt_of_not_le below).le

theorem lt_roundedCode : code < roundedCode precision code :=
  Nat.lt_of_le_of_ne (le_roundedCode finite precision) (nearestCode_ne finite long _).symm

theorem stepsUp_pos : 0 < (shortest code).stepsUp precision := by
  apply Nat.pos_of_ne_zero
  intro none
  apply Nat.not_le_of_lt (lt_roundedCode finite long)
  rw [roundedCode, none]
  apply nearestCode_le_of_le_shortest finite
  rw [Nat.zero_mul]
  exact Nat.zero_le _

/-- Only the steps that a magnitude is rounded up to read as the rounded magnitude. -/
theorem eq_stepsUp_of_nearestCode_eq (few : precision ≤ 15)
    (hit : Binary64.nearestCode number (Digits.weight precision) = roundedCode precision code) :
    number = (shortest code).stepsUp precision := by
  have above := lt_roundedCode finite long
  rcases Nat.lt_trichotomy number ((shortest code).stepsUp precision) with less | same | more
  · have below := nearestCode_lt_of_lt_stepsUp finite long less
    omega
  · exact same
  · -- the step that is rounded up to passes over the double below
    rcases Nat.exists_eq_add_of_lt (stepsUp_pos finite long) with ⟨last, steps⟩
    have below : Binary64.nearestCode last (Digits.weight precision) < code :=
      nearestCode_lt_of_lt_stepsUp finite long (by omega)
    rcases Nat.exists_eq_add_of_le (show 2 ≤ roundedCode precision code by omega) with
      ⟨before, rounded⟩
    have reached : Binary64.nearestCode (last + 1) (Digits.weight precision) = before + 2 := by
      rw [Nat.add_comm before, ← rounded, roundedCode, steps, Nat.zero_add]
    have skips : Binary64.Skips precision last before := {
      few
      finite := by
        have fits := (fits_roundedCode finite precision).finite
        omega
      near := by omega
      past := by omega }
    have beyond := skips.lt_nearestCode.trans_le (Binary64.nearestCode_mono (Digits.weight_pos _)
      (Digits.weight_pos _) (Nat.mul_le_mul_right _ (show last + 2 ≤ number by omega)))
    omega

end Grid

/-- Rounding and displaying gives back the number that is rounded up to. -/
theorem toRat_rendered_roundedCode (few : precision ≤ 15) (finite : code < Binary64.infinityCode)
    (fractional : ¬Binary64.isWhole code) :
    (rendered (roundedCode precision code)).toRat =
      (ofScaled ((shortest code).stepsUp precision) precision).toRat := by
  rcases Nat.lt_or_ge precision (shortest code).places with long | short
  · have fits := fits_roundedCode finite precision
    have reads := reads_rendered fits.finite
    have coarse := (places_rendered_le _).trans fits.places_le
    rw [Reads, nearestCode_weight coarse] at reads
    have steps := eq_stepsUp_of_nearestCode_eq finite long few reads
    rw [toRat_eq_toRat_iff, coefficient_ofScaled, places_ofScaled, ← steps, Nat.mul_assoc,
      ← Digits.weight_add, Nat.sub_add_cancel coarse]
  · have fits : Binary64.Fits precision code := ⟨finite, short⟩
    rw [roundedCode_eq fits, rendered, if_neg fractional, toRat_eq_toRat_iff, coefficient_ofScaled,
      places_ofScaled, stepsUp_of_places_le short, Nat.mul_assoc, ← Digits.weight_add,
      Nat.sub_add_cancel short]

theorem rendered_roundedCode (few : precision ≤ 15) (finite : code < Binary64.infinityCode)
    (fractional : ¬Binary64.isWhole code) :
    rendered (roundedCode precision code) =
      (ofScaled ((shortest code).stepsUp precision) precision).trimmed := by
  apply (isNormal_rendered (fits_roundedCode finite precision).finite).eq_of_toRat_eq
  · exact isNormal_trimmed (isDecimal_ofScaled _ _) (Digits.isReduced_ofNat _)
  · rw [toRat_trimmed, toRat_rendered_roundedCode few finite fractional]

end Numeral

/-! ## The rendered text -/

open Binary64 (Fits ofCode IsInteger)

section Code

variable {precision code : Nat}

theorem render_ofCode_eq (finite : code < Binary64.infinityCode) (negative : Bool)
    (precision : Nat) :
    render precision (ofCode negative code) =
      .ok (String.ofList (renderedText negative (roundedCode precision code))) := by
  have fits := fits_roundedCode finite precision
  rw [render, roundAway_ofCode_eq finite, ← roundAway_ofCode fits, ← render, render_ofCode fits]

/-- A rendered text is a numeral behind its sign. -/
theorem renderedText_eq (negative : Bool) (code : Nat) :
    renderedText negative code =
      if negative && code != 0 then '-' :: (Numeral.rendered code).toList
      else (Numeral.rendered code).toList := by
  rw [renderedText, Numeral.renderMagnitude_eq]
  simp

theorem read?_renderedText (finite : code < Binary64.infinityCode) (negative : Bool) :
    Literal.read? (renderedText negative code) = some (ofCode (negative && code != 0) code) := by
  have reads : Binary64.nearestCode _ _ = code := Numeral.reads_rendered finite
  rw [renderedText_eq, Literal.read?_toList (Numeral.isNormal_rendered finite).toIsDecimal,
    Numeral.toFloat, reads]

/-- A zero is rendered without sign, and no other magnitude reads as zero. -/
theorem renderedText_ne (finite : code < Binary64.infinityCode) (negative : Bool) :
    renderedText negative code ≠ ['-', '0'] := by
  intro text
  have reading := read?_renderedText finite negative
  have zero : Literal.read? ['-', '0'] = some (ofCode true 0) := by decide +kernel
  rw [text, zero, Option.some_inj] at reading
  have sameCode := congrArg Binary64.code reading
  have sameSign := congrArg Binary64.isNegative reading
  rw [Binary64.code_ofCode _ (by decide), Binary64.code_ofCode _ finite] at sameCode
  rw [Binary64.isNegative_ofCode _ (by decide), Binary64.isNegative_ofCode _ finite,
    ← sameCode] at sameSign
  simp at sameSign

/-- The sign of a zero makes no difference. -/
theorem ofCode_beq_ofCode (finite : code < Binary64.infinityCode) (negative : Bool) :
    (ofCode (negative && code != 0) code == ofCode negative code) = true := by
  rw [Binary64.ofCode_beq_ofCode_iff finite finite]
  rcases Nat.eq_zero_or_pos code with rfl | positive
  · cases negative <;> rfl
  · rw [bne_iff_ne.mpr positive.ne', Bool.and_true]

theorem isInteger_ofCode (finite : code < Binary64.infinityCode) (whole : Binary64.isWhole code)
    (negative : Bool) :
    IsInteger (ofCode negative code) (Binary64.signed negative (Binary64.wholePart code)) := by
  rw [Binary64.isWhole, decide_eq_true_eq] at whole
  refine ⟨negative, code, finite, rfl, ?_⟩
  rw [← Binary64.signed_mul, Binary64.wholePart, Nat.div_mul_cancel (Nat.dvd_of_mod_eq_zero whole)]

end Code

/-- The rendered text is a normal numeral behind its sign.  It has at most `precision` places
and reads as the rounded value, and for a fraction and up to 15 places it is the number that
the displayed one is rounded up to. -/
theorem render_exact (precision : Nat) (value : Float) :
    ((∃ text, render precision value = .ok text) ↔ Binary64.isFinite value) ∧
    ∀ text, render precision value = .ok text →
      ∃ rounded negative numeral, roundAway precision value = .ok rounded ∧
        text = String.ofList (if negative then '-' :: numeral.toList else numeral.toList) ∧
        numeral.IsNormal ∧
        text ≠ "-0" ∧
        numeral.places ≤ precision ∧
        (∃ reread, Literal.read? text.toList = some reread ∧ (reread == rounded) = true) ∧
        (Binary64.isWhole (Binary64.code rounded) →
          ∃ number : Int, IsInteger rounded number ∧ text = toString number) ∧
        (precision ≤ 15 → ¬Binary64.isWhole (Binary64.code value) →
          let displayed := Numeral.shortest (Binary64.code value)
          let steps := ⌈displayed.toRat * 10 ^ precision⌉₊
          Binary64.text value.abs = String.ofList displayed.toList ∧
          negative = Binary64.isNegative value ∧
          numeral.toRat = (steps : ℚ) / 10 ^ precision ∧
          numeral = (Numeral.ofScaled steps precision).trimmed) := by
  cases isFinite : Binary64.isFinite value with
  | false =>
      have refused : render precision value = .error .notFinite := by
        rw [render, roundAway_eq_error_iff.mpr ⟨isFinite, rfl⟩]
        rfl
      simp [refused]
  | true =>
      have finite := Binary64.isFinite_iff.mp isFinite
      have renders := render_ofCode_eq finite (Binary64.isNegative value) precision
      have rounds := roundAway_ofCode_eq finite (Binary64.isNegative value) precision
      have fits := fits_roundedCode finite precision
      have larger := le_roundedCode finite precision
      have whole := Binary64.ofCode_code value
      generalize Binary64.isNegative value = negative at *
      generalize Binary64.code value = code at *
      subst whole
      refine ⟨⟨fun _ => rfl, fun _ => ⟨_, renders⟩⟩, ?_⟩
      intro text rendered
      cases renders.symm.trans rendered
      have grid := Numeral.places_rendered_le (roundedCode precision code)
      refine ⟨_, _, _, rounds, congrArg _ (renderedText_eq negative _),
        Numeral.isNormal_rendered fits.finite, ?_, grid.trans fits.places_le,
        ⟨_, ?_, ofCode_beq_ofCode fits.finite negative⟩, ?_, ?_⟩
      · intro same
        apply renderedText_ne fits.finite negative
        rw [← String.toList_ofList (l := renderedText negative _), same]
        rfl
      · rw [String.toList_ofList, read?_renderedText fits.finite]
      · rw [Binary64.code_ofCode negative fits.finite]
        intro isWhole
        have isInteger := isInteger_ofCode fits.finite isWhole negative
        refine ⟨_, isInteger, ?_⟩
        apply Except.ok.inj (ε := Rejection)
        rw [← render_eq_of_isInteger isInteger precision, render_ofCode fits]
      · intro few fractional
        have exact := Numeral.toRat_rendered_roundedCode few finite fractional
        have positive : roundedCode precision code ≠ 0 := by
          intro none
          apply fractional
          rw [Nat.le_zero.mp (larger.trans_eq none)]
          decide +kernel
        dsimp only
        refine ⟨?_, ?_, ?_, Numeral.rendered_roundedCode few finite fractional⟩
        · rw [Binary64.abs_ofCode negative finite, text_ofCode finite]
        · rw [bne_iff_ne.mpr positive, Bool.and_true]
        · rw [exact, Numeral.toRat_ofScaled]
          rfl

theorem render_exact_trimmed :
    let value : Float := -0.29999
    let numeral : Numeral := ⟨['0'], ['3']⟩
    render 4 value = .ok "-0.3" ∧
      roundAway 4 value = .ok (-0.3) ∧
      numeral.IsNormal ∧ numeral.places ≤ 4 ∧
      (∃ reread, Literal.read? "-0.3".toList = some reread ∧ (reread == (-0.3)) = true) ∧
      ¬Binary64.isWhole (Binary64.code value) ∧
      Binary64.text value.abs = "0.29999" ∧
      numeral.toRat = ((3000 : Nat) : ℚ) / 10 ^ 4 ∧
      numeral = (Numeral.ofScaled 3000 4).trimmed := by
  intro value numeral
  have displayed : Numeral.shortest (Binary64.code value) =
      ⟨['0'], ['2', '9', '9', '9', '9']⟩ := by decide +kernel
  have fractional : ¬Binary64.isWhole (Binary64.code value) := by decide +kernel
  have renders : render 4 value = .ok "-0.3" := by decide +kernel
  have rounding : roundAway 4 value = .ok (-0.3) := by decide +kernel
  have trimming : (Numeral.ofScaled 3000 4).trimmed = numeral := by decide
  have steps : ⌈Numeral.toRat ⟨['0'], ['2', '9', '9', '9', '9']⟩ * 10 ^ 4⌉₊ = 3000 := by
    have count : ((Digits.value ['0', '2', '9', '9', '9', '9'] : Nat) : ℚ) = 29999 := by
      norm_cast
    rw [Nat.ceil_eq_iff (by decide)]
    change _ < (Digits.value ['0', '2', '9', '9', '9', '9'] : ℚ) / 10 ^ 5 * 10 ^ 4 ∧
      (Digits.value ['0', '2', '9', '9', '9', '9'] : ℚ) / 10 ^ 5 * 10 ^ 4 ≤ _
    rw [count]
    norm_num
  rcases (render_exact 4 value).2 _ renders with
    ⟨rounded, _, _, rounds, _, normal, _, places, reads, _, exact⟩
  have exact := exact (by decide) fractional
  dsimp only at exact
  rw [displayed, steps, trimming] at exact
  rcases exact with ⟨display, _, denoted, rfl⟩
  cases rounding.symm.trans rounds
  exact ⟨renders, rounding, normal, places, reads, fractional, display, denoted, trimming.symm⟩

end Reckon
