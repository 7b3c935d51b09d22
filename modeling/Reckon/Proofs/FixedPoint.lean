import Reckon.Proofs.Ceiling
import Reckon.Proofs.Exact
import Reckon.Proofs.Precedence

/-!
# Results are fixed points

A rendered result is a statement again.  Its text reads as the very double that was
rendered, and rounding keeps what it has rounded once, so the result of this statement is
the same text.  A negative result is no statement, but its difference from zero is one.
-/

namespace Reckon

namespace Binary64

variable {code : Nat}

/-- The code of the power of two from which on every double is whole. -/
def wholeCode : Nat :=
  1076 * binade

theorem wholeCode_lt : wholeCode < infinityCode := by
  decide

theorem units_wholeCode : units wholeCode = 2 * binade * unitsPerOne := by
  decide +kernel

/-- Doubles without a fraction are the ones from some power of two on, and others. -/
theorem isWhole_of_wholeCode_le (large : wholeCode ≤ code) : isWhole code := by
  have places : zerosOfOne ≤ shift code := by
    have binades := Nat.div_le_div_right (c := binade) large
    rw [wholeCode, Nat.mul_div_cancel _ binade_pos] at binades
    rw [zerosOfOne, shift]
    omega
  have divides : unitsPerOne ∣ units code := by
    rw [unitsPerOne_eq, units_eq]
    exact Dvd.dvd.mul_left (power_dvd places) _
  rw [isWhole, decide_eq_true_eq]
  exact Nat.mod_eq_zero_of_dvd divides

theorem nearestCode_wholeCode : nearestCode (2 * binade) 1 = wholeCode := by
  apply nearestCode_units Nat.one_pos wholeCode_lt.le
  rw [units_wholeCode, Nat.mul_one]

/-- A finite magnitude that needs no more places than a precision. -/
structure Fits (precision code : Nat) : Prop where
  finite : code < infinityCode
  places_le : (Numeral.shortest code).places ≤ precision

end Binary64

namespace Numeral

variable {code precision : Nat}

/-- What has a fraction is small. -/
theorem coefficient_shortest_lt (finite : code < Binary64.infinityCode)
    (fractional : 0 < (shortest code).places) :
    (shortest code).coefficient <
      2 * Binary64.binade * Digits.weight (shortest code).places := by
  apply Nat.lt_of_not_le
  intro large
  rw [← Nat.mul_one (shortest code).coefficient] at large
  have rounded := Binary64.nearestCode_mono Nat.one_pos
    (Digits.weight_pos (shortest code).places) large
  rw [Binary64.nearestCode_wholeCode, nearestCode_shortest finite] at rounded
  have none := places_shortest_of_isWhole finite (Binary64.isWhole_of_wholeCode_le rounded)
  omega

/-- Rounding up stays finite, and the places that it leaves are enough. -/
theorem fits_ceil (finite : code < Binary64.infinityCode)
    (long : precision < (shortest code).places) :
    Binary64.Fits precision (Binary64.nearestCode ((shortest code).ceil precision).coefficient
      (Digits.weight precision)) := by
  have decimal := isDecimal_shortest code
  have places := decimal.places_ceil long
  have small := coefficient_shortest_lt finite (Nat.zero_lt_of_lt long)
  have ceiling := (decimal.coefficient_ceil long).2
  have bound : ((shortest code).ceil precision).coefficient ≤
      2 * Binary64.binade * Digits.weight precision := by
    have grid : Digits.weight (shortest code).places =
        Digits.weight precision * Digits.weight ((shortest code).places - precision) := by
      rw [← Digits.weight_add, Nat.add_sub_cancel' long.le]
    rw [grid, ← Nat.mul_assoc] at small
    apply Nat.le_of_lt_succ
    apply Nat.lt_of_mul_lt_mul_right (a := Digits.weight ((shortest code).places - precision))
    rw [Nat.succ_mul]
    omega
  have finiteCeil : Binary64.nearestCode ((shortest code).ceil precision).coefficient
      (Digits.weight precision) < Binary64.infinityCode := by
    apply Nat.lt_of_le_of_lt _ Binary64.wholeCode_lt
    rw [← Binary64.nearestCode_wholeCode]
    apply Binary64.nearestCode_mono (Digits.weight_pos precision) Nat.one_pos
    rwa [Nat.mul_one]
  refine ⟨finiteCeil, ?_⟩
  have reads : ((shortest code).ceil precision).Reads _ := rfl
  rw [places] at reads
  exact (Reads.places_shortest_le finiteCeil reads).trans places.le

end Numeral

/-! ## Rounding and rendering twice -/

open Binary64 (Fits ofCode)

variable {precision code : Nat}

/-- A finite value is rounded to a double of its sign that fits the precision. -/
theorem exists_roundAway (precision : Nat) {value : Float} (finite : Binary64.isFinite value) :
    ∃ code, Fits precision code ∧
      roundAway precision value = .ok (ofCode (Binary64.isNegative value) code) := by
  have below : Binary64.code value < Binary64.infinityCode := by
    rwa [Binary64.isFinite, decide_eq_true_eq] at finite
  rcases Nat.lt_or_ge precision (Numeral.shortest (Binary64.code value)).places with long | short
  · refine ⟨_, Numeral.fits_ceil below long, ?_⟩
    rw [roundAway_of_lt_places finite long, Numeral.toFloat,
      (Numeral.isDecimal_shortest _).places_ceil long]
  · refine ⟨Binary64.code value, ⟨below, short⟩, ?_⟩
    rw [roundAway_of_places_le finite short, Binary64.ofCode_code]

/-- What fits the precision is kept. -/
theorem roundAway_ofCode (fits : Fits precision code) (negative : Bool) :
    roundAway precision (ofCode negative code) = .ok (ofCode negative code) := by
  apply roundAway_of_places_le (Binary64.isFinite_ofCode negative fits.finite)
  rw [Binary64.code_ofCode negative fits.finite]
  exact fits.places_le

/-- The characters of a double: its magnitude behind its sign, which a zero does not have. -/
def renderedText (negative : Bool) (code : Nat) : List Char :=
  if negative ∧ code ≠ 0 then '-' :: renderMagnitude code else renderMagnitude code

theorem render_ofCode (fits : Fits precision code) (negative : Bool) :
    render precision (ofCode negative code) = .ok (String.ofList (renderedText negative code)) := by
  rw [render, roundAway_ofCode fits]
  simp only [Except.map, Binary64.isNegative_ofCode negative fits.finite,
    Binary64.code_ofCode negative fits.finite]
  rfl

/-- A rendered value is that of a double that fits the precision. -/
theorem exists_of_render {value : Float} {rendered : String}
    (result : render precision value = .ok rendered) :
    ∃ negative code, Fits precision code ∧
      rendered = String.ofList (renderedText negative code) := by
  cases finite : Binary64.isFinite value with
  | true =>
      rcases exists_roundAway precision finite with ⟨code, fits, rounded⟩
      refine ⟨Binary64.isNegative value, code, fits, ?_⟩
      rw [render, rounded, ← roundAway_ofCode fits, ← render, render_ofCode fits] at result
      exact (Except.ok.inj result).symm
  | false =>
      rw [render, roundAway_eq_error_iff.mpr ⟨finite, rfl⟩] at result
      cases result

/-! ## Rendered magnitudes as literals -/

namespace Numeral

/-- The numeral that a magnitude is rendered as. -/
def rendered (code : Nat) : Numeral :=
  if Binary64.isWhole code then ofScaled (Binary64.wholePart code) 0 else shortest code

theorem renderMagnitude_eq (code : Nat) : renderMagnitude code = (rendered code).toList := by
  rw [renderMagnitude, rendered]
  split
  · simp [ofScaled, toList]
  · rfl

theorem reads_rendered (finite : code < Binary64.infinityCode) : (rendered code).Reads code := by
  rw [rendered]
  split
  · rename_i whole
    exact reads_ofScaled_wholePart finite whole
  · exact reads_shortest finite

theorem isDecimal_rendered (code : Nat) : (rendered code).IsDecimal := by
  rw [rendered]
  split
  · exact isDecimal_ofScaled _ _
  · exact isDecimal_shortest code

end Numeral

/-- A rendered magnitude is the text of a numeral that reads as this magnitude. -/
theorem exists_renderMagnitude_eq (finite : code < Binary64.infinityCode) :
    ∃ numeral : Numeral, numeral.IsDecimal ∧ numeral.Reads code ∧
      renderMagnitude code = numeral.toList :=
  ⟨_, Numeral.isDecimal_rendered code, Numeral.reads_rendered finite,
    Numeral.renderMagnitude_eq code⟩

theorem isPlain_toList {numeral : Numeral} (decimal : numeral.IsDecimal) :
    Literal.IsPlain numeral.toList := by
  have reading : Literal.read? numeral.toList = some (numeral.toFloat false) :=
    Literal.read?_toList decimal false
  rw [Literal.isPlain_iff_isSome_read? decimal.alphabet, reading]
  rfl

/-- The text of a numeral reads as the double that the numeral stands for. -/
theorem literalValue_toList {numeral : Numeral} (decimal : numeral.IsDecimal)
    (plain : Literal.IsPlain numeral.toList) :
    Phrase.literalValue numeral.toList plain = numeral.toFloat false := by
  apply Option.some.inj
  rw [← Phrase.read?_eq_literalValue plain]
  exact Literal.read?_toList decimal false

theorem isPlain_renderMagnitude (finite : code < Binary64.infinityCode) :
    Literal.IsPlain (renderMagnitude code) := by
  rcases exists_renderMagnitude_eq finite with ⟨numeral, decimal, _, text⟩
  rw [text]
  exact isPlain_toList decimal

theorem literalValue_renderMagnitude (finite : code < Binary64.infinityCode)
    (plain : Literal.IsPlain (renderMagnitude code)) :
    Phrase.literalValue (renderMagnitude code) plain = ofCode false code := by
  rcases exists_renderMagnitude_eq finite with ⟨numeral, decimal, reads, text⟩
  simp only [text]
  rw [literalValue_toList decimal, Numeral.toFloat, reads]

namespace Statement

variable {settings : Settings}

/-- A literal is a statement. -/
theorem value_literal (settings : Settings) {text : List Char} (plain : Literal.IsPlain text)
    (short : text.length ≤ settings.literalLimit) :
    value settings (String.ofList text) = .ok (Phrase.literalValue text plain) := by
  let phrase : Phrase .expression := .term (.factor (.literal text plain))
  have spaced : Spaced phrase.text (String.ofList text).toList := by
    rw [String.toList_ofList]
    exact .refl text
  have limited : ∀ literal ∈ phrase.literals, literal.length ≤ settings.literalLimit := by
    intro literal member
    rw [List.mem_singleton.mp member]
    exact short
  rw [value_eq_of_spaced settings limited spaced]
  cases settings.reduction <;> rfl

/-- A difference of two literals is a statement. -/
theorem value_difference (settings : Settings) {left right : List Char}
    (plain : Literal.IsPlain left) (plain' : Literal.IsPlain right)
    (short : left.length ≤ settings.literalLimit)
    (short' : right.length ≤ settings.literalLimit) :
    value settings (String.ofList (left ++ '-' :: right)) =
      .ok (Phrase.literalValue left plain - Phrase.literalValue right plain') := by
  let phrase : Phrase .expression :=
    .sum (.term (.factor (.literal left plain))) .subtract rfl (.factor (.literal right plain'))
  have spaced : Spaced phrase.text (String.ofList (left ++ '-' :: right)).toList := by
    rw [String.toList_ofList]
    exact .refl _
  have limited : ∀ literal ∈ phrase.literals, literal.length ≤ settings.literalLimit := by
    intro literal member
    rcases List.mem_pair.mp member with rfl | rfl
    · exact short
    · exact short'
  rw [value_eq_of_spaced settings limited spaced]
  cases settings.reduction <;> rfl

/-- Zero minus a positive double is its negative. -/
theorem zero_sub_ofCode {code : Nat} (finite : code < Binary64.infinityCode)
    (positive : 0 < code) : ofCode false 0 - ofCode false code = ofCode true code := by
  have units : 0 < Binary64.units code :=
    Nat.pos_of_ne_zero (mt Binary64.units_eq_zero_iff.mp positive.ne')
  have none : Binary64.CountsUnits (ofCode false 0) 0 := ⟨false, 0, by decide, rfl, rfl⟩
  have counts : Binary64.CountsUnits (ofCode false code) (Binary64.units code) :=
    ⟨false, code, finite, rfl, rfl⟩
  have magnitude : Binary64.units code = ((0 : Int) - Binary64.units code).natAbs := by omega
  have difference := none.sub counts ⟨code, finite, magnitude⟩
  rw [difference.eq_ofCode (by omega) magnitude, decide_eq_true (by omega)]

theorem renderMagnitude_zero : renderMagnitude 0 = ['0'] := by
  decide +kernel

/-- A rendered magnitude is evaluated to itself. -/
theorem evaluate_renderMagnitude {code : Nat} (fits : Fits settings.precision code)
    (short : (renderMagnitude code).length ≤ settings.literalLimit) :
    evaluate settings (String.ofList (renderMagnitude code)) =
      .ok (String.ofList (renderMagnitude code)) := by
  have plain := isPlain_renderMagnitude fits.finite
  rw [evaluate, value_literal settings plain short, literalValue_renderMagnitude fits.finite,
    ok_bind, render_ofCode fits]
  rfl

/-- A negative one is evaluated to itself behind a zero. -/
theorem evaluate_zero_minus {code : Nat} (fits : Fits settings.precision code)
    (nonzero : code ≠ 0) (short : (renderMagnitude code).length ≤ settings.literalLimit)
    (one : 1 ≤ settings.literalLimit) :
    evaluate settings (String.ofList ('0' :: '-' :: renderMagnitude code)) =
      .ok (String.ofList ('-' :: renderMagnitude code)) := by
  have plain := isPlain_renderMagnitude fits.finite
  have zero : Literal.IsPlain ['0'] := by decide
  have reading : Phrase.literalValue ['0'] zero = ofCode false 0 := by
    simp only [← renderMagnitude_zero]
    exact literalValue_renderMagnitude (by decide) _
  have difference := value_difference settings zero plain one short
  rw [reading, literalValue_renderMagnitude fits.finite,
    zero_sub_ofCode fits.finite (Nat.pos_of_ne_zero nonzero)] at difference
  change (value settings (String.ofList (['0'] ++ '-' :: renderMagnitude code))).bind _ = _
  rw [difference, ok_bind, render_ofCode fits, renderedText, if_pos ⟨rfl, nonzero⟩]

/-- A rendered result is evaluated to itself, a negative one behind a zero. -/
theorem evaluate_rendered {statement rendered : String}
    (evaluated : evaluate settings statement = .ok rendered) :
    (rendered.toList.head? ≠ some '-' → rendered.length ≤ settings.literalLimit →
      evaluate settings rendered = .ok rendered) ∧
    (rendered.toList.head? = some '-' →
      rendered.toList.tail.length ≤ settings.literalLimit → 1 ≤ settings.literalLimit →
        evaluate settings ("0" ++ rendered) = .ok rendered) := by
  rw [evaluate, bind_eq_ok_iff] at evaluated
  rcases evaluated with ⟨value, _, result⟩
  rcases exists_of_render result with ⟨negative, code, fits, rfl⟩
  rw [renderedText]
  split
  · rename_i sign
    constructor
    · intro unsigned
      exact (unsigned (by rw [String.toList_ofList]; rfl)).elim
    · intro _ short one
      rw [String.toList_ofList, List.tail_cons] at short
      have zero : "0" ++ String.ofList ('-' :: renderMagnitude code) =
          String.ofList ('0' :: '-' :: renderMagnitude code) := by
        rw [← String.toList_inj]
        simp
      rw [zero]
      exact evaluate_zero_minus fits sign.2 short one
  · constructor
    · intro _ short
      rw [String.length_ofList] at short
      exact evaluate_renderMagnitude fits short
    · intro signed
      rw [String.toList_ofList] at signed
      have member := List.mem_of_head? signed
      have plain := (isPlain_renderMagnitude fits.finite).alphabet '-' member
      simp at plain

theorem evaluate_rendered_thirds :
    evaluate .standard "2/3" = .ok "0.6667" ∧
      evaluate .standard "0.6667" = .ok "0.6667" ∧
      evaluate .forgiving "(1-2)/3" = .ok "-0.3334" ∧
      evaluate .forgiving "0-0.3334" = .ok "-0.3334" := by
  have positive : evaluate .standard "2/3" = .ok "0.6667" := by decide +kernel
  have negative : evaluate .forgiving "(1-2)/3" = .ok "-0.3334" := by decide +kernel
  exact ⟨positive, (evaluate_rendered positive).1 (by decide) (by decide), negative,
    (evaluate_rendered negative).2 (by decide) (by decide) (by decide)⟩

end Statement

end Reckon
