import Reckon.Proofs.ExactRounding

/-!
# The order of rounded values

A larger magnitude is displayed by a larger numeral, because reading is monotone.  Rounding
the numeral up to a grid and reading the result keep the order, and the finer of two grids is
nearer.  So rounding is monotone and idempotent, treats both signs alike, and moves values
the less, the more places are kept.
-/

namespace Reckon

namespace Numeral

variable {numeral other : Numeral} {precision precision' code code' : Nat}

theorem stepsUp_mono (ordered : numeral.toRat ≤ other.toRat) (precision : Nat) :
    numeral.stepsUp precision ≤ other.stepsUp precision := by
  apply Nat.ceil_le_ceil
  gcongr

/-- On a coarser grid the numeral is rounded up at least as far. -/
theorem stepsUp_le_of_le (ordered : precision ≤ precision') :
    numeral.stepsUp precision' ≤
      numeral.stepsUp precision * Digits.weight (precision' - precision) := by
  have grid : Digits.weight precision' =
      Digits.weight precision * Digits.weight (precision' - precision) := by
    rw [← Digits.weight_add, Nat.add_sub_cancel' ordered]
  rw [stepsUp_le_iff, grid, ← Nat.mul_assoc, Nat.mul_right_comm (numeral.stepsUp precision)]
  exact Nat.mul_le_mul_right _ (coefficient_le_stepsUp numeral precision)

/-- The larger of two magnitudes is displayed by the larger numeral. -/
theorem toRat_shortest_le (finite : code < Binary64.infinityCode)
    (finite' : code' < Binary64.infinityCode) (less : code < code') :
    (shortest code).toRat ≤ (shortest code').toRat := by
  apply le_of_not_gt
  intro greater
  have ordered := Binary64.nearestCode_mono (Digits.weight_pos _) (Digits.weight_pos _)
    (toRat_le_toRat_iff.mp greater.le)
  rw [nearestCode_shortest finite, nearestCode_shortest finite'] at ordered
  omega

end Numeral

section Code

variable {precision precision' code code' : Nat} {negative negative' : Bool}

theorem roundedCode_mono (finite' : code' < Binary64.infinityCode) (ordered : code ≤ code')
    (precision : Nat) : roundedCode precision code ≤ roundedCode precision code' := by
  rcases Nat.eq_or_lt_of_le ordered with rfl | less
  · exact le_rfl
  · have numerals := Numeral.toRat_shortest_le (less.trans finite') finite' less
    have positive := Digits.weight_pos precision
    exact Binary64.nearestCode_mono positive positive
      (Nat.mul_le_mul_right _ (Numeral.stepsUp_mono numerals precision))

theorem roundedCode_le_of_le (ordered : precision ≤ precision') (code : Nat) :
    roundedCode precision' code ≤ roundedCode precision code := by
  apply Binary64.nearestCode_mono (Digits.weight_pos _) (Digits.weight_pos _)
  have grid : Digits.weight precision' =
      Digits.weight (precision' - precision) * Digits.weight precision := by
    rw [← Digits.weight_add, Nat.sub_add_cancel ordered]
  rw [grid, ← Nat.mul_assoc]
  exact Nat.mul_le_mul_right _ (Numeral.stepsUp_le_of_le ordered)

theorem roundedCode_zero (precision : Nat) : roundedCode precision 0 = 0 := by
  apply roundedCode_eq
  refine ⟨by decide, ?_⟩
  rw [Numeral.places_shortest_of_isWhole (by decide) (by decide +kernel)]
  exact Nat.zero_le _

/-- Rounding magnitudes keeps the order of signed values. -/
theorem signed_roundedCode_mono (finite : code < Binary64.infinityCode)
    (finite' : code' < Binary64.infinityCode)
    (ordered : Binary64.signed negative (Binary64.units code) ≤
      Binary64.signed negative' (Binary64.units code')) (precision : Nat) :
    Binary64.signed negative (Binary64.units (roundedCode precision code)) ≤
      Binary64.signed negative' (Binary64.units (roundedCode precision code')) := by
  have units_le : ∀ {first second}, first ≤ second → Binary64.units first ≤ Binary64.units second :=
    fun ordered => Binary64.units_strictMono.monotone ordered
  have codes_le : ∀ {first second}, Binary64.units first ≤ Binary64.units second → first ≤ second :=
    fun ordered => Binary64.units_strictMono.le_iff_le.mp ordered
  cases negative <;> cases negative' <;>
    simp only [Binary64.signed_false, Binary64.signed_true] at ordered ⊢
  · have ordered' : Binary64.units code ≤ Binary64.units code' := Int.ofNat_le.mp ordered
    have larger := units_le (roundedCode_mono finite' (codes_le ordered') precision)
    omega
  · -- both values are zero
    have none : Binary64.units code = 0 ∧ Binary64.units code' = 0 := by omega
    rw [Binary64.units_eq_zero_iff, Binary64.units_eq_zero_iff] at none
    rw [none.1, none.2, roundedCode_zero]
    decide
  · omega
  · have ordered' : Binary64.units code' ≤ Binary64.units code := by omega
    have larger := units_le (roundedCode_mono finite (codes_le ordered') precision)
    omega

end Code

open Binary64 (Fits ofCode)

/-- Rounding is monotone, symmetric and idempotent, and fewer places round further. -/
theorem roundAway_order (precision precision' : Nat) {value other : Float}
    (finite : Binary64.isFinite value) (finite' : Binary64.isFinite other) :
    ∃ rounded rounded' finer, roundAway precision value = .ok rounded ∧
      roundAway precision other = .ok rounded' ∧
      roundAway precision' value = .ok finer ∧
      (value ≤ other → rounded ≤ rounded') ∧
      roundAway precision (-value) = .ok (-rounded) ∧
      (precision ≤ precision' → value.abs ≤ finer.abs ∧ finer.abs ≤ rounded.abs) ∧
      roundAway precision rounded = .ok rounded := by
  rw [Binary64.isFinite_iff] at finite finite'
  have whole := Binary64.ofCode_code value
  have whole' := Binary64.ofCode_code other
  generalize Binary64.isNegative value = negative at *
  generalize Binary64.code value = code at *
  generalize Binary64.isNegative other = negative' at *
  generalize Binary64.code other = code' at *
  subst whole whole'
  have fits := fits_roundedCode finite precision
  have fits' := fits_roundedCode finite' precision
  have fitsFiner := fits_roundedCode finite precision'
  refine ⟨_, _, _, roundAway_ofCode_eq finite negative precision,
    roundAway_ofCode_eq finite' negative' precision,
    roundAway_ofCode_eq finite negative precision', ?_, ?_, ?_, ?_⟩
  · rw [Binary64.ofCode_le_ofCode_iff finite finite',
      Binary64.ofCode_le_ofCode_iff fits.finite fits'.finite]
    intro ordered
    exact signed_roundedCode_mono finite finite' ordered precision
  · rw [Binary64.neg_ofCode negative finite, Binary64.neg_ofCode negative fits.finite]
    exact roundAway_ofCode_eq finite (!negative) precision
  · intro coarser
    rw [Binary64.abs_ofCode_le_abs_ofCode_iff finite fitsFiner.finite,
      Binary64.abs_ofCode_le_abs_ofCode_iff fitsFiner.finite fits.finite]
    exact ⟨le_roundedCode finite precision', roundedCode_le_of_le coarser code⟩
  · exact roundAway_ofCode fits negative

theorem roundAway_order_thirds :
    let value : Float := -0.6666666666666666
    let other : Float := 0.30000000000000004
    Binary64.isFinite value ∧ Binary64.isFinite other ∧ value ≤ other ∧
      roundAway 2 value = .ok (-0.67) ∧ roundAway 2 other = .ok 0.31 ∧
      (-0.67 : Float) ≤ 0.31 ∧
      roundAway 2 (-value) = .ok (-(-0.67)) ∧
      value.abs ≤ Float.abs (-0.6667) ∧ Float.abs (-0.6667) ≤ Float.abs (-0.67) ∧
      roundAway 2 (-0.67) = .ok (-0.67) := by
  intro value other
  have finite : Binary64.isFinite value := by decide +kernel
  have finite' : Binary64.isFinite other := by decide +kernel
  have ordered : value ≤ other := by decide +kernel
  have coarse : roundAway 2 value = .ok (-0.67) := by decide +kernel
  have coarse' : roundAway 2 other = .ok 0.31 := by decide +kernel
  have fine : roundAway 4 value = .ok (-0.6667) := by decide +kernel
  rcases roundAway_order 2 4 finite finite' with
    ⟨rounded, rounded', finer, rounds, rounds', roundsFiner, monotone, symmetric, nearer, again⟩
  cases coarse.symm.trans rounds
  cases coarse'.symm.trans rounds'
  cases fine.symm.trans roundsFiner
  exact ⟨finite, finite', ordered, coarse, coarse', monotone ordered, symmetric,
    (nearer (by decide)).1, (nearer (by decide)).2, again⟩

end Reckon
