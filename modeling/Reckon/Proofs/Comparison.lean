import Reckon.Proofs.Exact

/-!
# Comparing doubles

Doubles are compared by exponent and mantissa.  For finite ones this is the order of the
values that they stand for, to which the two zeros are the same.  A change of sign changes
nothing but the sign bit.
-/

namespace Reckon.Binary64

open Float.Model (UnpackedFloat)

variable {code code' : Nat} {negative negative' : Bool}

/-! ## Magnitudes -/

theorem shift_mono (ordered : code ≤ code') : shift code ≤ shift code' :=
  Nat.sub_le_sub_right (Nat.div_le_div_right ordered) 1

/-- Among codes of one shift the significand decides. -/
theorem significand_lt_of_shift_eq (less : code < code') (same : shift code = shift code') :
    significand code < significand code' := by
  have whole := shift_significand code
  have whole' := shift_significand code'
  rw [same] at whole
  omega

/-- Exponent and mantissa, in this order, compare as the codes do. -/
theorem compare_shift_significand (code code' : Nat) :
    (compare ((shift code : Int) - 1074) (shift code' - 1074)).then
        (compare (significand code) (significand code')) = compare code code' := by
  have less : ∀ {code code' : Nat}, code < code' →
      (shift code : Int) - 1074 < shift code' - 1074 ∨
        ((shift code : Int) - 1074 = shift code' - 1074 ∧
          significand code < significand code') := by
    intro code code' less
    rcases Nat.lt_or_eq_of_le (shift_mono less.le) with shorter | same
    · exact .inl (by omega)
    · exact .inr ⟨by rw [same], significand_lt_of_shift_eq less same⟩
  rcases Nat.lt_trichotomy code code' with below | rfl | above
  · rw [compare_lt_iff_lt.mpr below]
    rcases less below with shorter | ⟨same, smaller⟩
    · rw [compare_lt_iff_lt.mpr shorter]
      rfl
    · rw [compare_eq_iff_eq.mpr same, compare_lt_iff_lt.mpr smaller]
      rfl
  · rw [compare_eq_iff_eq.mpr rfl, compare_eq_iff_eq.mpr rfl, compare_eq_iff_eq.mpr rfl]
    rfl
  · rw [compare_gt_iff_gt.mpr above]
    rcases less above with shorter | ⟨same, smaller⟩
    · rw [compare_gt_iff_gt.mpr shorter]
      rfl
    · rw [compare_eq_iff_eq.mpr same.symm, compare_gt_iff_gt.mpr smaller]
      rfl

/-- The units compare as the codes do. -/
theorem compare_units (code code' : Nat) :
    compare (units code : Int) (units code') = compare code code' := by
  rcases Nat.lt_trichotomy code code' with below | rfl | above
  · rw [compare_lt_iff_lt.mpr below,
      compare_lt_iff_lt.mpr (Int.ofNat_lt.mpr (units_strictMono below))]
  · rw [compare_eq_iff_eq.mpr rfl, compare_eq_iff_eq.mpr rfl]
  · rw [compare_gt_iff_gt.mpr above,
      compare_gt_iff_gt.mpr (Int.ofNat_lt.mpr (units_strictMono above))]

/-! ## Signed values -/

/-- Negative values compare the other way round. -/
theorem compare_neg (first second : Int) :
    compare (-first) (-second) = (compare first second).swap := by
  rcases Int.lt_trichotomy first second with below | rfl | above
  · rw [compare_lt_iff_lt.mpr below, compare_gt_iff_gt.mpr (Int.neg_lt_neg below)]
    rfl
  · rw [compare_eq_iff_eq.mpr rfl, compare_eq_iff_eq.mpr rfl]
    rfl
  · rw [compare_gt_iff_gt.mpr above, compare_lt_iff_lt.mpr (Int.neg_lt_neg above)]
    rfl

/-- Two doubles taken apart compare as the values that they stand for. -/
theorem compare_unpacked (negative negative' : Bool) (code code' : Nat) :
    (unpacked negative code).compare (unpacked negative' code') =
      some (compare (signed negative (units code)) (signed negative' (units code'))) := by
  have units_pos : ∀ {code}, 0 < code → (0 : Int) < units code := fun positive =>
    Int.natCast_pos.mpr (Nat.pos_of_ne_zero (mt units_eq_zero_iff.mp positive.ne'))
  rcases Nat.eq_zero_or_pos code with rfl | positive
  · rw [signed_units_zero, unpacked_zero]
    rcases Nat.eq_zero_or_pos code' with rfl | positive'
    · rw [signed_units_zero, unpacked_zero, compare_eq_iff_eq.mpr rfl]
      rfl
    · rw [unpacked_of_pos _ positive']
      cases negative' with
      | false =>
          rw [signed_false, compare_lt_iff_lt.mpr (units_pos positive')]
          rfl
      | true =>
          rw [signed_true, compare_gt_iff_gt.mpr (Int.neg_neg_of_pos (units_pos positive'))]
          rfl
  rw [unpacked_of_pos _ positive]
  rcases Nat.eq_zero_or_pos code' with rfl | positive'
  · rw [signed_units_zero, unpacked_zero]
    cases negative with
    | false =>
        rw [signed_false, compare_gt_iff_gt.mpr (units_pos positive)]
        rfl
    | true =>
        rw [signed_true, compare_lt_iff_lt.mpr (Int.neg_neg_of_pos (units_pos positive))]
        rfl
  rw [unpacked_of_pos _ positive']
  have magnitudes := compare_shift_significand code code'
  rw [← compare_units code code'] at magnitudes
  have below := Int.neg_neg_of_pos (units_pos positive)
  have below' := Int.neg_neg_of_pos (units_pos positive')
  cases negative <;> cases negative' <;> simp only [signed_false, signed_true]
  · rw [← magnitudes]
    rfl
  · rw [compare_gt_iff_gt.mpr (below'.trans (units_pos positive))]
    rfl
  · rw [compare_lt_iff_lt.mpr (below.trans (units_pos positive'))]
    rfl
  · rw [compare_neg, ← magnitudes]
    rfl

/-- The order of doubles is that of their values. -/
theorem ofCode_le_ofCode_iff (finite : code < infinityCode) (finite' : code' < infinityCode) :
    ofCode negative code ≤ ofCode negative' code' ↔
      signed negative (units code) ≤ signed negative' (units code') := by
  change decide (UnpackedFloat.le (ofCode negative code).toModel.unpack
    (ofCode negative' code').toModel.unpack = true) = true ↔ _
  rw [unpack_ofCode negative finite, unpack_ofCode negative' finite', UnpackedFloat.le,
    compare_unpacked, decide_eq_true_iff, Option.any_some, Ordering.isLE_iff_ne_gt,
    compare_gt_iff_gt, not_lt]

/-- Doubles are equal if their values are. -/
theorem ofCode_beq_ofCode_iff (finite : code < infinityCode) (finite' : code' < infinityCode) :
    (ofCode negative code == ofCode negative' code') = true ↔
      signed negative (units code) = signed negative' (units code') := by
  change UnpackedFloat.beq (ofCode negative code).toModel.unpack
    (ofCode negative' code').toModel.unpack = true ↔ _
  rw [unpack_ofCode negative finite, unpack_ofCode negative' finite', UnpackedFloat.beq,
    compare_unpacked]
  simp

theorem neg_ofCode (negative : Bool) (finite : code < infinityCode) :
    -ofCode negative code = ofCode (!negative) code := by
  change Float.ofModel (.pack (ofCode negative code).toModel.unpack.neg) = _
  rw [unpack_ofCode negative finite, neg_unpacked, ← ofCode_eq_pack _ finite]

theorem abs_ofCode (negative : Bool) (finite : code < infinityCode) :
    (ofCode negative code).abs = ofCode false code := by
  change Float.ofModel (.pack (ofCode negative code).toModel.unpack.abs) = _
  have unsigned : (unpacked negative code).abs = unpacked false code := by
    rw [unpacked, unpacked]
    split <;> rfl
  rw [unpack_ofCode negative finite, unsigned, ← ofCode_eq_pack _ finite]

theorem abs_ofCode_le_abs_ofCode_iff (finite : code < infinityCode)
    (finite' : code' < infinityCode) :
    (ofCode negative code).abs ≤ (ofCode negative' code').abs ↔ code ≤ code' := by
  rw [abs_ofCode negative finite, abs_ofCode negative' finite',
    ofCode_le_ofCode_iff finite finite', signed_false, signed_false, Int.ofNat_le]
  exact units_strictMono.le_iff_le

theorem isFinite_iff {value : Float} : isFinite value ↔ Binary64.code value < infinityCode :=
  decide_eq_true_iff

theorem ofCode_beq_zero_iff (negative : Bool) (finite : code < infinityCode) :
    (ofCode negative code == 0.0) = true ↔ code = 0 := by
  have zero : (0.0 : Float) = ofCode false 0 := by decide +kernel
  rw [zero, ofCode_beq_ofCode_iff finite (by decide), signed_units_zero, ← Int.natAbs_eq_zero,
    natAbs_signed, units_eq_zero_iff]

end Reckon.Binary64
