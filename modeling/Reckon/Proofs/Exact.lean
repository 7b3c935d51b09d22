import Reckon.Proofs.Unpacked

/-!
# Exact arithmetic on doubles

A sum, a difference or a product of doubles is exact whenever its true value is a double.
Only the sign of a zero is not determined by the value.
-/

namespace Reckon.Binary64

open Float.Model (UnpackedFloat totalExponent)
open Float.Model.UnpackedFloat

variable {code first second mantissa places : Nat}

/-! ## Rounding a double -/

/-- The exponent that a mantissa is to be shifted to is that of the code whose units it
stands for. -/
theorem targetExponent_eq (positive : 0 < mantissa)
    (exact : mantissa * Nat.pow 2 places = units code) :
    Float.Model.Format.binary64.targetExponent (totalExponent mantissa (places - 1074)) =
      shift code - 1074 := by
  have bits := log2_mul_pow positive places
  have dropped := log2_units code
  rw [exact] at bits
  rw [totalExponent, Float.Model.Format.targetExponent]
  change max ((mantissa.log2 : Int) + 1 + (places - 1074) - 53) (-1074) = _
  omega

/-- A shift that only drops zeros leaves no rest. -/
theorem shiftRight_exact (mantissa places : Nat) :
    ExtendedMantissa.mk (mantissa * Nat.pow 2 places) false false >>> places =
      .mk mantissa false false := by
  change Nat.repeat ExtendedMantissa.shiftRightOne places _ = _
  induction places generalizing mantissa with
  | zero =>
      rw [Nat.repeat]
      exact congrArg (ExtendedMantissa.mk · false false) (Nat.mul_one mantissa)
  | succ places ih =>
      have doubled : mantissa * Nat.pow 2 (places + 1) = mantissa * 2 * Nat.pow 2 places := by
        rw [Nat.mul_assoc, Nat.mul_comm 2]
        rfl
      rw [Nat.repeat, doubled, ih, ExtendedMantissa.shiftRightOne]
      simp

/-- Digits with fewer zeros behind them than a significand have the others themselves. -/
theorem eq_significand_mul (low : places ≤ shift code)
    (exact : mantissa * Nat.pow 2 places = units code) :
    mantissa = significand code * Nat.pow 2 (shift code - places) := by
  have step : 0 < Nat.pow 2 places := power_pos _
  apply Nat.eq_of_mul_eq_mul_right step
  calc mantissa * Nat.pow 2 places
    _ = significand code * Nat.pow 2 (shift code) := exact.trans (units_eq code)
    _ = significand code * Nat.pow 2 (shift code - places + places) := by
      rw [Nat.sub_add_cancel low]
    _ = significand code * (Nat.pow 2 (shift code - places) * Nat.pow 2 places) :=
      congrArg _ (power_add _ _)
    _ = significand code * Nat.pow 2 (shift code - places) * Nat.pow 2 places :=
      (Nat.mul_assoc _ _ _).symm

theorem shiftToTargetExponent_exact (positive : 0 < mantissa) (low : places ≤ shift code)
    (exact : mantissa * Nat.pow 2 places = units code) :
    shiftToTargetExponent .binary64 mantissa (places - 1074) .exact =
      (ExtendedMantissa.mk (significand code) false false, (shift code : Int) - 1074) := by
  have amount : ((shift code : Int) - 1074 - (places - 1074)).toNat = shift code - places := by
    omega
  rw [shiftToTargetExponent, shiftToExponent, targetExponent_eq positive exact, amount,
    ExtendedMantissa.ofMantissaAndAccuracy, eq_significand_mul low exact, shiftRight_exact]
  exact Prod.ext rfl (by dsimp only; omega)

/-- Digits that stand for the units of a code are rounded to that code. -/
theorem roundWithAccuracy_exact (negative : Bool) (positive : 0 < mantissa)
    (low : places ≤ shift code) (exact : mantissa * Nat.pow 2 places = units code) :
    roundWithAccuracy .binary64 (signOf negative) mantissa (places - 1074) .exact =
      unpacked negative code := by
  have significant : 0 < significand code := by
    apply Nat.pos_of_mul_pos_right
    rw [← eq_significand_mul low exact]
    exact positive
  have again := shiftToTargetExponent_exact significant le_rfl (units_eq code).symm
  rw [roundWithAccuracy, shiftToTargetExponent_exact positive low exact]
  dsimp only
  rw [ExtendedMantissa.roundedMantissa, ExtendedMantissa.accuracy, Accuracy.roundToNearestEven,
    again, dif_neg significant.ne', unpacked, dif_neg significant.ne']

/-- A mantissa with fewer digits than a significand is filled up with zeros first. -/
theorem round_exact (negative : Bool) (positive : 0 < mantissa)
    (exact : mantissa * Nat.pow 2 places = units code) :
    UnpackedFloat.round .binary64 (signOf negative) mantissa (places - 1074) =
      unpacked negative code := by
  have amount : ((places : Int) - 1074 - (shift code - 1074)).toNat = places - shift code := by
    omega
  have lowered : (places : Int) - 1074 - (places - shift code : Nat) =
      (min places (shift code) : Nat) - 1074 := by omega
  have filled : mantissa * Nat.pow 2 (places - shift code) *
      Nat.pow 2 (min places (shift code)) = units code := by
    rw [← exact, Nat.mul_assoc]
    congr 1
    calc Nat.pow 2 (places - shift code) * Nat.pow 2 (min places (shift code))
      _ = Nat.pow 2 (places - shift code + min places (shift code)) := (power_add _ _).symm
      _ = Nat.pow 2 places := congrArg _ (by omega)
  rw [UnpackedFloat.round, targetExponent_eq positive exact, decreaseExponent, amount]
  dsimp only
  rw [lowered, Nat.shiftLeft_eq]
  exact roundWithAccuracy_exact negative
    (Nat.mul_pos positive (power_pos _)) (Nat.min_le_right _ _) filled

/-! ## Signed values -/

/-- A magnitude with a sign. -/
def signed (negative : Bool) (magnitude : Nat) : Int :=
  (signOf negative).apply magnitude

@[simp] theorem signed_false (magnitude : Nat) : signed false magnitude = magnitude := rfl

@[simp] theorem signed_true (magnitude : Nat) : signed true magnitude = -magnitude := rfl

@[simp] theorem natAbs_signed (negative : Bool) (magnitude : Nat) :
    (signed negative magnitude).natAbs = magnitude := by
  cases negative <;> simp

theorem signed_neg_iff {negative : Bool} {magnitude : Nat} :
    signed negative magnitude < 0 ↔ negative = true ∧ magnitude ≠ 0 := by
  cases negative with
  | false => simp
  | true =>
      rw [signed_true, and_iff_right rfl]
      omega

@[simp] theorem signed_natAbs (value : Int) :
    signed (decide (value < 0)) value.natAbs = value := by
  rcases lt_or_ge value 0 with below | above
  · rw [decide_eq_true below, signed_true]
    omega
  · rw [decide_eq_false above.not_gt, signed_false]
    omega

theorem signed_mul (negative : Bool) (magnitude factor : Nat) :
    signed negative (magnitude * factor) = signed negative magnitude * factor := by
  cases negative <;> simp

theorem signed_xor_mul (negative negative' : Bool) (first second : Nat) :
    signed (negative ^^ negative') (first * second) =
      signed negative first * signed negative' second := by
  cases negative <;> cases negative' <;> simp

theorem normalize_exact {value : Int} (nonzero : value ≠ 0) (zeroSign : Sign)
    (exact : value.natAbs * Nat.pow 2 places = units code) :
    UnpackedFloat.normalize .binary64 value (places - 1074) zeroSign =
      unpacked (decide (value < 0)) code := by
  have positive : 0 < value.natAbs := Int.natAbs_pos.mpr nonzero
  rw [UnpackedFloat.normalize]
  rcases lt_or_gt_of_ne nonzero with below | above
  · have magnitude : (-value).toNat = value.natAbs := by omega
    rw [compare_lt_iff_lt.mpr below, decide_eq_true below]
    dsimp only
    rw [magnitude]
    exact round_exact true positive exact
  · have magnitude : value.toNat = value.natAbs := by omega
    rw [compare_gt_iff_gt.mpr above, decide_eq_false above.asymm]
    dsimp only
    rw [magnitude]
    exact round_exact false positive exact

/-! ## Sums -/

theorem unpacked_zero (negative : Bool) : unpacked negative 0 = .zero (signOf negative) := rfl

theorem unpacked_of_pos (negative : Bool) (positive : 0 < code) :
    unpacked negative code =
      .finite (signOf negative) (significand code) (shift code - 1074)
        (significand_pos positive) :=
  dif_neg (significand_pos positive).ne'

theorem units_eq_zero_iff : units code = 0 ↔ code = 0 := by
  constructor
  · intro zero
    exact units_strictMono.injective (zero.trans rfl)
  · rintro rfl
    rfl

/-- The mantissa that a double has at a smaller exponent. -/
theorem signed_units (negative : Bool) (low : places ≤ shift code) :
    (signOf negative).apply
        (decreaseExponent (significand code) (shift code - 1074) (places - 1074)).1 *
      (Nat.pow 2 places : Nat) = signed negative (units code) := by
  have amount : ((shift code : Int) - 1074 - (places - 1074)).toNat = shift code - places := by
    omega
  rw [decreaseExponent, amount]
  dsimp only
  rw [Nat.shiftLeft_eq]
  change signed negative _ * _ = _
  rw [← signed_mul, units_eq, Nat.mul_assoc]
  congr 2
  exact (power_add _ _).symm.trans (congrArg _ (Nat.sub_add_cancel low))

theorem signed_units_zero (negative : Bool) : signed negative (units 0) = 0 := by
  cases negative <;> rfl

theorem exists_normalize {value total : Int} (scaled : value * (Nat.pow 2 places : Nat) = total)
    (exact : total.natAbs = units code) :
    ∃ sign, UnpackedFloat.normalize .binary64 value (places - 1074) .positive =
        unpacked sign code ∧ signed sign (units code) = total := by
  subst scaled
  rcases eq_or_ne value 0 with rfl | nonzero
  · rw [Int.zero_mul, Int.natAbs_zero, eq_comm, units_eq_zero_iff] at exact
    subst exact
    exact ⟨false, rfl, (Int.zero_mul _).symm⟩
  · rw [Int.natAbs_mul, Int.natAbs_natCast] at exact
    refine ⟨_, normalize_exact nonzero .positive exact, ?_⟩
    rw [← exact, signed_mul, signed_natAbs]

theorem add_zero_exact (negative negative' : Bool) (second : Nat) :
    ∃ sign, UnpackedFloat.add .binary64 (unpacked negative 0) (unpacked negative' second) =
      unpacked sign second ∧ signed sign (units second) = signed negative' (units second) := by
  rcases Nat.eq_zero_or_pos second with rfl | positive
  · refine ⟨negative && negative', ?_, by rw [signed_units_zero, signed_units_zero]⟩
    cases negative <;> cases negative' <;> rfl
  · refine ⟨negative', ?_, rfl⟩
    rw [unpacked_zero, unpacked_of_pos negative' positive]
    rfl

/-- The sum of two doubles is exact if it is a double. -/
theorem add_exact (negative negative' : Bool)
    (exact : (signed negative (units first) + signed negative' (units second)).natAbs =
      units code) :
    ∃ sign, UnpackedFloat.add .binary64 (unpacked negative first) (unpacked negative' second) =
        unpacked sign code ∧
      signed sign (units code) =
        signed negative (units first) + signed negative' (units second) := by
  rcases Nat.eq_zero_or_pos first with rfl | firstPositive
  · rw [signed_units_zero, Int.zero_add, natAbs_signed] at exact
    rw [signed_units_zero, Int.zero_add, ← units_strictMono.injective exact]
    exact add_zero_exact negative negative' second
  rcases Nat.eq_zero_or_pos second with rfl | secondPositive
  · rw [signed_units_zero, Int.add_zero, natAbs_signed] at exact
    rw [signed_units_zero, Int.add_zero, ← units_strictMono.injective exact]
    refine ⟨negative, ?_, rfl⟩
    rw [unpacked_zero, unpacked_of_pos negative firstPositive]
    rfl
  have lowest : min ((shift first : Int) - 1074) (shift second - 1074) =
      (min (shift first) (shift second) : Nat) - 1074 := by omega
  have low := signed_units negative (Nat.min_le_left (shift first) (shift second))
  have low' := signed_units negative' (Nat.min_le_right (shift first) (shift second))
  rw [unpacked_of_pos _ firstPositive, unpacked_of_pos _ secondPositive, UnpackedFloat.add]
  dsimp only
  rw [lowest]
  apply exists_normalize _ exact
  rw [Int.add_mul, low, low']

theorem signOf_not (negative : Bool) : signOf (!negative) = -signOf negative := by
  cases negative <;> rfl

theorem neg_unpacked (negative : Bool) (code : Nat) :
    (unpacked negative code).neg = unpacked (!negative) code := by
  rw [unpacked, unpacked, signOf_not]
  split <;> rfl

/-- A difference is the sum with the negated subtrahend. -/
theorem sub_eq_add_neg (minuend subtrahend : UnpackedFloat) :
    UnpackedFloat.sub .binary64 minuend subtrahend =
      UnpackedFloat.add .binary64 minuend subtrahend.neg := by
  have apply_neg : ∀ (sign : Sign) (value : Int), (-sign).apply value = -sign.apply value := by
    intro sign value
    cases sign
    · exact (Int.neg_neg value).symm
    · rfl
  cases minuend <;> cases subtrahend <;>
    simp only [UnpackedFloat.sub, UnpackedFloat.add, UnpackedFloat.neg, apply_neg,
      Int.sub_eq_add_neg]

/-! ## Products -/

/-- Magnitudes from one on have 53 digits, at most 52 of them behind the point. -/
theorem normal_of_one_le (large : unitsPerOne ≤ units code) :
    binade ≤ code ∧ 1022 ≤ shift code := by
  constructor
  · apply Nat.le_of_not_lt
    intro subnormal
    rw [units_subnormal subnormal] at large
    have := large.trans_lt subnormal
    revert this
    decide +kernel
  · have few : units code < Nat.pow 2 (53 + shift code) := by
      calc units code
        _ = significand code * Nat.pow 2 (shift code) := units_eq code
        _ < 2 * binade * Nat.pow 2 (shift code) :=
          Nat.mul_lt_mul_of_pos_right (significand_lt code) (power_pos _)
        _ = Nat.pow 2 (53 + shift code) := (power_add 53 _).symm
    rw [unitsPerOne_eq] at large
    have bits := lt_of_power_lt (large.trans_lt few)
    rw [zerosOfOne] at bits
    omega

theorem signOf_xor (negative negative' : Bool) :
    signOf (negative ^^ negative') = signOf negative * signOf negative' := by
  cases negative <;> cases negative' <;> rfl

/-- A product of two mantissas that are at least one. -/
theorem mantissas_of_product (large : unitsPerOne ≤ units first)
    (large' : unitsPerOne ≤ units second)
    (exact : units first * units second = units code * unitsPerOne) :
    significand first * significand second *
        Nat.pow 2 (shift first + shift second - 1074) = units code := by
  have shifts : shift first + shift second - 1074 + zerosOfOne = shift first + shift second := by
    have := (normal_of_one_le large).2
    have := (normal_of_one_le large').2
    rw [zerosOfOne]
    omega
  generalize shift first + shift second - 1074 = places at shifts ⊢
  apply Nat.eq_of_mul_eq_mul_right unitsPerOne_pos
  calc significand first * significand second * Nat.pow 2 places * unitsPerOne
    _ = significand first * significand second * (Nat.pow 2 places * unitsPerOne) :=
      Nat.mul_assoc _ _ _
    _ = significand first * significand second * Nat.pow 2 (places + zerosOfOne) := by
      rw [unitsPerOne_eq]
      exact congrArg _ (power_add places zerosOfOne).symm
    _ = significand first * significand second * Nat.pow 2 (shift first + shift second) := by
      rw [shifts]
    _ = significand first * significand second *
        (Nat.pow 2 (shift first) * Nat.pow 2 (shift second)) :=
      congrArg _ (power_add _ _)
    _ = units first * units second := by
      rw [units_eq first, units_eq second]
      exact Nat.mul_mul_mul_comm _ _ _ _
    _ = units code * unitsPerOne := exact

theorem mul_exact_of_large (negative negative' : Bool) (large : unitsPerOne ≤ units first)
    (large' : unitsPerOne ≤ units second)
    (exact : units first * units second = units code * unitsPerOne) :
    UnpackedFloat.mul .binary64 (unpacked negative first) (unpacked negative' second) =
      unpacked (negative ^^ negative') code := by
  have normal := normal_of_one_le large
  have normal' := normal_of_one_le large'
  have firstPositive := binade_pos.trans_le normal.1
  have secondPositive := binade_pos.trans_le normal'.1
  have product := mantissas_of_product large large' exact
  have positive : 0 < significand first * significand second :=
    Nat.mul_pos (significand_pos firstPositive) (significand_pos secondPositive)
  have exponent : (shift first : Int) - 1074 + (shift second - 1074) =
      (shift first + shift second - 1074 : Nat) - 1074 := by omega
  have long : 52 ≤ (significand first * significand second).log2 := by
    apply (Nat.le_log2 positive.ne').mpr
    calc binade
      _ ≤ significand first := le_significand normal.1
      _ ≤ significand first * significand second :=
        Nat.le_mul_of_pos_right _ (significand_pos secondPositive)
  have low : shift first + shift second - 1074 ≤ shift code := by
    have bits := log2_mul_pow positive (shift first + shift second - 1074)
    have dropped := log2_units code
    rw [product] at bits
    omega
  rw [unpacked_of_pos _ firstPositive, unpacked_of_pos _ secondPositive, UnpackedFloat.mul,
    exponent, ← signOf_xor]
  exact roundWithAccuracy_exact _ positive low product

/-- The product of two doubles that are zero or at least one is exact if it is a double. -/
theorem mul_exact (negative negative' : Bool)
    (large : first = 0 ∨ unitsPerOne ≤ units first)
    (large' : second = 0 ∨ unitsPerOne ≤ units second)
    (exact : units first * units second = units code * unitsPerOne) :
    UnpackedFloat.mul .binary64 (unpacked negative first) (unpacked negative' second) =
      unpacked (negative ^^ negative') code := by
  have zero_code : units first * units second = 0 → code = 0 := by
    intro zero
    rw [zero, eq_comm, Nat.mul_eq_zero, units_eq_zero_iff] at exact
    exact exact.resolve_right unitsPerOne_pos.ne'
  rcases large with rfl | large
  · rw [zero_code (Nat.zero_mul _), unpacked_zero, unpacked_zero, signOf_xor]
    rcases Nat.eq_zero_or_pos second with rfl | positive
    · rfl
    · rw [unpacked_of_pos negative' positive]
      rfl
  rcases large' with rfl | large'
  · rw [zero_code (Nat.mul_zero _), unpacked_zero, unpacked_zero, signOf_xor,
      unpacked_of_pos negative (binade_pos.trans_le (normal_of_one_le large).1)]
    rfl
  exact mul_exact_of_large negative negative' large large' exact

/-! ## Doubles as numbers of units -/

variable {value other : Float} {count count' : Int}

/-- A finite double stands for a number of units; both zeros stand for none. -/
def CountsUnits (value : Float) (count : Int) : Prop :=
  ∃ negative code, code < infinityCode ∧ value = ofCode negative code ∧
    signed negative (units code) = count

/-- A number of units that some finite double stands for. -/
def IsCount (count : Int) : Prop :=
  ∃ code, code < infinityCode ∧ units code = count.natAbs

namespace CountsUnits

/-- All but a zero is determined by the number of units. -/
theorem eq_ofCode (counts : CountsUnits value count) (nonzero : count ≠ 0)
    (magnitude : units code = count.natAbs) : value = ofCode (decide (count < 0)) code := by
  rcases counts with ⟨negative, own, finite, rfl, rfl⟩
  rw [natAbs_signed] at magnitude
  rw [units_strictMono.injective magnitude]
  congr 1
  cases negative with
  | false => exact (decide_eq_false (Int.natCast_nonneg _).not_gt).symm
  | true =>
      rw [signed_true] at nonzero ⊢
      exact (decide_eq_true (by omega)).symm

theorem add (counts : CountsUnits value count) (counts' : CountsUnits other count')
    (double : IsCount (count + count')) : CountsUnits (value + other) (count + count') := by
  rcases counts with ⟨negative, code, finite, rfl, rfl⟩
  rcases counts' with ⟨negative', code', finite', rfl, rfl⟩
  rcases double with ⟨sum, finiteSum, exact⟩
  rcases add_exact negative negative' exact.symm with ⟨sign, added, signedSum⟩
  refine ⟨sign, sum, finiteSum, ?_, signedSum⟩
  rw [ofCode_eq_pack sign finiteSum, ← added, ← unpack_ofCode negative finite,
    ← unpack_ofCode negative' finite']
  rfl

/-- A difference is the sum with the opposite. -/
theorem sub (counts : CountsUnits value count) (counts' : CountsUnits other count')
    (double : IsCount (count - count')) : CountsUnits (value - other) (count - count') := by
  rcases counts' with ⟨negative', code', finite', rfl, rfl⟩
  have opposite : -signed negative' (units code') = signed (!negative') (units code') := by
    cases negative' <;> simp
  have negated : value - ofCode negative' code' = value + ofCode (!negative') code' := by
    change Float.ofModel (.pack (UnpackedFloat.sub .binary64 _ _)) =
      Float.ofModel (.pack (UnpackedFloat.add .binary64 _ _))
    rw [sub_eq_add_neg, unpack_ofCode negative' finite', unpack_ofCode (!negative') finite',
      neg_unpacked]
  rw [Int.sub_eq_add_neg, opposite] at double ⊢
  rw [negated]
  exact counts.add ⟨!negative', code', finite', rfl, rfl⟩ double

/-- A whole number is zero or at least one. -/
theorem large_of_whole {negative : Bool} {number : Int}
    (whole : signed negative (units code) = number * unitsPerOne) :
    code = 0 ∨ unitsPerOne ≤ units code := by
  have magnitude := congrArg Int.natAbs whole
  rw [natAbs_signed, Int.natAbs_mul, Int.natAbs_natCast] at magnitude
  rcases Nat.eq_zero_or_pos number.natAbs with zero | positive
  · left
    rw [zero, Nat.zero_mul] at magnitude
    exact units_eq_zero_iff.mp magnitude
  · right
    rw [magnitude]
    exact Nat.le_mul_of_pos_left _ positive

/-- A product of whole numbers is exact if it is a double. -/
theorem mul {number number' : Int} (counts : CountsUnits value (number * unitsPerOne))
    (counts' : CountsUnits other (number' * unitsPerOne))
    (double : IsCount (number * number' * unitsPerOne)) :
    CountsUnits (value * other) (number * number' * unitsPerOne) := by
  rcases counts with ⟨negative, code, finite, rfl, whole⟩
  rcases counts' with ⟨negative', code', finite', rfl, whole'⟩
  rcases double with ⟨product, finiteProduct, magnitude⟩
  have exact : signed (negative ^^ negative') (units code * units code') =
      number * number' * unitsPerOne * unitsPerOne := by
    rw [signed_xor_mul, whole, whole']
    ring
  have magnitudes : units code * units code' = units product * unitsPerOne := by
    rw [magnitude, ← natAbs_signed (negative ^^ negative') (units code * units code'), exact,
      Int.natAbs_mul _ (unitsPerOne : Int), Int.natAbs_natCast]
  have multiplied := mul_exact negative negative' (large_of_whole whole)
    (large_of_whole whole') magnitudes
  refine ⟨negative ^^ negative', product, finiteProduct, ?_, ?_⟩
  · rw [ofCode_eq_pack _ finiteProduct, ← multiplied, ← unpack_ofCode negative finite,
      ← unpack_ofCode negative' finite']
    rfl
  · have one : (unitsPerOne : Int) ≠ 0 := Int.natCast_ne_zero.mpr unitsPerOne_pos.ne'
    apply Int.eq_of_mul_eq_mul_right one
    rw [← signed_mul, ← magnitudes, exact]

end CountsUnits

end Reckon.Binary64
