import Mathlib
import Reckon.Proofs.Nearest

/-!
# Doubles taken apart

The bit pattern of a finite double consists of its sign and its code.  Taken apart for
arithmetic, the double is a zero, or has the significand of the code as its mantissa and
the shift, counted from the smallest exponent, as its exponent.
-/

namespace Reckon.Binary64

open Float.Model (UnpackedFloat)
open Float.Model.UnpackedFloat (Sign)

variable {code : Nat}

/-- The sign of a double as arithmetic sees it. -/
def signOf (negative : Bool) : Sign :=
  if negative then .negative else .positive

/-- The bit pattern of a sign and a code. -/
def bits (negative : Bool) (code : Nat) : Nat :=
  if negative then signBit + code else code

/-- A double taken apart: the sign, the significand and the exponent. -/
def unpacked (negative : Bool) (code : Nat) : UnpackedFloat :=
  if zero : significand code = 0 then .zero (signOf negative)
  else
    .finite (signOf negative) (significand code) (shift code - 1074)
      (Nat.pos_of_ne_zero zero)

theorem signBit_eq : signBit = 2048 * binade := by
  decide

theorem infinityCode_eq : infinityCode = 2047 * binade := by
  decide

theorem bits_lt (negative : Bool) (finite : code ≤ infinityCode) :
    bits negative code < Nat.pow 2 64 := by
  have range : infinityCode + signBit < Nat.pow 2 64 := by decide
  rw [bits]
  split <;> omega

/-- The same as a word. -/
def word (negative : Bool) (code : Nat) : BitVec 64 :=
  BitVec.ofNat 64 (bits negative code)

section Fields

variable (negative : Bool)

theorem toNat_word (finite : code ≤ infinityCode) :
    (word negative code).toNat = bits negative code := by
  rw [word, BitVec.toNat_ofNat]
  exact Nat.mod_eq_of_lt (bits_lt negative finite)

theorem unpackMantissa_word (finite : code ≤ infinityCode) :
    (@UnpackedFloat.unpackMantissa .binary64 (word negative code)).toNat = code % binade := by
  change ((word negative code).toNat >>> 0) % binade = code % binade
  rw [toNat_word negative finite, Nat.shiftRight_zero, bits]
  split
  · rw [signBit_eq, Nat.mul_add_mod_self_right]
  · rfl

theorem unpackExponent_word (finite : code ≤ infinityCode) :
    (@UnpackedFloat.unpackExponent .binary64 (word negative code)).toNat = code / binade := by
  change ((word negative code).toNat >>> 52) % 2048 = code / binade
  rw [toNat_word negative finite, Nat.shiftRight_eq_div_pow]
  simp only [bits, infinityCode, signBit, binade] at finite ⊢
  norm_num
  split <;> omega

theorem unpackExponent_word_ne (finite : code < infinityCode) :
    @UnpackedFloat.unpackExponent .binary64 (word negative code) ≠ -1#11 := by
  intro infinite
  have exponent := unpackExponent_word negative finite.le
  rw [infinite] at exponent
  have whole : code / binade = 2047 := exponent.symm
  rw [infinityCode_eq, Nat.mul_comm] at finite
  have := Nat.div_lt_of_lt_mul finite
  omega

theorem unpackSign_word (finite : code < infinityCode) :
    Sign.ofBitVec (@UnpackedFloat.unpackSign .binary64 (word negative code)) =
      signOf negative := by
  have top : (@UnpackedFloat.unpackSign .binary64 (word negative code)).toNat =
      (BitVec.ofBool negative).toNat := by
    change ((word negative code).toNat >>> 63) % 2 = _
    rw [toNat_word negative finite.le, Nat.shiftRight_eq_div_pow]
    simp only [bits, infinityCode, signBit] at finite ⊢
    cases negative with
    | false =>
        change code / 2 ^ 63 % 2 = 0
        omega
    | true =>
        change (0x8000000000000000 + code) / 2 ^ 63 % 2 = 1
        omega
  rw [BitVec.eq_of_toNat_eq top]
  cases negative <;> rfl

end Fields

theorem finite_congr {sign : Sign} {mantissa mantissa' : Nat} {exponent exponent' : Int}
    {positive : 0 < mantissa} {positive' : 0 < mantissa'} (mantissas : mantissa = mantissa')
    (exponents : exponent = exponent') :
    UnpackedFloat.finite sign mantissa exponent positive =
      .finite sign mantissa' exponent' positive' := by
  subst mantissas exponents
  rfl

theorem unpack_word (negative : Bool) (finite : code < infinityCode) :
    UnpackedFloat.unpack .binary64 (word negative code) = unpacked negative code := by
  have mantissa := unpackMantissa_word negative finite.le
  have exponent := unpackExponent_word negative finite.le
  rw [UnpackedFloat.unpack]
  dsimp only
  rw [if_neg (unpackExponent_word_ne negative finite), unpackSign_word negative finite]
  rcases Nat.lt_or_ge code binade with subnormal | normal
  · have first : @UnpackedFloat.unpackExponent .binary64 (word negative code) = 0#11 := by
      apply BitVec.eq_of_toNat_eq
      rw [exponent, Nat.div_eq_of_lt subnormal]
      rfl
    rw [Nat.mod_eq_of_lt subnormal] at mantissa
    have significant : significand code = code := if_pos subnormal
    rw [if_pos first, unpacked]
    split <;> rename_i zero
    · rw [dif_pos (by rw [significant, ← mantissa, zero]; rfl)]
    · rw [dif_neg]
      · apply finite_congr
        · rw [mantissa, significant]
        · rw [first, shift_of_lt subnormal]
          rfl
      · rw [significant, ← mantissa]
        exact fun none => zero (BitVec.eq_of_toNat_eq none)
  · have later : @UnpackedFloat.unpackExponent .binary64 (word negative code) ≠ 0#11 := by
      intro first
      rw [first] at exponent
      have whole : 0 = code / binade := exponent
      have := (Nat.one_le_div_iff binade_pos).mpr normal
      omega
    have nonzero := (significand_pos (binade_pos.trans_le normal)).ne'
    rw [if_neg later, unpacked, dif_neg nonzero]
    apply finite_congr
    · have small := Nat.mod_lt code binade_pos
      rw [BitVec.toNat_append, mantissa, significand, if_neg (Nat.not_lt.mpr normal),
        ← Nat.shiftLeft_add_eq_or_of_lt small]
      rfl
    · have binades := (Nat.one_le_div_iff binade_pos).mpr normal
      rw [exponent, shift]
      change ((code / binade : Nat) : Int) - (1023 + 52) = _
      omega

/-! ## The double of a sign and a code -/

theorem ofCode_eq_pack (negative : Bool) (finite : code < infinityCode) :
    ofCode negative code = .ofModel (.pack (unpacked negative code)) := by
  rw [← unpack_word negative finite]
  rfl

theorem toBits_ofCode (negative : Bool) (finite : code < infinityCode) :
    (ofCode negative code).toBits.toBitVec = word negative code := by
  have notNaN : ¬@UnpackedFloat.isNaNBits .binary64 (word negative code) := by
    simp only [UnpackedFloat.isNaNBits, decide_eq_true_eq, not_and]
    intro infinite
    exact (unpackExponent_word_ne negative finite infinite).elim
  have packed := @UnpackedFloat.pack_unpack .binary64 (word negative code) (by decide)
  rw [if_neg notNaN] at packed
  exact packed

theorem unpack_ofCode (negative : Bool) (finite : code < infinityCode) :
    (ofCode negative code).toModel.unpack = unpacked negative code := by
  rw [← unpack_word negative finite, ← toBits_ofCode negative finite]
  rfl

theorem toNat_toBits_ofCode (negative : Bool) (finite : code < infinityCode) :
    (ofCode negative code).toBits.toNat = bits negative code := by
  rw [← toNat_word negative finite.le, ← toBits_ofCode negative finite]
  rfl

theorem lt_signBit (finite : code < infinityCode) : code < signBit :=
  finite.trans (by decide)

@[simp] theorem code_ofCode (negative : Bool) (finite : code < infinityCode) :
    Binary64.code (ofCode negative code) = code := by
  have small := lt_signBit finite
  rw [Binary64.code, toNat_toBits_ofCode negative finite, bits]
  split
  · rw [Nat.add_mod_left, Nat.mod_eq_of_lt small]
  · exact Nat.mod_eq_of_lt small

@[simp] theorem isNegative_ofCode (negative : Bool) (finite : code < infinityCode) :
    isNegative (ofCode negative code) = negative := by
  have small := lt_signBit finite
  rw [isNegative, toNat_toBits_ofCode negative finite, bits]
  cases negative <;> simp [small]

@[simp] theorem isFinite_ofCode (negative : Bool) (finite : code < infinityCode) :
    isFinite (ofCode negative code) := by
  rw [isFinite, code_ofCode negative finite, decide_eq_true_eq]
  exact finite

/-- A double is determined by its sign and its code. -/
theorem ofCode_code (value : Float) : ofCode (isNegative value) (Binary64.code value) = value := by
  have range : value.toBits.toNat < 2 * signBit := value.toBits.toNat_lt
  have whole : bits (isNegative value) (Binary64.code value) = value.toBits.toNat := by
    rw [bits, isNegative, Binary64.code]
    simp only [decide_eq_true_eq]
    split <;> rename_i sign
    · rw [Nat.mod_eq_sub_mod sign, Nat.mod_eq_of_lt (by omega), Nat.add_sub_cancel' sign]
    · exact Nat.mod_eq_of_lt (Nat.not_le.mp sign)
  change Float.ofBits (UInt64.ofNat (bits _ _)) = value
  rw [whole, UInt64.ofNat_toNat, Float.ofBits_toBits]

end Reckon.Binary64
