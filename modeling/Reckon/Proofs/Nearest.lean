import Mathlib.Data.Nat.Log
import Mathlib.Order.Monotone.Basic
import Mathlib.Tactic.Ring
import Reckon.Binary64

/-!
# Rounding to the nearest double

The units of a code are its significand, shifted to the left.  They grow with the
code, and rounding is monotone and gives back what is a double already.  So a
fraction between two that are rounded to one double is rounded to it, too.
-/

namespace Reckon.Binary64

variable {code other : Nat}

/-! ## Significand and shift -/

/-- The digits of a finite magnitude in binary, at most 53 of them. -/
def significand (code : Nat) : Nat :=
  if code < binade then code else binade + code % binade

/-- The number of zeros behind the significand. -/
def shift (code : Nat) : Nat :=
  code / binade - 1

theorem binade_pos : 0 < binade := by
  decide

theorem binade_eq : binade = Nat.pow 2 52 := by
  decide

/-- The number of zeros behind the leading bit of the units of one. -/
def zerosOfOne : Nat :=
  1074

theorem unitsPerOne_eq : unitsPerOne = Nat.pow 2 zerosOfOne := by
  decide +kernel

theorem power_pos (places : Nat) : 0 < Nat.pow 2 places :=
  Nat.pow_pos (by decide)

theorem power_add (first second : Nat) :
    Nat.pow 2 (first + second) = Nat.pow 2 first * Nat.pow 2 second :=
  Nat.pow_add 2 first second

theorem power_dvd {low high : Nat} (ordered : low ≤ high) : Nat.pow 2 low ∣ Nat.pow 2 high :=
  Nat.pow_dvd_pow 2 ordered

theorem lt_of_power_lt {low high : Nat} (less : Nat.pow 2 low < Nat.pow 2 high) : low < high :=
  (Nat.pow_lt_pow_iff_right (by decide)).mp less

theorem unitsPerOne_pos : 0 < unitsPerOne := by
  rw [unitsPerOne_eq]
  exact power_pos _

theorem significand_lt (code : Nat) : significand code < 2 * binade := by
  have rest := Nat.mod_lt code binade_pos
  rw [significand]
  split <;> omega

theorem le_significand (normal : binade ≤ code) : binade ≤ significand code := by
  rw [significand, if_neg (Nat.not_lt.mpr normal)]
  exact Nat.le_add_right _ _

theorem significand_pos (positive : 0 < code) : 0 < significand code := by
  rw [significand]
  split
  · exact positive
  · exact Nat.add_pos_left binade_pos _

theorem shift_of_lt (subnormal : code < binade) : shift code = 0 := by
  rw [shift, Nat.div_eq_of_lt subnormal]

theorem units_eq (code : Nat) : units code = significand code * Nat.pow 2 (shift code) := by
  rw [units, significand]
  split
  · rename_i subnormal
    rw [shift_of_lt subnormal]
    exact (Nat.mul_one code).symm
  · rfl

/-- A code counts the codes in front of its binade and its significand. -/
theorem shift_significand (code : Nat) : shift code * binade + significand code = code := by
  have parts := Nat.div_add_mod code binade
  rw [significand, shift]
  split
  · rename_i subnormal
    rw [Nat.div_eq_of_lt subnormal, Nat.zero_sub, Nat.zero_mul, Nat.zero_add]
  · rename_i normal
    have binades := (Nat.one_le_div_iff binade_pos).mpr (Nat.not_lt.mp normal)
    rw [← Nat.add_assoc, ← Nat.succ_mul, Nat.succ_eq_add_one, Nat.sub_add_cancel binades,
      Nat.mul_comm]
    exact parts

theorem code_unique {places digits : Nat} (few : digits < 2 * binade)
    (normal : places = 0 ∨ binade ≤ digits) :
    shift (places * binade + digits) = places ∧
      significand (places * binade + digits) = digits := by
  rw [shift, significand]
  rcases Nat.lt_or_ge digits binade with subnormal | normal'
  · rw [normal.resolve_right (Nat.not_le_of_lt subnormal), Nat.zero_mul, Nat.zero_add,
      if_pos subnormal, Nat.div_eq_of_lt subnormal]
    exact ⟨rfl, rfl⟩
  · have whole : places * binade + digits = (digits - binade) + binade * (places + 1) := by
      rw [Nat.mul_comm binade, Nat.succ_mul]
      omega
    have quotient : (places * binade + digits) / binade = places + 1 := by
      rw [whole, Nat.add_mul_div_left _ _ binade_pos, Nat.div_eq_of_lt (by omega), Nat.zero_add]
    have rest : (places * binade + digits) % binade = digits - binade := by
      rw [whole, Nat.add_mul_mod_self_left, Nat.mod_eq_of_lt (by omega)]
    have large : ¬places * binade + digits < binade := by omega
    rw [quotient, if_neg large, rest]
    exact ⟨rfl, Nat.add_sub_cancel' normal'⟩

/-- What has at most 53 digits, the zeros behind them apart, is the units of a code. -/
theorem units_of_digits {places digits : Nat} (few : digits < 2 * binade)
    (normal : places = 0 ∨ binade ≤ digits) :
    units (places * binade + digits) = digits * Nat.pow 2 places := by
  rw [units_eq, (code_unique few normal).1, (code_unique few normal).2]

theorem log2_mul_pow {number : Nat} (positive : 0 < number) (places : Nat) :
    (number * Nat.pow 2 places).log2 = number.log2 + places := by
  have step : 0 < Nat.pow 2 places := power_pos _
  have bounds := (Nat.log2_eq_iff positive.ne').mp rfl
  apply (Nat.log2_eq_iff (Nat.mul_pos positive step).ne').mpr
  constructor
  · calc Nat.pow 2 (number.log2 + places)
      _ = Nat.pow 2 number.log2 * Nat.pow 2 places := power_add _ _
      _ ≤ number * Nat.pow 2 places := Nat.mul_le_mul_right _ bounds.1
  · calc number * Nat.pow 2 places
      _ < Nat.pow 2 (number.log2 + 1) * Nat.pow 2 places :=
        Nat.mul_lt_mul_of_pos_right bounds.2 step
      _ = Nat.pow 2 (number.log2 + 1 + places) := (power_add _ _).symm
      _ = Nat.pow 2 (number.log2 + places + 1) := congrArg _ (Nat.add_right_comm _ _ _)

/-- The bits of the units past the first 53 are the shift. -/
theorem log2_units (code : Nat) : (units code).log2 - 52 = shift code := by
  rcases Nat.eq_zero_or_pos code with rfl | positive
  · decide
  rcases Nat.lt_or_ge code binade with subnormal | normal
  · have small : code.log2 < 53 := by
      apply (Nat.log2_lt positive.ne').mpr
      exact subnormal.trans (by decide)
    rw [units_subnormal subnormal, shift_of_lt subnormal]
    omega
  · have large := le_significand normal
    have significant : (significand code).log2 = 52 := by
      apply (Nat.log2_eq_iff (binade_pos.trans_le large).ne').mpr
      exact ⟨large, significand_lt code⟩
    rw [units_eq, log2_mul_pow (binade_pos.trans_le large), significant, Nat.add_sub_cancel_left]

/-- The units to the next code. -/
theorem units_succ (code : Nat) : units (code + 1) = units code + Nat.pow 2 (shift code) := by
  have next : shift code * binade + (significand code + 1) = code + 1 := by
    rw [← Nat.add_assoc, shift_significand]
  have few := significand_lt code
  have normal : shift code = 0 ∨ binade ≤ significand code := by
    rcases Nat.lt_or_ge code binade with subnormal | normal
    · exact .inl (shift_of_lt subnormal)
    · exact .inr (le_significand normal)
  rw [units_eq code, ← Nat.succ_mul, Nat.succ_eq_add_one]
  rcases Nat.lt_or_ge (significand code + 1) (2 * binade) with inside | last
  · rw [← next]
    exact units_of_digits inside (normal.imp_right Nat.le_succ_of_le)
  · have carried : significand code + 1 = 2 * binade := by omega
    have begins : (shift code + 1) * binade + binade = code + 1 := by
      rw [← next, carried, Nat.succ_mul]
      omega
    rw [← begins, units_of_digits (by have := binade_pos; omega) (.inr le_rfl), carried]
    calc binade * Nat.pow 2 (shift code + 1)
      _ = binade * (Nat.pow 2 (shift code) * 2) := congrArg _ (Nat.pow_succ 2 _)
      _ = 2 * binade * Nat.pow 2 (shift code) := by ring

theorem units_strictMono : StrictMono units := by
  apply strictMono_nat_of_lt_succ
  intro code
  rw [units_succ]
  exact Nat.lt_add_of_pos_right (power_pos _)

/-- A number without bits past its first 53 is the units of a code. -/
theorem exists_units_eq {number : Nat} (divides : Nat.pow 2 (number.log2 - 52) ∣ number) :
    ∃ code, units code = number := by
  rcases divides with ⟨digits, factored⟩
  rw [Nat.mul_comm] at factored
  rcases Nat.eq_zero_or_pos number with rfl | positive
  · exact ⟨0, rfl⟩
  have shifted : 0 < Nat.pow 2 (number.log2 - 52) := power_pos _
  refine ⟨(number.log2 - 52) * binade + digits, ?_⟩
  rw [units_of_digits, ← factored]
  · apply Nat.lt_of_mul_lt_mul_right (a := Nat.pow 2 (number.log2 - 52))
    rw [← factored]
    calc number
      _ < Nat.pow 2 (number.log2 + 1) := Nat.lt_log2_self
      _ ≤ Nat.pow 2 (53 + (number.log2 - 52)) := Nat.pow_le_pow_right (by decide) (by omega)
      _ = 2 * binade * Nat.pow 2 (number.log2 - 52) := power_add _ _
  · rw [or_iff_not_imp_left]
    intro long
    apply Nat.le_of_mul_le_mul_right (c := Nat.pow 2 (number.log2 - 52)) _ shifted
    rw [← factored]
    calc binade * Nat.pow 2 (number.log2 - 52)
      _ = Nat.pow 2 52 * Nat.pow 2 (number.log2 - 52) := congrArg (· * _) binade_eq
      _ = Nat.pow 2 (52 + (number.log2 - 52)) := (power_add _ _).symm
      _ = Nat.pow 2 number.log2 := congrArg _ (by omega)
      _ ≤ number := Nat.log2_self_le positive.ne'

/-! ## Rounding a fraction -/

variable {numerator denominator numerator' denominator' : Nat}

/-- What lies below the rounded quotient is a half or more below the fraction,
at a half only if it is odd. -/
theorem lt_roundedQuotient_iff (positive : 0 < denominator) {number : Nat} :
    number < roundedQuotient numerator denominator ↔
      (2 * number + 1) * denominator < 2 * numerator ∨
        ((2 * number + 1) * denominator = 2 * numerator ∧ number % 2 = 1) := by
  have rest := Nat.mod_lt numerator positive
  have parts := Nat.div_add_mod numerator denominator
  rw [roundedQuotient]
  generalize numerator / denominator = quotient at *
  generalize numerator % denominator = remainder at *
  have double : (2 * number + 1) * denominator = 2 * (denominator * number) + denominator := by
    ring
  rcases Nat.lt_trichotomy number quotient with below | rfl | above
  · have := Nat.mul_le_mul_left denominator (Nat.succ_le_of_lt below)
    rw [Nat.mul_succ] at this
    split <;> omega
  · split <;> omega
  · have := Nat.mul_le_mul_left denominator (Nat.succ_le_of_lt above)
    rw [Nat.mul_succ] at this
    split <;> omega

/-- A larger fraction does not have a smaller rounded quotient. -/
theorem roundedQuotient_mono (positive : 0 < denominator) (positive' : 0 < denominator')
    (ordered : numerator * denominator' ≤ numerator' * denominator) :
    roundedQuotient numerator denominator ≤ roundedQuotient numerator' denominator' := by
  apply le_of_forall_lt
  intro number below
  rw [lt_roundedQuotient_iff positive] at below
  rw [lt_roundedQuotient_iff positive']
  have scaled : 2 * numerator * denominator' ≤ 2 * numerator' * denominator := by
    rw [Nat.mul_assoc, Nat.mul_assoc]
    exact Nat.mul_le_mul_left 2 ordered
  rcases below with below | ⟨half, odd⟩
  · left
    apply Nat.lt_of_mul_lt_mul_right (a := denominator)
    calc (2 * number + 1) * denominator' * denominator
      _ = (2 * number + 1) * denominator * denominator' := Nat.mul_right_comm _ _ _
      _ < 2 * numerator * denominator' := Nat.mul_lt_mul_of_pos_right below positive'
      _ ≤ 2 * numerator' * denominator := scaled
  · have bound : (2 * number + 1) * denominator' ≤ 2 * numerator' := by
      apply Nat.le_of_mul_le_mul_right _ positive
      rw [Nat.mul_right_comm, half]
      exact scaled
    rcases Nat.lt_or_eq_of_le bound with below | half
    · exact .inl below
    · exact .inr ⟨half, odd⟩

/-- A whole quotient is not rounded. -/
theorem roundedQuotient_mul (positive : 0 < denominator) (number : Nat) :
    roundedQuotient (number * denominator) denominator = number := by
  simp [roundedQuotient, Nat.mul_div_cancel _ positive, positive]

theorem roundedQuotient_le (positive : 0 < denominator) {bound : Nat}
    (below : numerator ≤ bound * denominator) :
    roundedQuotient numerator denominator ≤ bound := by
  rw [← roundedQuotient_mul positive bound]
  exact roundedQuotient_mono positive positive (Nat.mul_le_mul_right _ below)

theorem le_roundedQuotient (positive : 0 < denominator) {bound : Nat}
    (above : bound * denominator ≤ numerator) :
    bound ≤ roundedQuotient numerator denominator := by
  rw [← roundedQuotient_mul positive bound]
  exact roundedQuotient_mono positive positive (Nat.mul_le_mul_right _ above)

/-! ## The nearest code -/

/-- The number of bits that are cut off from a fraction of units. -/
def dropped (scaled denominator : Nat) : Nat :=
  (scaled / denominator).log2 - 52

theorem nearestCode_eq (numerator denominator : Nat) :
    nearestCode numerator denominator =
      let scaled := numerator * unitsPerOne
      let places := dropped scaled denominator
      min infinityCode
        (places * binade + roundedQuotient scaled (denominator * Nat.pow 2 places)) :=
  rfl

section Dropped

variable {scaled scaled' : Nat}

/-- What is left has at most 53 bits. -/
theorem lt_of_dropped (positive : 0 < denominator) (scaled : Nat) :
    scaled < 2 * binade * (denominator * Nat.pow 2 (dropped scaled denominator)) := by
  have size : scaled / denominator < Nat.pow 2 (53 + dropped scaled denominator) := by
    apply Nat.lt_log2_self.trans_le
    apply Nat.pow_le_pow_right (by decide)
    rw [dropped]
    omega
  calc scaled
    _ < Nat.pow 2 (53 + dropped scaled denominator) * denominator :=
      (Nat.div_lt_iff_lt_mul positive).mp size
    _ = 2 * binade * Nat.pow 2 (dropped scaled denominator) * denominator :=
      congrArg (· * denominator) (power_add _ _)
    _ = 2 * binade * (denominator * Nat.pow 2 (dropped scaled denominator)) := by ring

/-- What is left has 53 bits, unless nothing was cut off. -/
theorem le_of_dropped (positive : 0 < denominator) (some : 0 < dropped scaled denominator) :
    binade * (denominator * Nat.pow 2 (dropped scaled denominator)) ≤ scaled := by
  have nonzero : scaled / denominator ≠ 0 := by
    intro zero
    rw [dropped, zero] at some
    exact absurd some (by decide)
  have size : Nat.pow 2 52 * Nat.pow 2 (dropped scaled denominator) ≤ scaled / denominator := by
    calc Nat.pow 2 52 * Nat.pow 2 (dropped scaled denominator)
      _ = Nat.pow 2 (52 + dropped scaled denominator) := (power_add _ _).symm
      _ = Nat.pow 2 (scaled / denominator).log2 := by
        rw [dropped] at some ⊢
        exact congrArg _ (by omega)
      _ ≤ scaled / denominator := Nat.log2_self_le nonzero
  calc binade * (denominator * Nat.pow 2 (dropped scaled denominator))
    _ = Nat.pow 2 52 * Nat.pow 2 (dropped scaled denominator) * denominator := by
      rw [binade_eq]
      ring
    _ ≤ scaled := (Nat.le_div_iff_mul_le positive).mp size

/-- A larger fraction loses no fewer bits. -/
theorem dropped_mono (positive : 0 < denominator) (positive' : 0 < denominator')
    (ordered : scaled * denominator' ≤ scaled' * denominator) :
    dropped scaled denominator ≤ dropped scaled' denominator' := by
  have quotients : scaled / denominator ≤ scaled' / denominator' := by
    apply (Nat.le_div_iff_mul_le positive').mpr
    apply Nat.le_of_mul_le_mul_right _ positive
    calc scaled / denominator * denominator' * denominator
      _ = scaled / denominator * denominator * denominator' := Nat.mul_right_comm _ _ _
      _ ≤ scaled * denominator' := Nat.mul_le_mul_right _ (Nat.div_mul_le_self _ _)
      _ ≤ scaled' * denominator := ordered
  rw [dropped, dropped, Nat.log2_eq_log_two, Nat.log2_eq_log_two]
  exact Nat.sub_le_sub_right (Nat.log_mono_right quotients) 52

end Dropped

/-- Rounding is monotone. -/
theorem nearestCode_mono (positive : 0 < denominator) (positive' : 0 < denominator')
    (ordered : numerator * denominator' ≤ numerator' * denominator) :
    nearestCode numerator denominator ≤ nearestCode numerator' denominator' := by
  have scaledOrdered : numerator * unitsPerOne * denominator' ≤
      numerator' * unitsPerOne * denominator := by
    rw [Nat.mul_right_comm, Nat.mul_right_comm numerator']
    exact Nat.mul_le_mul_right _ ordered
  rw [nearestCode_eq, nearestCode_eq]
  dsimp only
  apply min_le_min_left
  have bits := dropped_mono positive positive' scaledOrdered
  have upper := roundedQuotient_le (Nat.mul_pos positive (power_pos _))
    (lt_of_dropped positive (numerator * unitsPerOne)).le
  rcases Nat.eq_or_lt_of_le bits with same | more
  · rw [← same]
    apply Nat.add_le_add_left
    apply roundedQuotient_mono (Nat.mul_pos positive (power_pos _))
      (Nat.mul_pos positive' (power_pos _))
    rw [← Nat.mul_assoc, ← Nat.mul_assoc]
    exact Nat.mul_le_mul_right _ scaledOrdered
  · -- the larger fraction is rounded in a later binade and has 53 bits there
    have lower := le_roundedQuotient (Nat.mul_pos positive' (power_pos _))
      (le_of_dropped positive' (Nat.zero_lt_of_lt more))
    have binades := Nat.mul_le_mul_right binade more
    rw [Nat.succ_mul] at binades
    omega

/-- Equal fractions are rounded alike. -/
theorem nearestCode_congr (positive : 0 < denominator) (positive' : 0 < denominator')
    (equal : numerator * denominator' = numerator' * denominator) :
    nearestCode numerator denominator = nearestCode numerator' denominator' :=
  Nat.le_antisymm (nearestCode_mono positive positive' equal.le)
    (nearestCode_mono positive' positive equal.ge)

/-- A fraction that is a double already is rounded to it. -/
theorem nearestCode_units (positive : 0 < denominator) (finite : code ≤ infinityCode)
    (exact : numerator * unitsPerOne = units code * denominator) :
    nearestCode numerator denominator = code := by
  have grouped : significand code * Nat.pow 2 (shift code) * denominator =
      significand code * (denominator * Nat.pow 2 (shift code)) := by ring
  have step : 0 < denominator * Nat.pow 2 (shift code) :=
    Nat.mul_pos positive (power_pos _)
  rw [nearestCode_eq, exact]
  dsimp only
  rw [dropped, Nat.mul_div_cancel _ positive, log2_units, units_eq, grouped,
    roundedQuotient_mul step, shift_significand, Nat.min_eq_right finite]

end Reckon.Binary64
