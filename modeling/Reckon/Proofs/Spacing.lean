import Reckon.Proofs.Comparison
import Reckon.Proofs.Shortest

/-!
# Fractions between two doubles

The code of a fraction steps from one double to the next half way between the two.  So a
step of a decimal grid that passes over a double is at least as long as half the distance of
its neighbours, and one whose ends are rounded to the same double is at most as long as that.
The distance of doubles changes only at doubles that are on every grid.  Hence no step of the
one kind is followed by one of the other kind.
-/

namespace Reckon.Binary64

variable {code numerator denominator : Nat}

/-- The units of a code and of the next one. -/
theorem units_of_parts {places digits : Nat} (few : digits < 2 * binade)
    (normal : places = 0 ∨ binade ≤ digits) :
    units (places * binade + digits) = digits * Nat.pow 2 places ∧
      units (places * binade + digits + 1) = (digits + 1) * Nat.pow 2 places := by
  have parts := units_of_digits few normal
  rw [units_succ, parts, (code_unique few normal).1, Nat.succ_mul]
  exact ⟨rfl, rfl⟩

/-- A rounded quotient is at most half away. -/
theorem roundedQuotient_near (positive : 0 < denominator) (numerator : Nat) :
    2 * roundedQuotient numerator denominator * denominator ≤ 2 * numerator + denominator ∧
      2 * numerator ≤ 2 * roundedQuotient numerator denominator * denominator + denominator := by
  have half := fun number : Nat =>
    @lt_roundedQuotient_iff numerator denominator positive number
  generalize roundedQuotient numerator denominator = quotient at *
  constructor
  · rcases quotient with _ | fewer
    · omega
    · have above := (half fewer).mp (Nat.lt_succ_self fewer)
      have parts : 2 * (fewer + 1) * denominator = (2 * fewer + 1) * denominator + denominator := by
        ring
      omega
  · have below := mt (half quotient).mpr (Nat.lt_irrefl quotient)
    have parts : (2 * quotient + 1) * denominator = 2 * quotient * denominator + denominator := by
      ring
    omega

/-- A fraction of units is cut to at most 53 bits, and to 53 unless nothing is cut off.  What
is left is at most half a step away. -/
structure IsCut (scaled step places digits : Nat) : Prop where
  few : digits ≤ 2 * binade
  normal : places = 0 ∨ binade ≤ digits
  large : places = 0 ∨ binade * step ≤ scaled
  small : scaled ≤ 2 * binade * step
  near : 2 * digits * step ≤ 2 * scaled + step ∧ 2 * scaled ≤ 2 * digits * step + step

theorem exists_isCut (positive : 0 < denominator) (numerator : Nat) :
    ∃ places digits, nearestCode numerator denominator =
        min infinityCode (places * binade + digits) ∧
      IsCut (numerator * unitsPerOne) (denominator * Nat.pow 2 places) places digits := by
  rw [nearestCode_eq]
  dsimp only
  generalize numerator * unitsPerOne = scaled
  have stepPositive : 0 < denominator * Nat.pow 2 (dropped scaled denominator) :=
    Nat.mul_pos positive (power_pos _)
  have small := (lt_of_dropped positive scaled).le
  have large : dropped scaled denominator = 0 ∨
      binade * (denominator * Nat.pow 2 (dropped scaled denominator)) ≤ scaled :=
    (Nat.eq_zero_or_pos _).imp_right (le_of_dropped positive)
  exact ⟨dropped scaled denominator, _, rfl, {
    few := roundedQuotient_le stepPositive small
    normal := large.imp_right (le_roundedQuotient stepPositive)
    large
    small
    near := roundedQuotient_near stepPositive scaled }⟩

/-- The significand that a fraction is cut to and the one below. -/
theorem IsCut.half_le {scaled places digits last : Nat}
    (cut : IsCut scaled (denominator * Nat.pow 2 places) places digits)
    (whole : last + 1 = places * binade + digits) :
    (units last + units (last + 1)) * denominator ≤ 2 * scaled := by
  rcases digits with _ | fewer
  · have none := cut.normal.resolve_right (Nat.not_le_of_lt binade_pos)
    rw [none, Nat.zero_mul] at whole
    cases whole
  have below : last = places * binade + fewer := Nat.succ.inj whole
  by_cases inside : places = 0 ∨ binade ≤ fewer
  · have parts := units_of_parts (Nat.lt_of_succ_le cut.few) inside
    have grouped : (fewer * Nat.pow 2 places + (fewer + 1) * Nat.pow 2 places) * denominator +
        denominator * Nat.pow 2 places = 2 * (fewer + 1) * (denominator * Nat.pow 2 places) := by
      ring
    have near := cut.near.1
    rw [below, parts.1, parts.2]
    omega
  · -- the double is the first of its binade, and the fraction is not below it
    rw [not_or] at inside
    have large := cut.large.resolve_left inside.1
    have normal := cut.normal.resolve_left inside.1
    have first : fewer + 1 = binade := by omega
    have units_first : units (last + 1) = binade * Nat.pow 2 places := by
      rw [whole, first]
      exact units_of_digits (by have := binade_pos; omega) (.inr le_rfl)
    have smaller : units last < units (last + 1) := units_strictMono (Nat.lt_succ_self last)
    calc (units last + units (last + 1)) * denominator
      _ ≤ (2 * units (last + 1)) * denominator := Nat.mul_le_mul_right _ (by omega)
      _ = 2 * (binade * (denominator * Nat.pow 2 places)) := by
        rw [units_first]
        ring
      _ ≤ 2 * scaled := Nat.mul_le_mul_left 2 large

/-- The significand that a fraction is cut to and the next one. -/
theorem IsCut.le_half {scaled places digits : Nat}
    (cut : IsCut scaled (denominator * Nat.pow 2 places) places digits) :
    2 * scaled ≤
      (units (places * binade + digits) + units (places * binade + digits + 1)) *
        denominator := by
  rcases Nat.lt_or_eq_of_le cut.few with inside | last
  · have parts := units_of_parts inside cut.normal
    have near := cut.near.2
    rw [parts.1, parts.2]
    calc 2 * scaled
      _ ≤ 2 * digits * (denominator * Nat.pow 2 places) + denominator * Nat.pow 2 places := near
      _ = (digits * Nat.pow 2 places + (digits + 1) * Nat.pow 2 places) * denominator := by ring
  · -- the significand carried into the next binade
    have carried : places * binade + digits = (places + 1) * binade + binade := by
      rw [last]
      ring
    have units_first : units (places * binade + digits) = binade * Nat.pow 2 (places + 1) := by
      rw [carried]
      exact units_of_digits (by have := binade_pos; omega) (.inr le_rfl)
    have smaller : units (places * binade + digits) < units (places * binade + digits + 1) :=
      units_strictMono (Nat.lt_succ_self _)
    calc 2 * scaled
      _ ≤ 2 * (2 * binade * (denominator * Nat.pow 2 places)) := Nat.mul_le_mul_left 2 cut.small
      _ = 2 * units (places * binade + digits) * denominator := by
        rw [units_first, show Nat.pow 2 (places + 1) = Nat.pow 2 places * 2 from rfl]
        ring
      _ ≤ _ := Nat.mul_le_mul_right _ (by omega)

/-- What is rounded above a double lies at least half way to the next one. -/
theorem half_le_of_lt_nearestCode (positive : 0 < denominator)
    (above : code < nearestCode numerator denominator) :
    (units code + units (code + 1)) * denominator ≤ 2 * (numerator * unitsPerOne) := by
  rcases exists_isCut positive numerator with ⟨places, digits, rounded, cut⟩
  have below : code < places * binade + digits :=
    above.trans_le (rounded.le.trans (Nat.min_le_right _ _))
  rcases Nat.exists_eq_add_of_lt below with ⟨more, whole⟩
  have larger := units_strictMono.monotone (Nat.le_add_right code more)
  have larger' := units_strictMono.monotone (Nat.succ_le_succ (Nat.le_add_right code more))
  calc (units code + units (code + 1)) * denominator
    _ ≤ (units (code + more) + units (code + more + 1)) * denominator :=
      Nat.mul_le_mul_right _ (Nat.add_le_add larger larger')
    _ ≤ 2 * (numerator * unitsPerOne) := cut.half_le whole.symm

/-- What is not rounded above a double lies at most half way to the next one. -/
theorem le_half_of_nearestCode_le (positive : 0 < denominator) (finite : code < infinityCode)
    (below : nearestCode numerator denominator ≤ code) :
    2 * (numerator * unitsPerOne) ≤ (units code + units (code + 1)) * denominator := by
  rcases exists_isCut positive numerator with ⟨places, digits, rounded, cut⟩
  have above : places * binade + digits ≤ code := by omega
  have larger := units_strictMono.monotone above
  have larger' := units_strictMono.monotone (Nat.succ_le_succ above)
  exact cut.le_half.trans (Nat.mul_le_mul_right _ (Nat.add_le_add larger larger'))

/-! ## Steps of a grid -/

/-- The next code has the same shift, or it is the first one with the next shift. -/
theorem shift_succ_cases (code : Nat) :
    shift (code + 1) = shift code ∨
      shift (code + 1) = shift code + 1 ∧
        units (code + 1) = binade * Nat.pow 2 (shift code + 1) := by
  have parts := shift_significand code
  have few := significand_lt code
  rcases Nat.lt_or_ge (significand code + 1) (2 * binade) with inside | last
  · have normal : shift code = 0 ∨ binade ≤ significand code + 1 := by
      rcases Nat.lt_or_ge code binade with subnormal | normal
      · exact .inl (shift_of_lt subnormal)
      · exact .inr ((le_significand normal).trans (Nat.le_succ _))
    left
    conv_lhs => rw [← parts, Nat.add_assoc]
    exact (code_unique inside normal).1
  · have carried : code + 1 = (shift code + 1) * binade + binade := by
      rw [Nat.succ_mul]
      omega
    have few' : binade < 2 * binade := by decide
    right
    rw [carried]
    exact ⟨(code_unique few' (.inr le_rfl)).1, units_of_digits few' (.inr le_rfl)⟩

/-- A double on the grid is nearest to its number of steps. -/
theorem nearestCode_of_onGrid {precision multiple : Nat} (finite : code < infinityCode)
    (onGrid : Nat.pow 2 zerosOfOne * multiple = units code * Digits.weight precision) :
    nearestCode multiple (Digits.weight precision) = code := by
  apply nearestCode_units (Digits.weight_pos _) finite.le
  rw [← onGrid, unitsPerOne_eq, Nat.mul_comm]

/-- A double that is the first one with its shift is on every grid, unless it is smaller than
one. -/
theorem exists_onGrid (precision : Nat) (large : zerosOfOne ≤ shift code + 52)
    (first : units code = binade * Nat.pow 2 (shift code)) :
    ∃ multiple, Nat.pow 2 zerosOfOne * multiple = units code * Digits.weight precision := by
  have divides : Nat.pow 2 zerosOfOne ∣ units code * Digits.weight precision := by
    apply Dvd.dvd.mul_right
    rw [first, binade_eq, ← power_add, Nat.add_comm]
    exact power_dvd large
  rcases divides with ⟨multiple, onGrid⟩
  exact ⟨multiple, onGrid.symm⟩

/-- Two neighbours on a grid, of which the first is rounded to less than a double and the
second to more. -/
structure Skips (precision number code : Nat) : Prop where
  few : precision ≤ 15
  finite : code + 2 < infinityCode
  near : nearestCode number (Digits.weight precision) ≤ code
  past : code + 1 < nearestCode (number + 1) (Digits.weight precision)

namespace Skips

variable {precision number code : Nat}

theorem not_onGrid (skips : Skips precision number code) (multiple : Nat) :
    Nat.pow 2 zerosOfOne * multiple ≠ units (code + 1) * Digits.weight precision := by
  intro onGrid
  have hit := nearestCode_of_onGrid ((Nat.lt_succ_self _).trans skips.finite) onGrid
  have positive := Digits.weight_pos precision
  have near := skips.near
  have past := skips.past
  rcases Nat.lt_or_ge number multiple with larger | smaller
  · have larger : number + 1 ≤ multiple := larger
    have atLeast := nearestCode_mono positive positive (Nat.mul_le_mul_right _ larger)
    omega
  · have atMost := nearestCode_mono positive positive (Nat.mul_le_mul_right _ smaller)
    omega

/-- The steps compared with the middles between the double that is skipped and its
neighbours. -/
theorem bounds (skips : Skips precision number code)
    (back : nearestCode (number + 2) (Digits.weight precision) ≤ code + 2) :
    let skipped := units (code + 1) * Digits.weight precision
    let stepBelow := Nat.pow 2 (shift code) * Digits.weight precision
    let step := Nat.pow 2 (shift (code + 1)) * Digits.weight precision
    let stepAbove := Nat.pow 2 (shift (code + 2)) * Digits.weight precision
    2 * (number * unitsPerOne) + stepBelow ≤ 2 * skipped ∧
      2 * skipped + step ≤ 2 * (number * unitsPerOne + unitsPerOne) ∧
      2 * (number * unitsPerOne + 2 * unitsPerOne) ≤ 2 * skipped + 2 * step + stepAbove := by
  have positive := Digits.weight_pos precision
  have finite := skips.finite
  have below := le_half_of_nearestCode_le positive (by omega) skips.near
  have middle := half_le_of_lt_nearestCode positive skips.past
  have above := le_half_of_nearestCode_le positive finite back
  have next := units_succ (code + 1)
  have nextButOne := units_succ (code + 2)
  have skipped := congrArg (· * Digits.weight precision) (units_succ code)
  simp only [Nat.add_assoc, Nat.reduceAdd] at below middle above next nextButOne skipped
  rw [nextButOne, next] at above
  rw [next] at middle
  simp only [Nat.add_mul] at below middle above skipped
  dsimp only
  omega

/-- The steps of the doubles are not shorter than those of the grid, so few of them make
one. -/
theorem zerosOfOne_lt (skips : Skips precision number code)
    (back : nearestCode (number + 2) (Digits.weight precision) ≤ code + 2) :
    zerosOfOne < shift (code + 2) + 50 := by
  have weight : Digits.weight precision < Nat.pow 2 50 :=
    (Nat.pow_le_pow_right (by decide) skips.few : Digits.weight precision ≤ 10 ^ 15).trans_lt
      (by decide)
  have longer : Nat.pow 2 (shift (code + 1)) * Digits.weight precision ≤
      Nat.pow 2 (shift (code + 2)) * Digits.weight precision :=
    Nat.mul_le_mul_right _ (Nat.pow_le_pow_right (by decide) (shift_mono (Nat.le_succ _)))
  have bounds := skips.bounds back
  apply lt_of_power_lt
  calc Nat.pow 2 zerosOfOne
    _ = unitsPerOne := unitsPerOne_eq.symm
    _ ≤ Nat.pow 2 (shift (code + 2)) * Digits.weight precision := by
      dsimp only at bounds
      omega
    _ < Nat.pow 2 (shift (code + 2)) * Nat.pow 2 50 :=
      Nat.mul_lt_mul_of_pos_left weight (power_pos _)
    _ = Nat.pow 2 (shift (code + 2) + 50) := (power_add _ _).symm

/-- Between steps of one length the grid has the same steps, and does not miss a double. -/
theorem shift_ne (skips : Skips precision number code)
    (back : nearestCode (number + 2) (Digits.weight precision) ≤ code + 2)
    (below : shift (code + 1) = shift code) : shift (code + 2) ≠ shift (code + 1) := by
  intro above
  have bounds := skips.bounds back
  dsimp only at bounds
  rw [above, ← below] at bounds
  have step : unitsPerOne = Nat.pow 2 (shift (code + 1)) * Digits.weight precision := by omega
  apply skips.not_onGrid (significand (code + 1))
  rw [← unitsPerOne_eq, step, units_eq]
  ring

/-- Where the step doubles, the double behind the one that is skipped is not on the grid
either. -/
theorem not_onGrid_above (skips : Skips precision number code)
    (back : nearestCode (number + 2) (Digits.weight precision) ≤ code + 2)
    (below : shift (code + 1) = shift code) (above : shift (code + 2) = shift (code + 1) + 1)
    (multiple : Nat) :
    Nat.pow 2 zerosOfOne * multiple ≠ units (code + 2) * Digits.weight precision := by
  intro onGrid
  have positive := unitsPerOne_pos
  have doubled : Nat.pow 2 (shift (code + 1) + 1) * Digits.weight precision =
      2 * (Nat.pow 2 (shift (code + 1)) * Digits.weight precision) := by
    rw [Nat.mul_comm 2, Nat.mul_right_comm]
    rfl
  have bounds := skips.bounds back
  dsimp only at bounds
  rw [above, doubled, ← below] at bounds
  rw [units_succ, Nat.add_mul, ← unitsPerOne_eq, Nat.mul_comm unitsPerOne] at onGrid
  rcases Nat.lt_or_ge (number + 1) multiple with larger | smaller
  · have reached := Nat.mul_le_mul_right unitsPerOne larger
    rw [Nat.succ_mul, Nat.succ_mul] at reached
    omega
  · have reached := Nat.mul_le_mul_right unitsPerOne smaller
    rw [Nat.succ_mul] at reached
    omega

/-- A binade has more than one double. -/
theorem not_carried_twice (first : units (code + 1) = binade * Nat.pow 2 (shift (code + 1)))
    (carried : shift (code + 2) = shift (code + 1) + 1) :
    units (code + 2) ≠ binade * Nat.pow 2 (shift (code + 2)) := by
  intro next
  have positive := power_pos (shift (code + 1))
  have doubled : Nat.pow 2 (shift (code + 1) + 1) = 2 * Nat.pow 2 (shift (code + 1)) :=
    Nat.mul_comm _ _
  rw [units_succ, first, carried, doubled, binade] at next
  omega

/-- The point of the grid after the next is not rounded to the double after the one that is
skipped. -/
theorem lt_nearestCode (skips : Skips precision number code) :
    code + 2 < nearestCode (number + 2) (Digits.weight precision) := by
  apply Nat.lt_of_not_le
  intro back
  have large := skips.zerosOfOne_lt back
  -- the step changes at most once among the three doubles, and then to a point of the grid
  have behind : shift (code + 2) = shift (code + 1) ∨
      shift (code + 2) = shift (code + 1) + 1 ∧
        units (code + 2) = binade * Nat.pow 2 (shift (code + 1) + 1) :=
    shift_succ_cases (code + 1)
  rcases behind with above | ⟨above, second⟩
  · rcases shift_succ_cases code with below | ⟨below, first⟩
    · exact skips.shift_ne back below above
    · rw [← below] at first
      rcases exists_onGrid precision (by omega) first with ⟨multiple, onGrid⟩
      exact skips.not_onGrid multiple onGrid
  · rw [← above] at second
    rcases shift_succ_cases code with below | ⟨below, first⟩
    · rcases exists_onGrid precision (by omega) second with ⟨multiple, onGrid⟩
      exact skips.not_onGrid_above back below above multiple onGrid
    · rw [← below] at first
      exact not_carried_twice first above second

end Skips

end Reckon.Binary64
