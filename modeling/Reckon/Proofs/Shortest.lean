import Mathlib.Algebra.Order.Ring.Nat
import Reckon.Numeral.Shortest
import Reckon.Proofs.Nearest

/-!
# The shortest numeral reads back

The search for the shortest numeral of a finite magnitude ends with one that reads back
as this magnitude, and no numeral with fewer places does: on a grid without a hit among
the two neighbours of the exact value there is none at all, since rounding is monotone.
-/

namespace Reckon

namespace Digits

theorem weight_add (first second : Nat) :
    weight (first + second) = weight first * weight second :=
  Nat.pow_add 10 first second

theorem weight_succ (places : Nat) : weight (places + 1) = weight places * 10 :=
  weight_add places 1

theorem weight_eq (places : Nat) : weight places = Nat.pow 2 places * Nat.pow 5 places :=
  Nat.mul_pow 2 5 places

end Digits

namespace Numeral

variable {code level multiple : Nat}

/-- A numeral reads as the magnitude of a code. -/
def Reads (numeral : Numeral) (code : Nat) : Prop :=
  Binary64.nearestCode numeral.coefficient (Digits.weight numeral.places) = code

/-! ## Hits on a grid -/

theorem readsBack_iff :
    readsBack code multiple ↔
      Binary64.nearestCode multiple (Digits.weight finestPlaces) = code :=
  decide_eq_true_iff

/-- The exact value is on the finest grid. -/
theorem readsBack_finestMultiple (finite : code < Binary64.infinityCode) :
    readsBack code (finestMultiple code) := by
  rw [readsBack_iff]
  apply Binary64.nearestCode_units (Digits.weight_pos _) finite.le
  have zeros : Binary64.zerosOfOne = finestPlaces := rfl
  rw [finestMultiple, Digits.weight_eq, Binary64.unitsPerOne_eq, zeros, Nat.mul_assoc,
    Nat.mul_comm (Nat.pow 5 finestPlaces)]

/-- What lies between two hits is a hit. -/
theorem readsBack_of_between {low high : Nat} (lowReads : readsBack code low)
    (highReads : readsBack code high) (above : low ≤ multiple) (below : multiple ≤ high) :
    readsBack code multiple := by
  rw [readsBack_iff] at *
  have positive := Digits.weight_pos finestPlaces
  generalize Digits.weight finestPlaces = finest at *
  have atLeast := Binary64.nearestCode_mono positive positive (Nat.mul_le_mul_right _ above)
  have atMost := Binary64.nearestCode_mono positive positive (Nat.mul_le_mul_right _ below)
  omega

theorem passes_of_nearestPassing {passes : Nat → Bool} {exact step : Nat}
    (hit : nearestPassing passes exact step = some multiple) : passes (multiple * step) := by
  rw [nearestPassing] at hit
  split at hit
  · rename_i below above
    cases hit
    split
    · exact below
    · exact above
  · rename_i below _
    cases hit
    exact below
  · rename_i _ above
    cases hit
    exact above
  · cases hit

/-- If neither neighbour of the exact value is a hit, nothing on the grid is one. -/
theorem not_readsBack_of_nearestOnGrid (finite : code < Binary64.infinityCode)
    (noHit : nearestOnGrid code level = none) (multiple : Nat) :
    ¬readsBack code (multiple * Digits.weight level) := by
  intro reads
  have exact := readsBack_finestMultiple finite
  have step := Digits.weight_pos level
  rw [nearestOnGrid, nearestPassing] at noHit
  split at noHit
  · cases noHit
  · cases noHit
  · cases noHit
  · rename_i notBelow notAbove
    rcases Nat.lt_or_ge (finestMultiple code / Digits.weight level) multiple with larger | smaller
    · rw [readsBack_of_between exact reads] at notAbove
      · cases notAbove
      · exact (Nat.lt_mul_of_div_lt (Nat.lt_succ_self _) step).le
      · exact Nat.mul_le_mul_right _ larger
    · rw [readsBack_of_between reads exact] at notBelow
      · cases notBelow
      · exact Nat.mul_le_mul_right _ smaller
      · exact Nat.div_mul_le_self _ _

theorem readsBack_coarsestHit (finite : code < Binary64.infinityCode) (start : Nat) :
    readsBack code ((coarsestHit code start).1 * Digits.weight (coarsestHit code start).2) := by
  rw [coarsestHit]
  induction start with
  | zero =>
      rw [firstHit, Digits.weight_zero, Nat.mul_one]
      exact readsBack_finestMultiple finite
  | succ start ih =>
      rw [firstHit]
      split
      · rename_i hit
        exact passes_of_nearestPassing hit
      · exact ih

/-- No coarser grid has a hit. -/
theorem le_level_coarsestHit (finite : code < Binary64.infinityCode) {start : Nat}
    (started : level ≤ start) (reads : readsBack code (multiple * Digits.weight level)) :
    level ≤ (coarsestHit code start).2 := by
  rw [coarsestHit]
  induction start with
  | zero => exact started
  | succ start ih =>
      rw [firstHit]
      split
      · exact started
      · rename_i noHit
        apply ih
        apply Nat.le_of_lt_succ
        apply Nat.lt_of_le_of_ne started
        rintro rfl
        exact not_readsBack_of_nearestOnGrid finite noHit multiple reads

/-! ## Numerals of grids -/

theorem places_ofGrid (multiple level : Nat) :
    (ofGrid multiple level).places = finestPlaces - level := by
  rw [ofGrid]
  split <;> rw [places_ofScaled]
  omega

/-- A fraction stays the same on a finer grid. -/
theorem nearestCode_weight {places finer : Nat} (above : places ≤ finer) (coefficient : Nat) :
    Binary64.nearestCode coefficient (Digits.weight places) =
      Binary64.nearestCode (coefficient * Digits.weight (finer - places))
        (Digits.weight finer) := by
  apply Binary64.nearestCode_congr (Digits.weight_pos _) (Digits.weight_pos _)
  rw [Nat.mul_assoc, ← Digits.weight_add, Nat.sub_add_cancel above]

/-- A numeral of a grid reads as the point of the grid that it stands for. -/
theorem reads_ofGrid_iff :
    (ofGrid multiple level).Reads code ↔ readsBack code (multiple * Digits.weight level) := by
  rw [Reads, readsBack_iff, ofGrid]
  split
  · rename_i coarse
    rw [coefficient_ofScaled, places_ofScaled, nearestCode_weight (Nat.zero_le finestPlaces),
      Nat.mul_assoc, ← Digits.weight_add, Nat.sub_zero, Nat.sub_add_cancel coarse]
  · rw [coefficient_ofScaled, places_ofScaled, nearestCode_weight (Nat.sub_le finestPlaces level),
      Nat.sub_sub_self (by omega)]

theorem reads_shortest (finite : code < Binary64.infinityCode) : (shortest code).Reads code := by
  rw [shortest]
  exact reads_ofGrid_iff.mpr (readsBack_coarsestHit finite _)

theorem nearestCode_shortest (finite : code < Binary64.infinityCode) :
    Binary64.nearestCode (shortest code).coefficient (Digits.weight (shortest code).places) =
      code :=
  reads_shortest finite

theorem places_shortest_le_finestPlaces (code : Nat) : (shortest code).places ≤ finestPlaces := by
  rw [shortest]
  dsimp only
  rw [places_ofGrid]
  exact Nat.sub_le _ _

/-- No numeral that reads as the same magnitude has fewer places. -/
theorem Reads.places_shortest_le {numeral : Numeral} (finite : code < Binary64.infinityCode)
    (reads : numeral.Reads code) : (shortest code).places ≤ numeral.places := by
  rcases Nat.lt_or_ge finestPlaces numeral.places with fine | coarse
  · exact (places_shortest_le_finestPlaces code).trans fine.le
  · rw [Reads, nearestCode_weight coarse, ← readsBack_iff] at reads
    have started : finestPlaces - numeral.places ≤ startLevel code :=
      (Nat.sub_le _ _).trans (Nat.le_add_right _ _)
    have hit := le_level_coarsestHit finite started reads
    rw [shortest]
    dsimp only
    rw [places_ofGrid]
    omega

/-- The whole part of a whole magnitude reads as this magnitude. -/
theorem reads_ofScaled_wholePart (finite : code < Binary64.infinityCode)
    (whole : Binary64.isWhole code) : (ofScaled (Binary64.wholePart code) 0).Reads code := by
  rw [Binary64.isWhole, decide_eq_true_eq] at whole
  have exact : Binary64.wholePart code * Binary64.unitsPerOne = Binary64.units code :=
    Nat.div_mul_cancel (Nat.dvd_of_mod_eq_zero whole)
  rw [Reads, coefficient_ofScaled, places_ofScaled]
  apply Binary64.nearestCode_units (Digits.weight_pos 0) finite.le
  rw [exact, Digits.weight_zero, Nat.mul_one]

/-- A whole magnitude needs no places. -/
theorem places_shortest_of_isWhole (finite : code < Binary64.infinityCode)
    (whole : Binary64.isWhole code) : (shortest code).places = 0 := by
  have few := (reads_ofScaled_wholePart finite whole).places_shortest_le finite
  rw [places_ofScaled] at few
  exact Nat.le_zero.mp few

end Numeral

end Reckon
