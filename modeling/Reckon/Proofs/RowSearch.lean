import Reckon.Proofs.Layout

/-!
# The search for the number of rows

The search for the number of rows ends at the first triangular number that is not smaller than
the length.  The row that was added last was still needed, so there are no more rows than values,
and the room in them passes the length by no more than the last row.  All numbers on the way are
at most twice the length, and the lengths that are not refused leave them below the bound of a
32-bit word.  A search with words that breaks off where a number does not fit agrees with the one
that knows no bound wherever all of them fit, and only there.
-/

namespace Reckon.Pyramid

/-- Words of so many bits hold the numbers that are computed for a length: those that the search
goes through, and twice the number of rows, from which one is taken for the width. -/
structure FitWords (bits length : Nat) : Prop where
  search : ∀ rows room, Passes length rows room →
    rows < Nat.pow 2 bits ∧ room < Nat.pow 2 bits
  width : ∀ rows, 0 < length → rowsFilledBy? length = some rows →
    1 ≤ 2 * rows ∧ 2 * rows < Nat.pow 2 bits

/-- The search in words of so many bits; it breaks off where a sum does not fit. -/
def addRowsIn? (bits length rows room : Nat) : Option (Nat × Nat) :=
  if room < length then
    if rows + 1 < Nat.pow 2 bits ∧ room + (rows + 1) < Nat.pow 2 bits then
      addRowsIn? bits length (rows + 1) (room + (rows + 1))
    else none
  else some (rows, room)
termination_by length - room

/-- The number of rows that exactly `length` values fill, if it is found in words. -/
def rowsFilledByIn? (bits length : Nat) : Option (Option Nat) :=
  (addRowsIn? bits length 0 0).map fun (rows, room) =>
    if room = length then some rows else none

variable {length rows room bits : Nat}

/-- Another row is only added where room is short, so there is a value for every row. -/
theorem Passes.bounds (passes : Passes length rows room) :
    rows ≤ length ∧ room ≤ length + rows := by
  induction passes with
  | start => exact ⟨Nat.zero_le _, Nat.zero_le _⟩
  | @row rows room before short _ =>
      have below : rows ≤ room := before.room_eq ▸ le_triangle rows
      exact ⟨below.trans_lt short, Nat.add_le_add_right short.le _⟩

/-- Lengths that are not refused are less than half the bound of a word. -/
theorem double_lt_word (short : length < lengthLimit) (wide : 32 ≤ bits) :
    2 * length < Nat.pow 2 bits :=
  calc 2 * length
    _ < 2 * lengthLimit := Nat.mul_lt_mul_of_pos_left short (by decide)
    _ < Nat.pow 2 32 := by decide
    _ ≤ Nat.pow 2 bits := Nat.pow_le_pow_right (by decide) wide

theorem fitWords (word : 2 * length < Nat.pow 2 bits) : FitWords bits length where
  search rows room passes := by
    have bounds := passes.bounds
    omega
  width rows positive filled := by
    have fills := rowsFilledBy?_eq_some_iff.mp filled
    have below : rows ≤ length := fills ▸ le_triangle rows
    have some : rows ≠ 0 := by
      rintro rfl
      rw [← fills, triangle_zero] at positive
      exact positive.false
    omega

theorem le_room_addRows (length rows room : Nat) : room ≤ (addRows length rows room).2 := by
  induction rows, room using addRows.induct length with
  | case1 rows room short ih =>
      rw [addRows, if_pos short]
      exact (Nat.le_add_right _ _).trans ih
  | case2 rows room enough => rw [addRows, if_neg enough]

/-- The room only grows, so the search is broken off unless the last room fits. -/
theorem addRowsIn?_eq (fits : room < Nat.pow 2 bits) :
    addRowsIn? bits length rows room =
      if (addRows length rows room).2 < Nat.pow 2 bits then some (addRows length rows room)
      else none := by
  induction rows, room using addRows.induct length with
  | case1 rows room short ih =>
      rw [addRowsIn?, if_pos short, addRows, if_pos short]
      by_cases grown : room + (rows + 1) < Nat.pow 2 bits
      · rw [if_pos ⟨by omega, grown⟩, ih grown]
      · have last := le_room_addRows length (rows + 1) (room + (rows + 1))
        rw [if_neg fun sums => grown sums.2, if_neg]
        omega
  | case2 rows room enough =>
      rw [addRowsIn?, if_neg enough, addRows, if_neg enough, if_pos fits]

/-- Words find what numbers without bound find wherever they hold all numbers on the way, as they
do for every length that is not refused, and break the search off everywhere else. -/
theorem rowsFilledByIn?_exact (bits length : Nat) :
    (FitWords bits length → rowsFilledByIn? bits length = some (rowsFilledBy? length)) ∧
    (rowsFilledByIn? bits length = none ↔
      ∃ rows room, Passes length rows room ∧ Nat.pow 2 bits ≤ room) ∧
    (length < lengthLimit → 32 ≤ bits →
      rowsFilledByIn? bits length = some (rowsFilledBy? length)) := by
  have search : addRowsIn? bits length 0 0 = _ := addRowsIn?_eq (Nat.pow_pos (by decide))
  have ended := (@Passes.start length).last.1
  have agree (words : FitWords bits length) :
      rowsFilledByIn? bits length = some (rowsFilledBy? length) := by
    rw [rowsFilledByIn?, search, if_pos (words.search _ _ ended).2]
    rfl
  refine ⟨agree, ?_, fun short wide => agree (fitWords (double_lt_word short wide))⟩
  rw [rowsFilledByIn?, Option.map_eq_none_iff, search, ite_eq_right_iff]
  constructor
  · intro exceeded
    refine ⟨_, _, ended, Nat.le_of_not_lt fun fits => ?_⟩
    cases exceeded fits
  · rintro ⟨rows, room, passes, exceeded⟩ fits
    have below := le_room_addRows length rows room
    rw [passes.addRows_eq] at below
    omega

/-- The search ends with every length, wherever it is taken up, and finds the number of rows that
the length fills, if it fills any.  Words that hold twice the length hold all numbers on the way.
With a length that is not refused, words of 32 or more bits do, and the width that is computed is
the one that all rows of the pyramid have. -/
theorem rowsFilledBy?_exact (length : Nat) :
    (∃ last room, Passes length last room ∧ length ≤ room ∧
      ∀ rows passed, Passes length rows passed →
        rows ≤ last ∧ addRows length rows passed = (last, room)) ∧
    (∀ rows, rowsFilledBy? length = some rows ↔ triangle rows = length) ∧
    (∀ rows others, triangle rows = length → triangle others = length → rows = others) ∧
    (rowsFilledBy? length = none ↔ ∀ rows, triangle rows ≠ length) ∧
    (∀ bits, 2 * length < Nat.pow 2 bits → FitWords bits length) ∧
    (length < lengthLimit →
      (∀ bits, 32 ≤ bits → FitWords bits length) ∧
      ∀ values rows, values ≠ [] → values.length = length → rowsFilledBy? length = some rows →
        ∃ pyramid, ofList values = .ok pyramid ∧
          ∀ row ∈ pyramid, row.length = 2 * rows - 1) := by
  refine ⟨?_, fun rows => rowsFilledBy?_eq_some_iff, ?_, rowsFilledBy?_eq_none_iff,
    fun bits word => fitWords word, ?_⟩
  · rcases (@Passes.start length).last with ⟨passes, enough⟩
    refine ⟨_, _, passes, enough, ?_⟩
    intro rows passed earlier
    exact ⟨earlier.rows_le (passes.room_eq ▸ enough), earlier.addRows_eq⟩
  · intro rows others fills othersFill
    exact triangle_strictMono.injective (fills.trans othersFill.symm)
  · intro short
    refine ⟨fun bits wide => fitWords (double_lt_word short wide), ?_⟩
    rintro values rows nonempty rfl filled
    have fills := rowsFilledBy?_eq_some_iff.mp filled
    refine ⟨_, ofList_of_triangle nonempty short fills, ?_⟩
    exact (shows_ofSorted (by rw [fills, List.length_mergeSort])).width

/-- Six values fill three rows, and the largest length that is not refused fills none. -/
theorem rowsFilledBy?_exact_six :
    6 < lengthLimit ∧ 2147483645 < lengthLimit ∧
      rowsFilledBy? 6 = some 3 ∧ rowsFilledBy? 2147483645 = none ∧
      FitWords 64 6 ∧ FitWords 32 2147483645 ∧
      ∃ pyramid, ofList [1, 3, 2, 4, 6, 5] = .ok pyramid ∧ ∀ row ∈ pyramid, row.length = 5 := by
  have short : 6 < lengthLimit := by decide
  have largest : 2147483645 < lengthLimit := by decide
  rcases rowsFilledBy?_exact 6 with ⟨_, fills, _, _, words, limited⟩
  rcases rowsFilledBy?_exact 2147483645 with ⟨_, _, _, unfilled, _, limitedLargest⟩
  have six : rowsFilledBy? 6 = some 3 := (fills 3).mpr rfl
  have none : rowsFilledBy? 2147483645 = none := by
    rw [unfilled]
    intro rows filled
    have room : triangle 65535 = 2147450880 ∧ triangle 65536 = 2147516416 := by decide
    rcases Nat.lt_or_ge 65535 rows with more | fewer
    · have passed := triangle_strictMono.monotone (show 65536 ≤ rows from more)
      omega
    · have short := triangle_strictMono.monotone fewer
      omega
  refine ⟨short, largest, six, none, words 64 (by decide), (limitedLargest largest).1 32 le_rfl, ?_⟩
  exact (limited short).2 [1, 3, 2, 4, 6, 5] 3 (by decide) rfl six

end Reckon.Pyramid
