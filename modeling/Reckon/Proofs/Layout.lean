import Mathlib.Data.Int.Order.Basic
import Mathlib.Data.List.Basic
import Mathlib.Data.List.Perm.Basic
import Reckon.Proofs.Triangle

/-!
# Where the values of a pyramid stand

The rows of a pyramid are cut off from the ascending list one after the other, and each is
spread out between two margins.  Every value so has a cell of its own, known from the number
of rows alone.  A pyramid is therefore read back by looking into these cells, also if zero is
one of the values, and two lists give the same pyramid only if they hold the same values.
-/

namespace Reckon.Pyramid

/-- The cell in a row and a column, both counted from zero. -/
def cell? (pyramid : Pyramid) (level column : Nat) : Option Int :=
  pyramid[level]?.bind fun row => row[column]?

/-- The column of a value, of which `slot` others stand to the left in its row. -/
def column (rows level slot : Nat) : Nat :=
  rows - 1 - level + 2 * slot

/-- The cells of the values in a pyramid of so many rows, row by row from left to right. -/
def reading (rows : Nat) (pyramid : Pyramid) : List (Option Int) :=
  (List.range rows).flatMap fun level =>
    (List.range (level + 1)).map fun slot => pyramid.cell? level (column rows level slot)

/-- A pyramid of so many rows that shows a list, in the order of the list. -/
structure Shows (pyramid : Pyramid) (rows : Nat) (values : List Int) : Prop where
  height : pyramid.length = rows
  width : ∀ row ∈ pyramid, row.length = 2 * rows - 1
  shown : pyramid.reading rows = values.map some
  vacant : ∀ level < rows, ∀ place < 2 * rows - 1,
    (∀ slot ≤ level, place ≠ column rows level slot) → pyramid.cell? level place = some 0

/-- A pyramid tells its number of rows and the list that it shows. -/
theorem Shows.unique {pyramid : Pyramid} {rows otherRows : Nat} {values others : List Int}
    (shows : Shows pyramid rows values) (showsOthers : Shows pyramid otherRows others) :
    values = others := by
  have sameRows : rows = otherRows := shows.height.symm.trans showsOthers.height
  subst sameRows
  have same : values.map some = others.map some := shows.shown.symm.trans showsOthers.shown
  exact (List.map_inj_right fun _ _ => Option.some.inj).mp same

/-! ## Rows -/

section Rows

variable {margin slot place count before level : Nat} {values row : List Int}

/-- The values of a row stand in every other cell behind the margin. -/
theorem getElem?_layOut (inside : slot < values.length) :
    (layOut margin values)[margin + 2 * slot]? = values[slot]? := by
  have spread : (values.intersperse 0).length = 2 * values.length - 1 :=
    List.length_intersperse
  rw [layOut, List.getElem?_append_left, List.getElem?_append_right]
  · rw [List.length_replicate, Nat.add_sub_cancel_left, List.getElem?_intersperse_two_mul]
  · simp
  · simp only [List.length_append, List.length_replicate, spread]
    omega

/-- All other cells of a row are vacant. -/
theorem getElem?_layOut_vacant (inside : place < 2 * margin + (2 * values.length - 1))
    (vacant : ∀ slot < values.length, place ≠ margin + 2 * slot) :
    (layOut margin values)[place]? = some 0 := by
  have spread : (values.intersperse 0).length = 2 * values.length - 1 :=
    List.length_intersperse
  rw [layOut]
  rcases Nat.lt_or_ge place margin with left | behind
  · rw [List.append_assoc, List.getElem?_append_left (by simpa using left),
      List.getElem?_replicate_of_lt left]
  · rcases Nat.lt_or_ge place (margin + (2 * values.length - 1)) with between | right
    · rw [List.getElem?_append_left (by simp [spread, between]),
        List.getElem?_append_right (by simpa using behind), List.length_replicate]
      have parity := Nat.div_add_mod (place - margin) 2
      rcases Nat.mod_two_eq_zero_or_one (place - margin) with even | odd
      · exact (vacant ((place - margin) / 2) (by omega) (by omega)).elim
      · rw [← parity, odd, List.getElem?_intersperse_two_mul_add_one (by omega)]
    · rw [List.getElem?_append_right (by simp [spread, right]),
        List.getElem?_replicate_of_lt]
      simp only [List.length_append, List.length_replicate, spread]
      omega

/-- What is left when a row is cut off fills the rows that are left. -/
theorem fills_drop (fills : values.length + triangle before = triangle (before + (count + 1))) :
    before + 1 ≤ values.length ∧
      (values.drop (before + 1)).length + triangle (before + 1) =
        triangle (before + 1 + count) := by
  have grown := triangle_succ before
  have room : triangle (before + 1) ≤ triangle (before + 1 + count) :=
    triangle_strictMono.monotone (Nat.le_add_right _ _)
  rw [← Nat.add_assoc, Nat.add_right_comm] at fills
  rw [List.length_drop]
  omega

/-- Behind the rows that are cut off already, the next ones are each a value longer. -/
theorem length_of_getElem?_splitRows
    (fills : values.length + triangle before = triangle (before + count))
    (isRow : (splitRows count (before + 1) values)[level]? = some row) :
    row.length = before + level + 1 := by
  induction count generalizing before level values with
  | zero => cases isRow
  | succ count ih =>
      rcases fills_drop fills with ⟨enough, rest⟩
      cases level with
      | zero =>
          cases isRow
          rw [List.length_take, Nat.min_eq_left enough]
      | succ level =>
          rw [ih rest isRow]
          omega

theorem flatten_splitRows
    (fills : values.length + triangle before = triangle (before + count)) :
    (splitRows count (before + 1) values).flatten = values := by
  induction count generalizing before values with
  | zero =>
      have none : values.length = 0 := by
        rw [Nat.add_zero] at fills
        omega
      rw [List.length_eq_zero_iff.mp none]
      rfl
  | succ count ih =>
      rw [splitRows, List.flatten_cons, ih (fills_drop fills).2, List.take_append_drop]

end Rows

/-! ## Pyramids -/

section Pyramids

variable {rows level : Nat} {values row : List Int}

/-- The rows of a list of rows, one after the other, hold all of its values. -/
theorem flatMap_range_getElem? (parts : List (List Int)) :
    (List.range parts.length).flatMap (fun level => (parts[level]?.getD []).map some) =
      parts.flatten.map some := by
  induction parts with
  | nil => rfl
  | cons first rest ih =>
      rw [List.length_cons, List.range_succ_eq_map, List.flatMap_cons, List.flatMap_map,
        List.flatten_cons, List.map_append, ← ih]
      rfl

theorem map_range_getElem? (values : List Int) :
    (List.range values.length).map (fun slot => values[slot]?) = values.map some := by
  apply List.ext_getElem
  · simp
  · intro slot inRange inside
    simp

theorem getElem?_ofSorted (rows : Nat) (values : List Int) (level : Nat) :
    (ofSorted rows values)[level]? =
      (splitRows rows 1 values)[level]?.map (layOut (rows - 1 - level)) := by
  simp [ofSorted, List.getElem?_zipIdx, Function.comp_def]

theorem fills_zero (fills : triangle rows = values.length) :
    values.length + triangle 0 = triangle (0 + rows) := by
  rw [triangle_zero, Nat.add_zero, Nat.zero_add, fills]

/-- Every level holds a row that was cut off, spread out. -/
theorem exists_row (fills : triangle rows = values.length) (inside : level < rows) :
    ∃ row, (splitRows rows 1 values)[level]? = some row ∧ row.length = level + 1 ∧
      (ofSorted rows values)[level]? = some (layOut (rows - 1 - level) row) := by
  have isRow := List.getElem?_eq_getElem (l := splitRows rows 1 values) (i := level)
    (by rw [length_splitRows]; exact inside)
  refine ⟨_, isRow, ?_, by rw [getElem?_ofSorted, isRow, Option.map_some]⟩
  rw [length_of_getElem?_splitRows (fills_zero fills) isRow, Nat.zero_add]

theorem shows_ofSorted (fills : triangle rows = values.length) :
    Shows (ofSorted rows values) rows values where
  height := by simp [ofSorted]
  width row member := by
    rcases List.mem_iff_getElem?.mp member with ⟨level, isRow⟩
    have inside : level < rows := by
      have := (List.getElem?_eq_some_iff.mp isRow).1
      simpa [ofSorted] using this
    rcases exists_row fills inside with ⟨source, _, long, spread⟩
    rw [Option.some.inj (isRow.symm.trans spread), length_layOut, long]
    omega
  shown := by
    have perRow : ∀ level ∈ List.range rows,
        (List.range (level + 1)).map (fun slot =>
          (ofSorted rows values).cell? level (column rows level slot)) =
            ((splitRows rows 1 values)[level]?.getD []).map some := by
      intro level inRange
      rcases exists_row fills (List.mem_range.mp inRange) with ⟨row, isRow, long, spread⟩
      rw [isRow, Option.getD_some, ← map_range_getElem?, long]
      apply List.map_congr_left
      intro slot inside
      rw [cell?, spread, Option.bind_some, column, getElem?_layOut]
      rw [long]
      exact List.mem_range.mp inside
    have all := flatMap_range_getElem? (splitRows rows 1 values)
    rw [length_splitRows, flatten_splitRows (fills_zero fills)] at all
    rw [reading, List.flatMap_congr perRow, all]
  vacant level inside place narrow free := by
    rcases exists_row fills inside with ⟨row, _, long, spread⟩
    rw [cell?, spread, Option.bind_some]
    apply getElem?_layOut_vacant
    · rw [long]
      omega
    · intro slot within
      rw [long] at within
      exact free slot (Nat.le_of_lt_succ within)

end Pyramids

/-! ## Lists -/

section Lists

variable {rows position : Nat} {entries : List (Option Int)} {values others : List Int}

theorem presentFrom_of_first (index : Nat) (missing : entries[position]? = some none)
    (present : ∀ earlier < position, entries[earlier]? ≠ some none) :
    presentFrom index entries = .error (.missing (index + position)) := by
  induction entries generalizing index position with
  | nil => cases missing
  | cons entry rest ih =>
      cases position with
      | zero =>
          cases missing
          rfl
      | succ position =>
          cases entry with
          | none => exact (present 0 (Nat.succ_pos _) rfl).elim
          | some value =>
              rw [presentFrom, ih (index + 1) missing fun earlier less =>
                present (earlier + 1) (Nat.succ_lt_succ less)]
              rw [Nat.add_right_comm, Nat.add_assoc]
              rfl

theorem eq_map_some_of_presentFrom {index : Nat}
    (present : presentFrom index entries = .ok values) : entries = values.map some := by
  induction entries generalizing index values with
  | nil =>
      cases present
      rfl
  | cons entry rest ih =>
      cases entry with
      | none => cases present
      | some value =>
          rw [presentFrom] at present
          cases found : presentFrom (index + 1) rest with
          | error fault =>
              rw [found] at present
              cases present
          | ok later =>
              rw [found] at present
              cases present
              rw [ih found]
              rfl

theorem ofOptions_map_some (values : List Int) : ofOptions (values.map some) = ofList values := by
  rw [ofOptions, presentFrom_map_some]
  rfl

/-- An accepted list has all of its entries. -/
theorem exists_of_ofOptions {pyramid : Pyramid} (accepted : ofOptions entries = .ok pyramid) :
    ∃ values, entries = values.map some ∧ ofList values = .ok pyramid := by
  rw [ofOptions] at accepted
  cases present : presentFrom 0 entries with
  | error fault =>
      rw [present] at accepted
      cases accepted
  | ok values =>
      rw [present] at accepted
      exact ⟨values, eq_map_some_of_presentFrom present, accepted⟩

theorem ofList_of_triangle (nonempty : values ≠ []) (short : values.length < lengthLimit)
    (fills : triangle rows = values.length) :
    ofList values = .ok (ofSorted rows (values.mergeSort (· ≤ ·))) := by
  rw [ofList, if_neg (by simpa using nonempty), if_neg (Nat.not_le_of_lt short),
    rowsFilledBy?_eq_some_iff.mpr fills]

theorem ofList_of_not_triangle (nonempty : values ≠ []) (short : values.length < lengthLimit)
    (unfilled : ∀ rows, triangle rows ≠ values.length) :
    ofList values = .error (.notTriangular values.length) := by
  rw [ofList, if_neg (by simpa using nonempty), if_neg (Nat.not_le_of_lt short),
    rowsFilledBy?_eq_none_iff.mpr unfilled]

/-- An accepted list is neither empty nor too long, and its length is triangular. -/
theorem exists_rows_of_ofList {pyramid : Pyramid} (accepted : ofList values = .ok pyramid) :
    ∃ rows, triangle rows = values.length ∧
      pyramid = ofSorted rows (values.mergeSort (· ≤ ·)) := by
  rw [ofList] at accepted
  split at accepted
  · cases accepted
  split at accepted
  · cases accepted
  split at accepted
  · cases accepted
  · rename_i rows filled
    cases accepted
    exact ⟨rows, rowsFilledBy?_eq_some_iff.mp filled, rfl⟩

theorem pairwise_mergeSort_le (values : List Int) :
    (values.mergeSort (· ≤ ·)).Pairwise (· ≤ ·) := by
  have ascending :
      (values.mergeSort (· ≤ ·)).Pairwise (fun first second => decide (first ≤ second)) :=
    List.pairwise_mergeSort (by simpa using fun _ _ _ => Int.le_trans)
      (by simpa using Int.le_total) values
  simpa using ascending

/-- Sorting gives the only reordering that is ascending. -/
theorem mergeSort_eq_of_perm {sorted : List Int} (perm : values.Perm sorted)
    (ascending : sorted.Pairwise (· ≤ ·)) : values.mergeSort (· ≤ ·) = sorted :=
  ((List.mergeSort_perm values _).trans perm).eq_of_pairwise
    (fun _ _ _ _ => Int.le_antisymm) (pairwise_mergeSort_le values) ascending

theorem shows_of_ofList {pyramid : Pyramid} (accepted : ofList values = .ok pyramid) :
    ∃ rows, Shows pyramid rows (values.mergeSort (· ≤ ·)) := by
  rcases exists_rows_of_ofList accepted with ⟨rows, fills, rfl⟩
  exact ⟨rows, shows_ofSorted (by rw [fills, List.length_mergeSort])⟩

/-- Lists of the same values give the same pyramid, and no others do. -/
theorem ofList_eq_iff_perm {first second : Pyramid} (accepted : ofList values = .ok first)
    (acceptedOther : ofList others = .ok second) : first = second ↔ values.Perm others := by
  have sorts := List.mergeSort_perm values (· ≤ ·)
  have sortsOther := List.mergeSort_perm others (· ≤ ·)
  constructor
  · intro same
    subst same
    rcases shows_of_ofList accepted with ⟨rows, shows⟩
    rcases shows_of_ofList acceptedOther with ⟨otherRows, showsOther⟩
    rw [shows.unique showsOther] at sorts
    exact sorts.symm.trans sortsOther
  · intro perm
    rcases exists_rows_of_ofList accepted with ⟨rows, fills, rfl⟩
    rcases exists_rows_of_ofList acceptedOther with ⟨otherRows, fillsOther, rfl⟩
    have sameRows : rows = otherRows := by
      apply triangle_strictMono.injective
      rw [fills, fillsOther, perm.length_eq]
    rw [sameRows, mergeSort_eq_of_perm (perm.trans sortsOther.symm) (pairwise_mergeSort_le others)]

end Lists

/-- How a list is laid out, whatever entries it has.  The first missing entry is reported
before anything else.  A list without missing ones is treated as the plain list of its values:
an empty one is refused, and one that does not fill its rows; any other is shown in ascending
order by a pyramid of just as many rows as it fills.  The pyramids of two lists are the same if
and only if each list is a reordering of the other. -/
theorem layout_ofOptions {entries : List (Option Int)} (short : entries.length < lengthLimit) :
    (∀ index, entries[index]? = some none →
      (∀ earlier < index, entries[earlier]? ≠ some none) →
        ofOptions entries = .error (.missing index)) ∧
    (∀ values, entries = values.map some →
      ofOptions entries = ofList values ∧
      (values = [] → ofOptions entries = .error .empty) ∧
      (values ≠ [] → (∀ rows, triangle rows ≠ values.length) →
        ofOptions entries = .error (.notTriangular values.length)) ∧
      ∀ rows, values ≠ [] → triangle rows = values.length →
        ∃ pyramid sorted, ofOptions entries = .ok pyramid ∧
          sorted.Perm values ∧ sorted.Pairwise (· ≤ ·) ∧ Shows pyramid rows sorted) ∧
    ∀ others first second, ofOptions entries = .ok first → ofOptions others = .ok second →
      (first = second ↔ entries.Perm others) := by
  refine ⟨?_, ?_, ?_⟩
  · intro index missing present
    rw [ofOptions, presentFrom_of_first 0 missing present, Nat.zero_add]
    rfl
  · rintro values rfl
    rw [List.length_map] at short
    rw [ofOptions_map_some]
    refine ⟨rfl, ?_, ?_, ?_⟩
    · rintro rfl
      rfl
    · intro nonempty unfilled
      exact ofList_of_not_triangle nonempty short unfilled
    · intro rows nonempty fills
      exact ⟨_, _, ofList_of_triangle nonempty short fills, List.mergeSort_perm values _,
        pairwise_mergeSort_le values, shows_ofSorted (by rw [fills, List.length_mergeSort])⟩
  · intro others first second accepted acceptedOther
    rcases exists_of_ofOptions accepted with ⟨values, rfl, laidOut⟩
    rcases exists_of_ofOptions acceptedOther with ⟨otherValues, rfl, laidOutOther⟩
    rw [ofList_eq_iff_perm laidOut laidOutOther]
    exact (List.map_perm_map_iff fun _ _ => Option.some.inj).symm

/-- A zero among the values has a cell of its own beside the vacant ones. -/
theorem layout_of_zero :
    let entries : List (Option Int) := [some 4, some (-1), some 0]
    let incomplete : List (Option Int) := [some 4, none, some 0, none]
    entries.length < lengthLimit ∧ incomplete.length < lengthLimit ∧
      ofOptions incomplete = .error (.missing 1) ∧
      ofOptions entries = .ok [[0, -1, 0], [0, 0, 4]] ∧
      ∃ sorted, sorted.Perm [4, -1, 0] ∧ sorted.Pairwise (· ≤ ·) ∧
        Shows [[0, -1, 0], [0, 0, 4]] 2 sorted := by
  intro entries incomplete
  have short : entries.length < lengthLimit := by decide
  have shortIncomplete : incomplete.length < lengthLimit := by decide
  have fills : triangle 2 = [4, -1, (0 : Int)].length := rfl
  have ordered : [4, -1, (0 : Int)].mergeSort (· ≤ ·) = [-1, 0, 4] :=
    mergeSort_eq_of_perm (by decide) (by decide)
  have laidOut : ofOptions entries = .ok [[0, -1, 0], [0, 0, 4]] := by
    rw [show entries = [4, -1, 0].map some from rfl, ofOptions_map_some,
      ofList_of_triangle (by decide) (by decide) fills, ordered]
    rfl
  refine ⟨short, shortIncomplete, ?_, laidOut, ?_⟩
  · exact (layout_ofOptions shortIncomplete).1 1 rfl (by decide)
  · rcases ((layout_ofOptions short).2.1 [4, -1, 0] rfl).2.2.2 2 (by decide) rfl with
      ⟨pyramid, sorted, accepted, perm, ascending, shows⟩
    rw [laidOut, Except.ok.injEq] at accepted
    subst accepted
    exact ⟨sorted, perm, ascending, shows⟩

end Reckon.Pyramid
