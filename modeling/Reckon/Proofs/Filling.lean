import Reckon.Proofs.Layout

/-!
# Pyramids filled cell by cell

A pyramid can also be made from vacant rows of full width by writing the values into their
cells one after the other, with one cell left out between neighbours.  No value is written
beside its row or into a cell that has been written before, and the pyramid is the same.
-/

namespace Reckon.Pyramid

variable {Cell : Type}

/-- Writes a value into a cell of a row, if the row has the cell. -/
def write? (row : List Cell) (index : Nat) (value : Cell) : Option (List Cell) :=
  if index < row.length then some (row.set index value) else none

/-- Writes values into every other cell of a row, the first of them behind as many as have been
written already. -/
def writeRow? (first : Nat) :
    (written : Nat) → (values row : List Cell) → Option (List Cell)
  | _, [], row => some row
  | written, value :: values, row =>
      (write? row (first + 2 * written) value).bind (writeRow? first (written + 1) values)

/-- Fills the rows of a grid from a level downwards, each with one value more than the last. -/
def writeRows? (rows : Nat) :
    (level : Nat) → (values : List Int) → (grid : Pyramid) → Option Pyramid
  | _, _, [] => some []
  | level, values, row :: grid =>
      (writeRow? (rows - 1 - level) 0 (values.take (level + 1)) row).bind fun row =>
        (writeRows? rows (level + 1) (values.drop (level + 1)) grid).map (row :: ·)

/-- The pyramid of an ascending list, made from vacant rows. -/
def filled? (rows : Nat) (values : List Int) : Option Pyramid :=
  writeRows? rows 0 values (List.replicate rows (List.replicate (2 * rows - 1) 0))

section Rows

variable {first written room : Nat} {vacant : Cell} {front values : List Cell}

theorem write?_append (front : List Cell) (vacant value : Cell) (back : List Cell) :
    write? (front ++ vacant :: back) front.length value = some (front ++ value :: back) := by
  rw [write?, if_pos (by simp), List.set_append_right _ _ le_rfl, Nat.sub_self, List.set_cons_zero]

/-- Where the cells in front are done, the values are spread over the vacant ones. -/
theorem writeRow?_append (behind : front.length = first + 2 * written)
    (enough : 2 * values.length ≤ room + 1) :
    writeRow? first written values (front ++ List.replicate room vacant) =
      some (front ++ (values.intersperse vacant ++
        List.replicate (room - (2 * values.length - 1)) vacant)) := by
  induction values generalizing front written room with
  | nil => rfl
  | cons value values ih =>
      rw [List.length_cons] at enough
      obtain ⟨room, rfl⟩ : ∃ less, room = less + 1 := Nat.exists_eq_succ_of_ne_zero (by omega)
      rw [writeRow?, ← behind, List.replicate_succ, write?_append, Option.bind_some]
      cases values with
      | nil => simp [writeRow?]
      | cons next values =>
          -- The cell behind the value is left out, and the rest goes on behind it.
          rw [List.length_cons] at enough ih
          obtain ⟨room, rfl⟩ : ∃ less, room = less + 1 := Nat.exists_eq_succ_of_ne_zero (by omega)
          have longer : (front ++ [value, vacant]).length = first + 2 * (written + 1) := by
            rw [List.length_append, behind]
            rfl
          have later := ih longer (show 2 * (values.length + 1) ≤ room + 1 by omega)
          have left : room + 1 + 1 - (2 * (values.length + 1 + 1) - 1) =
              room - (2 * (values.length + 1) - 1) := by omega
          rw [List.append_assoc] at later
          rw [List.replicate_succ, List.length_cons, List.length_cons, left]
          exact later.trans (by simp)

/-- Behind a margin of vacant cells, the values are spread over the row. -/
theorem writeRow?_replicate (margin : Nat) (enough : 2 * values.length ≤ room + 1) :
    writeRow? margin 0 values (List.replicate (margin + room) vacant) =
      some (List.replicate margin vacant ++ (values.intersperse vacant ++
        List.replicate (room - (2 * values.length - 1)) vacant)) := by
  rw [List.replicate_add]
  exact writeRow?_append List.length_replicate enough

/-- Every value gets a cell of the row, and whatever the vacant cells hold is still there when it
is the turn of the value.  So no cell is written twice. -/
theorem vacant_of_writeRow? (margin : Nat) {earlier later : List Cell} {value : Cell}
    (enough : 2 * (earlier ++ value :: later).length ≤ room + 1) :
    ∃ row, writeRow? margin 0 earlier (List.replicate (margin + room) vacant) = some row ∧
      row[margin + 2 * earlier.length]? = some vacant := by
  rw [List.length_append, List.length_cons] at enough
  refine ⟨_, writeRow?_replicate margin (by omega), ?_⟩
  rw [← List.append_assoc, List.getElem?_append_right, List.getElem?_replicate_of_lt]
  · simp only [List.length_append, List.length_replicate, List.length_intersperse]
    omega
  · simp only [List.length_append, List.length_replicate, List.length_intersperse]
    omega

/-- Writing the values of a row into one of vacant cells lays them out. -/
theorem writeRow?_eq_layOut (margin : Nat) (values : List Int) :
    writeRow? margin 0 values (List.replicate (2 * margin + (2 * values.length - 1)) 0) =
      some (layOut margin values) := by
  have parted : 2 * margin + (2 * values.length - 1) =
      margin + (2 * values.length - 1 + margin) := by omega
  rw [parted, writeRow?_replicate margin (by omega), Nat.add_sub_cancel_left, layOut,
    List.append_assoc]

end Rows

section Grids

variable {rows before count : Nat} {values : List Int}

/-- Filling the rows from some level downwards lays out the rows that are cut off there. -/
theorem writeRows?_eq (whole : before + count = rows)
    (fills : values.length + triangle before = triangle (before + count)) :
    writeRows? rows before values
        (List.replicate count (List.replicate (2 * rows - 1) 0)) =
      some (((splitRows count (before + 1) values).zipIdx before).map fun (row, level) =>
        layOut (rows - 1 - level) row) := by
  induction count generalizing before values with
  | zero => rfl
  | succ count ih =>
      rcases fills_drop fills with ⟨enough, rest⟩
      have width : 2 * rows - 1 =
          2 * (rows - 1 - before) + (2 * (values.take (before + 1)).length - 1) := by
        rw [List.length_take, Nat.min_eq_left enough]
        omega
      have row := writeRow?_eq_layOut (rows - 1 - before) (values.take (before + 1))
      rw [← width] at row
      rw [List.replicate_succ, writeRows?, row, Option.bind_some, ih (by omega) rest]
      rfl

/-- A pyramid is filled by writing all values into cells of their own. -/
theorem filled?_of_triangle (fills : triangle rows = values.length) :
    filled? rows values = some (ofSorted rows values) := by
  rw [filled?, writeRows?_eq (Nat.zero_add rows) (fills_zero fills)]
  rfl

/-- The pyramid of an accepted list is the one that is filled with its values in ascending
order. -/
theorem filled?_of_ofList {pyramid : Pyramid} (accepted : ofList values = .ok pyramid) :
    ∃ rows, rowsFilledBy? values.length = some rows ∧
      filled? rows (values.mergeSort (· ≤ ·)) = some pyramid := by
  rcases exists_rows_of_ofList accepted with ⟨rows, fills, rfl⟩
  refine ⟨rows, rowsFilledBy?_eq_some_iff.mpr fills, filled?_of_triangle ?_⟩
  rw [fills, List.length_mergeSort]

end Grids

end Reckon.Pyramid
