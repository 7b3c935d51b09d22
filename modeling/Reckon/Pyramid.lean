/-!
# Number pyramids

A pyramid shows a list of integers in ascending order, one more in each row than
in the row above it, and centred: neighbours in a row are a vacant cell apart.
Only lists of triangular length fill a pyramid.  Vacant cells hold zero.
-/

namespace Reckon

/-- Everything that can keep a list from being laid out as a pyramid. -/
inductive Pyramid.Fault where
  | empty
  | missing (index : Nat)
  | notTriangular (length : Nat)
  | tooLong (length : Nat)
  deriving DecidableEq, Repr

/-- The explanation shown for a cause. -/
def Pyramid.Fault.message : Pyramid.Fault → String
  | empty => "cannot build a pyramid from an empty list"
  | missing index => s!"input contains a missing value at index {index}"
  | notTriangular length => s!"{length} is not a triangular number"
  | tooLong length => s!"input of {length} values is too large"

/-- The rows of a pyramid, topmost first. -/
abbrev Pyramid :=
  List (List Int)

namespace Pyramid

/-- Lists of this length or more are refused. -/
def lengthLimit : Nat :=
  2147483646

/-- Adds rows, each one value longer than the last, until they have room for
`length` values.  Gives the number of rows and the room in them.  The numbers are
unbounded; words hold them for every length that is not refused. -/
def addRows (length rows room : Nat) : Nat × Nat :=
  if room < length then addRows length (rows + 1) (room + (rows + 1))
  else (rows, room)
termination_by length - room

/-- The number of rows that exactly `length` values fill. -/
def rowsFilledBy? (length : Nat) : Option Nat :=
  let (rows, room) := addRows length 0 0
  if room = length then some rows else none

/-- The values of the rows, the first of which has `width` values and each
further one one more. -/
def splitRows : (count width : Nat) → List Int → List (List Int)
  | 0, _, _ => []
  | count + 1, width, values =>
      values.take width :: splitRows count (width + 1) (values.drop width)

/-- A row with a vacant cell between neighbours and a margin on both sides. -/
def layOut (margin : Nat) (values : List Int) : List Int :=
  List.replicate margin 0 ++ values.intersperse 0 ++ List.replicate margin 0

/-- The pyramid of a list in ascending order that fills `rows` rows. -/
def ofSorted (rows : Nat) (values : List Int) : Pyramid :=
  (splitRows rows 1 values).zipIdx.map fun (row, level) =>
    layOut (rows - 1 - level) row

/-- The pyramid of a list, whatever its order. -/
def ofList (values : List Int) : Except Pyramid.Fault Pyramid :=
  if values.isEmpty then .error .empty
  else if lengthLimit ≤ values.length then .error (.tooLong values.length)
  else
    match rowsFilledBy? values.length with
    | none => .error (.notTriangular values.length)
    | some rows => .ok (ofSorted rows (values.mergeSort (· ≤ ·)))

/-- The entries of a list without missing ones, or the index of the first that
is missing, counted from `index`. -/
def presentFrom (index : Nat) : List (Option Int) → Except Pyramid.Fault (List Int)
  | [] => .ok []
  | none :: _ => .error (.missing index)
  | some value :: rest => (presentFrom (index + 1) rest).map (value :: ·)

/-- The pyramid of a list whose entries may be missing; a missing entry is
reported before anything else. -/
def ofOptions (entries : List (Option Int)) : Except Pyramid.Fault Pyramid :=
  (presentFrom 0 entries).bind ofList

@[simp] theorem length_splitRows (count width : Nat) (values : List Int) :
    (splitRows count width values).length = count := by
  induction count generalizing width values with
  | zero => rfl
  | succ count ih => simp [splitRows, ih]

@[simp] theorem length_layOut (margin : Nat) (values : List Int) :
    (layOut margin values).length = 2 * margin + (2 * values.length - 1) := by
  simp only [layOut, List.length_append, List.length_replicate,
    List.length_intersperse]
  omega

@[simp] theorem presentFrom_map_some (index : Nat) (values : List Int) :
    presentFrom index (values.map some) = .ok values := by
  induction values generalizing index with
  | nil => rfl
  | cons value rest ih => simp [presentFrom, ih, Except.map]

end Pyramid

end Reckon
