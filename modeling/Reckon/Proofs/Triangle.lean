import Mathlib.Order.WellFounded
import Reckon.Pyramid

/-!
# Triangular numbers

Rows of which each has room for one value more than the last have room for a triangular
number of values.  Rows are added one by one until there is room enough, so the number of
rows is found by a search that must not pass over the one that is filled exactly.  It goes
through the triangular numbers in their order and adds a row only where room is short.
-/

namespace Reckon.Pyramid

/-- How many values a number of rows has room for. -/
def triangle (rows : Nat) : Nat :=
  rows * (rows + 1) / 2

@[simp] theorem triangle_zero : triangle 0 = 0 := rfl

theorem triangle_succ (rows : Nat) : triangle (rows + 1) = triangle rows + (rows + 1) := by
  have twice : (rows + 1) * (rows + 1 + 1) = rows * (rows + 1) + (rows + 1) * 2 := by
    rw [Nat.mul_comm rows, ← Nat.mul_add]
  rw [triangle, twice, Nat.add_mul_div_right _ _ (by decide), triangle]

theorem triangle_strictMono : StrictMono triangle := by
  apply strictMono_nat_of_lt_succ
  intro rows
  rw [triangle_succ]
  omega

theorem le_triangle (rows : Nat) : rows ≤ triangle rows :=
  triangle_strictMono.le_apply

/-- The numbers of rows, with the room in them, that the search for a length goes through. -/
inductive Passes (length : Nat) : (rows room : Nat) → Prop where
  | start : Passes length 0 0
  | row {rows room : Nat} :
      Passes length rows room → room < length →
      Passes length (rows + 1) (room + (rows + 1))

variable {length rows room : Nat}

namespace Passes

theorem room_eq (passes : Passes length rows room) : room = triangle rows := by
  induction passes with
  | start => rfl
  | row _ _ ih => rw [triangle_succ, ih]

/-- From wherever it is, the search goes on to the same end. -/
theorem addRows_eq (passes : Passes length rows room) :
    addRows length rows room = addRows length 0 0 := by
  induction passes with
  | start => rfl
  | @row rows room _ short ih =>
      rw [← ih, addRows.eq_def length rows room, if_pos short]

/-- The search ends, and where it ends there is room enough. -/
theorem last (passes : Passes length rows room) :
    Passes length (addRows length rows room).1 (addRows length rows room).2 ∧
      length ≤ (addRows length rows room).2 := by
  induction rows, room using addRows.induct length with
  | case1 rows room short ih =>
      rw [addRows, if_pos short]
      exact ih (passes.row short)
  | case2 rows room enough =>
      rw [addRows, if_neg enough]
      exact ⟨passes, Nat.le_of_not_lt enough⟩

/-- No row is added to enough of them. -/
theorem rows_le {others : Nat} (passes : Passes length rows room)
    (enough : length ≤ triangle others) : rows ≤ others := by
  cases passes with
  | start => exact Nat.zero_le _
  | @row rows room before short =>
      rw [before.room_eq] at short
      exact triangle_strictMono.lt_iff_lt.mp (short.trans_le enough)

end Passes

/-- Exactly the triangular lengths fill rows, each its own number of them. -/
theorem rowsFilledBy?_eq_some_iff : rowsFilledBy? length = some rows ↔ triangle rows = length := by
  have ended := (@Passes.start length).last
  rcases stopped : addRows length 0 0 with ⟨last, room⟩
  rw [stopped] at ended
  dsimp only at ended
  rcases ended with ⟨passes, enough⟩
  have filled := passes.room_eq
  simp only [rowsFilledBy?, stopped]
  constructor
  · intro found
    split at found
    · rename_i exact
      cases found
      exact filled.symm.trans exact
    · cases found
  · intro fills
    have same : last = rows := by
      apply Nat.le_antisymm
      · exact passes.rows_le fills.ge
      · rw [← fills, filled] at enough
        exact triangle_strictMono.le_iff_le.mp enough
    rw [if_pos, same]
    rw [filled, same, fills]

theorem rowsFilledBy?_eq_none_iff : rowsFilledBy? length = none ↔ ∀ rows, triangle rows ≠ length := by
  rw [Option.eq_none_iff_forall_ne_some]
  exact forall_congr' fun rows => not_congr rowsFilledBy?_eq_some_iff

end Reckon.Pyramid
