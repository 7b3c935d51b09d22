import Reckon.Literal
import Reckon.Rejection

/-!
# The literal under way

While a statement is read, the characters of a literal collect in a draft of
limited capacity.  The limit counts characters.  Room for as many bytes is made
together with the draft, and so no draft has a capacity that strings cannot have.
-/

namespace Reckon

/-- The largest number of bytes that a string can be made room for. -/
def Draft.largestCapacity : Nat :=
  9223372036854775807

/-- The characters of a literal so far, never more than the capacity. -/
@[ext] structure Draft where
  capacity : Nat
  text : List Char
  length_le : text.length ≤ capacity
  capacity_le : capacity ≤ Draft.largestCapacity
  deriving DecidableEq, Repr

namespace Draft

/-- The draft of a literal that has not begun. -/
def empty (capacity : Nat)
    (capacity_le : capacity ≤ largestCapacity := by decide) : Draft :=
  ⟨capacity, [], Nat.zero_le capacity, capacity_le⟩

/-- Forgets all characters. -/
def clear (draft : Draft) : Draft :=
  empty draft.capacity draft.capacity_le

def isEmpty (draft : Draft) : Bool :=
  draft.text.isEmpty

/-- The characters as a string. -/
def toString (draft : Draft) : String :=
  String.ofList draft.text

/-- Adds a character; a full draft refuses it. -/
def extend (character : Char) (draft : Draft) : Except Rejection Draft :=
  if room : draft.text.length < draft.capacity then
    .ok
      { draft with
        text := draft.text ++ [character]
        length_le := by rw [List.length_append]; exact room }
  else .error (.overlong draft.capacity)

/-- What the draft reads as; an empty draft is no literal at all. -/
def value? (draft : Draft) : Option (Except Rejection Float) :=
  if draft.isEmpty then none
  else
    match Literal.read? draft.text with
    | some value => some (.ok value)
    | none => some (.error (.malformed draft.toString))

@[simp] theorem text_empty {capacity : Nat} (fits : capacity ≤ largestCapacity) :
    (empty capacity fits).text = [] := rfl

@[simp] theorem capacity_empty {capacity : Nat}
    (fits : capacity ≤ largestCapacity) :
    (empty capacity fits).capacity = capacity := rfl

@[simp] theorem text_clear (draft : Draft) : draft.clear.text = [] := rfl

@[simp] theorem capacity_clear (draft : Draft) :
    draft.clear.capacity = draft.capacity := rfl

/-- A character goes behind the others, as long as there is room for it. -/
theorem extend_eq_ok_iff {character : Char} {draft next : Draft} :
    draft.extend character = .ok next ↔
      draft.text.length < draft.capacity ∧ next.capacity = draft.capacity ∧
        next.text = draft.text ++ [character] := by
  rw [extend]
  split <;> rename_i room
  · constructor
    · intro extended
      cases extended
      exact ⟨room, rfl, rfl⟩
    · rintro ⟨_, capacity, text⟩
      exact congrArg Except.ok (Draft.ext capacity.symm text.symm)
  · simp [room]

theorem value?_eq_none_iff {draft : Draft} :
    draft.value? = none ↔ draft.text = [] := by
  rw [value?, isEmpty]
  cases draft.text with
  | nil => simp
  | cons character rest =>
      simp only [List.isEmpty_cons, Bool.false_eq_true, if_false, reduceCtorEq,
        iff_false]
      split <;> simp

end Draft

end Reckon
