import Reckon.Proofs.Admissible

/-!
# The alphabet as a grammar

Which texts are over the alphabet of strict statements can also be said by a grammar: any
number of digits, points, operators and brackets between the start and the end of a text.
Patterns are matched from left to right, an ordered choice commits to its first branch that
matches, and a repetition takes as much as it can.  A text that does not match is reported
with the furthest position at which something was asked for in vain.  For this grammar it is
the position of the first foreign character, whatever matches the patterns.
-/

namespace Reckon.Statement

/-- Parsing expressions. -/
inductive Pattern where
  /-- One character of a class. -/
  | one (accepts : Char → Bool)
  | start
  | finish
  | sequence (first second : Pattern)
  | choice (first second : Pattern)
  | repeated (inner : Pattern)

/-- A place in a text: what stands in front of it and what is still to come. -/
structure Place where
  front : List Char
  rest : List Char

/-- A pattern is matched at a place, up to the resulting place if there is one.  The failures
are the positions, in bytes, at which a character, the start or the end was asked for in
vain. -/
inductive Matching : Pattern → Place → (result : Option Place) → (failures : List Nat) → Prop where
  | taken {accepts : Char → Bool} {character : Char} {front rest : List Char} :
      accepts character = true →
      Matching (.one accepts) ⟨front, character :: rest⟩ (some ⟨front ++ [character], rest⟩) []
  | refused {accepts : Char → Bool} {front rest : List Char} :
      (∀ character ∈ rest.head?, accepts character = false) →
      Matching (.one accepts) ⟨front, rest⟩ none [byteLength front]
  | atStart {rest : List Char} : Matching .start ⟨[], rest⟩ (some ⟨[], rest⟩) []
  | pastStart {front rest : List Char} :
      front ≠ [] → Matching .start ⟨front, rest⟩ none [byteLength front]
  | atFinish {front : List Char} : Matching .finish ⟨front, []⟩ (some ⟨front, []⟩) []
  | beforeFinish {front rest : List Char} :
      rest ≠ [] → Matching .finish ⟨front, rest⟩ none [byteLength front]
  | bothMatch {first second : Pattern} {place middle : Place} {result : Option Place}
      {failures later : List Nat} :
      Matching first place (some middle) failures → Matching second middle result later →
      Matching (.sequence first second) place result (failures ++ later)
  | firstFails {first second : Pattern} {place : Place} {failures : List Nat} :
      Matching first place none failures →
      Matching (.sequence first second) place none failures
  | chosen {first second : Pattern} {place next : Place} {failures : List Nat} :
      Matching first place (some next) failures →
      Matching (.choice first second) place (some next) failures
  | passedOver {first second : Pattern} {place : Place} {result : Option Place}
      {failures later : List Nat} :
      Matching first place none failures → Matching second place result later →
      Matching (.choice first second) place result (failures ++ later)
  | again {inner : Pattern} {place middle : Place} {result : Option Place}
      {failures later : List Nat} :
      Matching inner place (some middle) failures →
      Matching (.repeated inner) middle result later →
      Matching (.repeated inner) place result (failures ++ later)
  | noMore {inner : Pattern} {place : Place} {failures : List Nat} :
      Matching inner place none failures →
      Matching (.repeated inner) place (some place) failures

/-- The last of the positions. -/
def Furthest (position : Nat) (failures : List Nat) : Prop :=
  position ∈ failures ∧ ∀ other ∈ failures, other ≤ position

/-- A matcher for whole texts: nothing is reported of a text that matches, and of any other the
furthest position at which matching failed. -/
structure Reports (pattern : Pattern) (matcher : List Char → Option Nat) : Prop where
  matched : ∀ text, matcher text = none →
    ∃ final failures, Matching pattern ⟨[], text⟩ (some final) failures
  failed : ∀ text position, matcher text = some position →
    ∃ failures, Matching pattern ⟨[], text⟩ none failures ∧ Furthest position failures

namespace Pattern

def character (expected : Char) : Pattern :=
  .one fun character => character = expected

def range (first last : Char) : Pattern :=
  .one fun character => first ≤ character && character ≤ last

def literalCharacter : Pattern :=
  .choice (.range '0' '9') (.character '.')

def operator : Pattern :=
  .choice (.character '+') (.choice (.character '-') (.choice (.character '*') (.character '/')))

def bracket : Pattern :=
  .choice (.character '(') (.character ')')

/-- The texts of strict statements. -/
def statement : Pattern :=
  .sequence .start
    (.sequence (.repeated (.choice literalCharacter (.choice operator bracket))) .finish)

end Pattern

variable {pattern : Pattern} {place : Place} {failures : List Nat} {accepts : Char → Bool}
variable {text : List Char} {position : Nat}

@[simp] theorem byteLength_cons (character : Char) (text : List Char) :
    byteLength (character :: text) = character.utf8Size + byteLength text := rfl

theorem byteLength_append (front back : List Char) :
    byteLength (front ++ back) = byteLength front + byteLength back := by
  induction front with
  | nil => simp [byteLength]
  | cons character front ih =>
      rw [List.cons_append, byteLength_cons, byteLength_cons, ih, Nat.add_assoc]

/-- Matching leaves no choice. -/
theorem Matching.unique {result other : Option Place} {otherFailures : List Nat}
    (first : Matching pattern place result failures)
    (second : Matching pattern place other otherFailures) :
    result = other ∧ failures = otherFailures := by
  induction first generalizing other otherFailures with
  | taken accepted =>
      cases second with
      | taken _ => exact ⟨rfl, rfl⟩
      | refused refused => simp_all
  | refused refused =>
      cases second with
      | taken accepted => simp_all
      | refused _ => exact ⟨rfl, rfl⟩
  | atStart =>
      cases second with
      | atStart => exact ⟨rfl, rfl⟩
      | pastStart past => exact (past rfl).elim
  | pastStart past =>
      cases second with
      | atStart => exact (past rfl).elim
      | pastStart _ => exact ⟨rfl, rfl⟩
  | atFinish =>
      cases second with
      | atFinish => exact ⟨rfl, rfl⟩
      | beforeFinish before => exact (before rfl).elim
  | beforeFinish before =>
      cases second with
      | atFinish => exact (before rfl).elim
      | beforeFinish _ => exact ⟨rfl, rfl⟩
  | bothMatch _ _ firstIH secondIH =>
      cases second with
      | bothMatch first second =>
          rcases firstIH first with ⟨⟨⟩, rfl⟩
          rcases secondIH second with ⟨rfl, rfl⟩
          exact ⟨rfl, rfl⟩
      | firstFails first => cases (firstIH first).1
  | firstFails _ firstIH =>
      cases second with
      | bothMatch first _ => cases (firstIH first).1
      | firstFails first => exact firstIH first
  | chosen _ firstIH =>
      cases second with
      | chosen first => exact firstIH first
      | passedOver first _ => cases (firstIH first).1
  | passedOver _ _ firstIH secondIH =>
      cases second with
      | chosen first => cases (firstIH first).1
      | passedOver first second =>
          rcases firstIH first with ⟨_, rfl⟩
          rcases secondIH second with ⟨rfl, rfl⟩
          exact ⟨rfl, rfl⟩
  | again _ _ innerIH restIH =>
      cases second with
      | again inner rest =>
          rcases innerIH inner with ⟨⟨⟩, rfl⟩
          rcases restIH rest with ⟨rfl, rfl⟩
          exact ⟨rfl, rfl⟩
      | noMore inner => cases (innerIH inner).1
  | noMore _ innerIH =>
      cases second with
      | again inner _ => cases (innerIH inner).1
      | noMore inner => exact ⟨rfl, (innerIH inner).2⟩

/-- A pattern for one character of a class, which fails nowhere but at its place. -/
structure IsClass (pattern : Pattern) (accepts : Char → Bool) : Prop where
  taken : ∀ {character} (front rest), accepts character = true →
    ∃ failures, Matching pattern ⟨front, character :: rest⟩
        (some ⟨front ++ [character], rest⟩) failures ∧
      ∀ position ∈ failures, position = byteLength front
  refused : ∀ front rest, (∀ character ∈ rest.head?, accepts character = false) →
    ∃ failures, Matching pattern ⟨front, rest⟩ none failures ∧
      byteLength front ∈ failures ∧ ∀ position ∈ failures, position = byteLength front

namespace IsClass

theorem one (accepts : Char → Bool) : IsClass (.one accepts) accepts where
  taken _ _ accepted := ⟨[], .taken accepted, by simp⟩
  refused front rest refused := ⟨[byteLength front], .refused refused, by simp⟩

theorem choice {first second : Pattern} {inFirst inSecond : Char → Bool}
    (firstClass : IsClass first inFirst) (secondClass : IsClass second inSecond) :
    IsClass (.choice first second) fun character => inFirst character || inSecond character where
  taken {character} front rest accepted := by
    cases firstAccepts : inFirst character with
    | true =>
        rcases firstClass.taken front rest firstAccepts with ⟨failures, matching, here⟩
        exact ⟨failures, .chosen matching, here⟩
    | false =>
        have secondAccepts : inSecond character = true := by simpa [firstAccepts] using accepted
        rcases firstClass.refused front (character :: rest) (by simpa using firstAccepts)
          with ⟨failures, refused, _, here⟩
        rcases secondClass.taken front rest secondAccepts with ⟨later, matching, hereToo⟩
        refine ⟨failures ++ later, .passedOver refused matching, ?_⟩
        intro position member
        exact (List.mem_append.mp member).elim (here position) (hereToo position)
  refused front rest refused := by
    have both : ∀ character ∈ rest.head?, inFirst character = false ∧ inSecond character = false := by
      simpa using refused
    rcases firstClass.refused front rest fun character first => (both character first).1
      with ⟨failures, firstRefused, atFront, here⟩
    rcases secondClass.refused front rest fun character first => (both character first).2
      with ⟨later, secondRefused, _, hereToo⟩
    refine ⟨failures ++ later, .passedOver firstRefused secondRefused,
      List.mem_append_left later atFront, ?_⟩
    intro position member
    exact (List.mem_append.mp member).elim (here position) (hereToo position)

/-- A class is taken as long as it accepts, and where it ends it failed last. -/
theorem repeated (isClass : IsClass pattern accepts) (front rest : List Char) :
    ∃ failures, Matching (.repeated pattern) ⟨front, rest⟩
        (some ⟨front ++ rest.takeWhile accepts, rest.dropWhile accepts⟩) failures ∧
      Furthest (byteLength (front ++ rest.takeWhile accepts)) failures := by
  induction rest generalizing front with
  | nil =>
      rcases isClass.refused front [] (by simp) with ⟨failures, refused, atFront, here⟩
      simp only [List.takeWhile_nil, List.dropWhile_nil, List.append_nil]
      exact ⟨failures, .noMore refused, atFront, fun other member => (here other member).le⟩
  | cons character rest ih =>
      cases accepted : accepts character with
      | true =>
          rcases isClass.taken front rest accepted with ⟨failures, matching, here⟩
          rcases ih (front ++ [character]) with ⟨later, matchingLater, last, furthest⟩
          rw [List.append_assoc, List.singleton_append] at matchingLater last furthest
          rw [List.takeWhile_cons_of_pos accepted, List.dropWhile_cons_of_pos accepted]
          refine ⟨failures ++ later, .again matching matchingLater,
            List.mem_append_right failures last, ?_⟩
          intro other member
          rcases List.mem_append.mp member with member | member
          · rw [here other member, byteLength_append]
            exact Nat.le_add_right _ _
          · exact furthest other member
      | false =>
          have refused : ∀ first ∈ (character :: rest).head?, accepts first = false := by
            simpa using accepted
          rcases isClass.refused front _ refused with ⟨failures, refused, atFront, here⟩
          rw [List.takeWhile_cons_of_neg (by simp [accepted]),
            List.dropWhile_cons_of_neg (by simp [accepted]), List.append_nil]
          exact ⟨failures, .noMore refused, atFront, fun other member => (here other member).le⟩

end IsClass

/-- The characters of the grammar are those of the alphabet. -/
theorem isNative_eq :
    isNative = fun character =>
      ('0' ≤ character && character ≤ '9' || character = '.') ||
        ((character = '+' || (character = '-' || (character = '*' || character = '/'))) ||
          (character = '(' || character = ')')) := by
  funext character
  simp [isNative, Char.isDigit, Char.le_def, Bool.or_assoc]

theorem isClass_native :
    IsClass (.choice .literalCharacter (.choice .operator .bracket)) isNative := by
  rw [isNative_eq]
  exact ((IsClass.one _).choice (.one _)).choice
    (((IsClass.one _).choice ((IsClass.one _).choice ((IsClass.one _).choice (.one _)))).choice
      ((IsClass.one _).choice (.one _)))

/-! ## Whole texts -/

variable {front : List Char} {character : Char}

theorem takeWhile_native (native : ∀ other ∈ front, isNative other)
    (foreign : isNative character = false) (back : List Char) :
    (front ++ character :: back).takeWhile isNative = front ∧
      (front ++ character :: back).dropWhile isNative = character :: back := by
  constructor
  · rw [List.takeWhile_append_of_pos native, List.takeWhile_cons_of_neg (by simp [foreign]),
      List.append_nil]
  · rw [List.dropWhile_append_of_pos native, List.dropWhile_cons_of_neg (by simp [foreign])]

theorem firstForeign?_eq_some_iff :
    firstForeign? text = some (position, character) ↔
      ∃ front back, text = front ++ character :: back ∧ (∀ other ∈ front, isNative other) ∧
        isNative character = false ∧ position = byteLength front := by
  constructor
  · intro found
    simp only [firstForeign?, Option.map_eq_some_iff, Prod.mk.injEq] at found
    rcases found with ⟨first, isFirst, rfl, rfl⟩
    have foreign : isNative first = false := by
      rw [← List.find?_not_eq_head?_dropWhile] at isFirst
      simpa using List.find?_some isFirst
    rcases List.head?_eq_some_iff.mp isFirst with ⟨back, behind⟩
    refine ⟨text.takeWhile isNative, back, ?_, ?_, foreign, rfl⟩
    · rw [← behind, List.takeWhile_append_dropWhile]
    · exact fun other member => List.mem_takeWhile_imp member
  · rintro ⟨front, back, rfl, native, foreign, rfl⟩
    rcases takeWhile_native native foreign back with ⟨taken, left⟩
    simp [firstForeign?, taken, left]

theorem exists_matching_of_native (native : ∀ other ∈ text, isNative other) :
    ∃ failures, Matching .statement ⟨[], text⟩ (some ⟨text, []⟩) failures := by
  rcases isClass_native.repeated [] text with ⟨failures, matching, _⟩
  have taken : text.takeWhile isNative = text := List.takeWhile_eq_self_iff.mpr native
  have left : text.dropWhile isNative = [] := List.dropWhile_eq_nil_iff.mpr native
  rw [taken, left] at matching
  exact ⟨_, .bothMatch .atStart (.bothMatch matching .atFinish)⟩

/-- Matching gets as far as the first foreign character. -/
theorem exists_matching_of_foreign (native : ∀ other ∈ front, isNative other)
    (foreign : isNative character = false) (back : List Char) :
    ∃ failures, Matching .statement ⟨[], front ++ character :: back⟩ none failures ∧
      Furthest (byteLength front) failures := by
  rcases isClass_native.repeated [] (front ++ character :: back) with
    ⟨failures, matching, last, furthest⟩
  rcases takeWhile_native native foreign back with ⟨taken, left⟩
  rw [taken, List.nil_append] at last furthest
  rw [taken, left] at matching
  refine ⟨_, .bothMatch .atStart (.bothMatch matching (.beforeFinish (by simp))), ?_, ?_⟩
  · simp [last]
  · intro other member
    simp only [List.nil_append, List.mem_append, List.mem_singleton] at member
    rcases member with member | rfl
    · exact furthest other member
    · exact le_rfl

namespace Reports

variable {matcher : List Char → Option Nat}

/-- Every matcher reports the position of the first foreign character. -/
theorem eq_firstForeign? (reports : Reports .statement matcher) (text : List Char) :
    matcher text = (firstForeign? text).map Prod.fst := by
  cases found : firstForeign? text with
  | none =>
      rcases exists_matching_of_native (firstForeign?_eq_none_iff.mp found) with
        ⟨failures, matching⟩
      cases reported : matcher text with
      | none => rfl
      | some position =>
          rcases reports.failed text position reported with ⟨_, failed, _⟩
          cases (failed.unique matching).1
  | some foreign =>
      rcases foreign with ⟨position, character⟩
      rcases firstForeign?_eq_some_iff.mp found with ⟨front, back, rfl, native, foreign, rfl⟩
      rcases exists_matching_of_foreign native foreign back with
        ⟨failures, failed, furthest⟩
      cases reported : matcher (front ++ character :: back) with
      | none =>
          rcases reports.matched _ reported with ⟨_, _, matching⟩
          cases (matching.unique failed).1
      | some other =>
          rcases reports.failed _ other reported with ⟨_, failedToo, furthestToo⟩
          cases (failedToo.unique failed).2
          have same : other = byteLength front :=
            Nat.le_antisymm (furthest.2 other furthestToo.1) (furthestToo.2 _ furthest.1)
          rw [same]
          rfl

/-- There is such a matcher. -/
theorem firstForeign? : Reports .statement fun text => (firstForeign? text).map Prod.fst where
  matched text reported := by
    rw [Option.map_eq_none_iff, firstForeign?_eq_none_iff] at reported
    exact ⟨_, exists_matching_of_native reported⟩
  failed text position reported := by
    rcases Option.map_eq_some_iff.mp reported with ⟨⟨_, character⟩, found, rfl⟩
    rcases firstForeign?_eq_some_iff.mp found with ⟨front, back, rfl, native, foreign, rfl⟩
    exact exists_matching_of_foreign native foreign back

end Reports

end Reckon.Statement
