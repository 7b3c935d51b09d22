import Reckon.Proofs.Pattern

/-!
# Objections against a text

A text without blanks is read unless there is something against it.  There may be several
objections at once, and they are looked for in a fixed order, so that the first of them is the
cause of the rejection.  The last one, a foreign character, is found by matching the grammar of
the alphabet: the text is cut at the position that the matcher reports, and the character behind
the cut is the foreign one.
-/

namespace Reckon

/-- The order in which causes against a text are looked for. -/
def Rejection.stage : Rejection → Nat
  | empty => 0
  | comma => 1
  | doubledPoint => 2
  | unbalanced .. => 3
  | _ => 4

namespace Statement

/-- What can be held against a text before it is read. -/
inductive Objection (tolerance : Tolerance) : (text : List Char) → Rejection → Prop where
  | empty {text : List Char} : text = [] → Objection tolerance text .empty
  | comma {text : List Char} : ',' ∈ text → Objection tolerance text .comma
  | doubledPoint {text : List Char} :
      ['.', '.'] <:+: text → Objection tolerance text .doubledPoint
  | unbalanced {text : List Char} :
      text.count '(' ≠ text.count ')' →
      Objection tolerance text (.unbalanced (text.count '(') (text.count ')'))
  | foreign {text front back : List Char} {character : Char} :
      tolerance = .strict → text = front ++ character :: back →
      (∀ other ∈ front, isNative other) → isNative character = false →
      Objection tolerance text (.foreign front.length character)

variable {tolerance : Tolerance} {text front back : List Char} {cause other : Rejection}

theorem hasDoubledPoint_iff : hasDoubledPoint text = true ↔ ['.', '.'] <:+: text := by
  rw [← Bool.not_eq_false, hasDoubledPoint_eq_false_iff,
    List.isChain_iff_forall_rel_of_append_cons_cons]
  constructor
  · intro notChain
    push Not at notChain
    rcases notChain with ⟨first, second, front, back, rfl, doubled⟩
    rcases not_not.mp doubled with ⟨rfl, rfl⟩
    exact ⟨front, back, by simp⟩
  · rintro ⟨front, back, rfl⟩ undoubled
    exact undoubled (List.append_assoc front ['.', '.'] back) ⟨rfl, rfl⟩

theorem utf8Size_of_isNative {character : Char} (native : isNative character) :
    character.utf8Size = 1 := by
  simp only [isNative, Bool.or_eq_true, List.contains_iff_mem, List.mem_cons,
    List.not_mem_nil, or_false] at native
  rcases native with digit | rfl | rfl | rfl | rfl | rfl | rfl | rfl
  · simp only [Char.isDigit, Bool.and_eq_true, decide_eq_true_eq] at digit
    exact Char.utf8Size_eq_one_iff.mpr (UInt32.le_trans digit.2 (by decide))
  all_goals rfl

/-- Characters of the alphabet take one byte each. -/
theorem byteLength_of_native (native : ∀ character ∈ front, isNative character) :
    byteLength front = front.length := by
  induction front with
  | nil => rfl
  | cons character front ih =>
      rw [List.forall_mem_cons] at native
      rw [byteLength_cons, utf8Size_of_isNative native.1, ih native.2, List.length_cons,
        Nat.add_comm]

/-- An admissible text is one without objections. -/
theorem admissible_iff : Admissible tolerance text ↔ ∀ cause, ¬Objection tolerance text cause := by
  constructor
  · intro admissible cause objection
    cases objection with
    | empty empty => exact admissible.nonempty empty
    | comma comma => exact admissible.noComma comma
    | doubledPoint doubled =>
        rw [← hasDoubledPoint_iff, hasDoubledPoint_eq_false_iff.mpr admissible.undoubled] at doubled
        cases doubled
    | unbalanced differ => exact differ admissible.balanced
    | foreign strict split _ foreign =>
        subst split
        have native := admissible.native strict _ (List.mem_append_right _ List.mem_cons_self)
        rw [foreign] at native
        cases native
  · intro none
    refine ⟨?_, ?_, ?_, ?_, ?_⟩
    · exact fun empty => none _ (.empty empty)
    · exact fun comma => none _ (.comma comma)
    · rw [← hasDoubledPoint_eq_false_iff, ← Bool.not_eq_true, hasDoubledPoint_iff]
      exact fun doubled => none _ (.doubledPoint doubled)
    · by_contra differ
      exact none _ (.unbalanced differ)
    · intro strict
      rw [← firstForeign?_eq_none_iff]
      cases found : firstForeign? text with
      | none => rfl
      | some foreign =>
          rcases firstForeign?_eq_some_iff.mp found with ⟨front, back, rfl, native, foreign, _⟩
          exact (none _ (.foreign strict rfl native foreign)).elim

/-- A text has only one first foreign character. -/
theorem foreign_unique {character otherCharacter : Char} {otherFront otherBack : List Char}
    (native : ∀ other ∈ front, isNative other) (foreign : isNative character = false)
    (nativeToo : ∀ other ∈ otherFront, isNative other)
    (foreignToo : isNative otherCharacter = false)
    (same : front ++ character :: back = otherFront ++ otherCharacter :: otherBack) :
    front = otherFront ∧ character = otherCharacter := by
  rcases takeWhile_native native foreign back with ⟨taken, left⟩
  rcases takeWhile_native nativeToo foreignToo otherBack with ⟨takenToo, leftToo⟩
  rw [same] at taken left
  exact ⟨taken.symm.trans takenToo, (List.cons.inj (left.symm.trans leftToo)).1⟩

/-- There is one objection of each kind at most. -/
theorem Objection.unique (first : Objection tolerance text cause)
    (second : Objection tolerance text other) (same : cause.stage = other.stage) :
    cause = other := by
  cases first with
  | empty =>
      cases second with
      | empty => rfl
      | _ => cases same
  | comma =>
      cases second with
      | comma => rfl
      | _ => cases same
  | doubledPoint =>
      cases second with
      | doubledPoint => rfl
      | _ => cases same
  | unbalanced =>
      cases second with
      | unbalanced => rfl
      | _ => cases same
  | foreign _ split native foreign =>
      cases second with
      | foreign _ splitToo nativeToo foreignToo =>
          rcases foreign_unique native foreign nativeToo foreignToo (split.symm.trans splitToo)
            with ⟨rfl, rfl⟩
          rfl
      | _ => cases same

/-- The objection that is looked for first. -/
def FirstObjection (tolerance : Tolerance) (text : List Char) (cause : Rejection) : Prop :=
  Objection tolerance text cause ∧
    ∀ other, Objection tolerance text other → cause.stage ≤ other.stage

theorem firstObjection_of_prepare {statement : String}
    (rejected : prepare tolerance statement = .error cause) :
    FirstObjection tolerance (strip statement) cause := by
  simp only [prepare] at rejected
  generalize strip statement = text at rejected
  split at rejected
  · rename_i empty
    cases rejected
    exact ⟨.empty (by simpa using empty), fun _ _ => Nat.zero_le _⟩
  rename_i nonempty
  have notEmpty : text ≠ [] := by simpa using nonempty
  split at rejected
  · rename_i comma
    cases rejected
    refine ⟨.comma (by simpa using comma), fun other objection => ?_⟩
    cases objection with
    | empty empty => exact (notEmpty empty).elim
    | _ => simp [Rejection.stage]
  rename_i noComma
  have noComma : ',' ∉ text := by simpa using noComma
  split at rejected
  · rename_i doubled
    cases rejected
    refine ⟨.doubledPoint (hasDoubledPoint_iff.mp doubled), fun other objection => ?_⟩
    cases objection with
    | empty empty => exact (notEmpty empty).elim
    | comma comma => exact (noComma comma).elim
    | _ => simp [Rejection.stage]
  rename_i undoubled
  rw [hasDoubledPoint_iff] at undoubled
  split at rejected
  · rename_i differ
    cases rejected
    refine ⟨.unbalanced differ, fun other objection => ?_⟩
    cases objection with
    | empty empty => exact (notEmpty empty).elim
    | comma comma => exact (noComma comma).elim
    | doubledPoint doubled => exact (undoubled doubled).elim
    | _ => simp [Rejection.stage]
  rename_i balanced
  split at rejected
  · rename_i position character found
    cases rejected
    rcases firstForeign?_eq_some_iff.mp found with ⟨front, back, rfl, native, foreign, rfl⟩
    rw [byteLength_of_native native]
    refine ⟨.foreign rfl rfl native foreign, fun other objection => ?_⟩
    cases objection with
    | empty empty => exact (notEmpty empty).elim
    | comma comma => exact (noComma comma).elim
    | doubledPoint doubled => exact (undoubled doubled).elim
    | unbalanced differ => exact (balanced differ).elim
    | foreign => exact le_rfl
  · cases rejected

/-- The cause of a rejection is the first objection. -/
theorem prepare_eq_error_iff {statement : String} :
    prepare tolerance statement = .error cause ↔
      FirstObjection tolerance (strip statement) cause := by
  refine ⟨firstObjection_of_prepare, fun first => ?_⟩
  cases prepared : prepare tolerance statement with
  | ok text =>
      have admissible := (prepare_eq_ok_iff.mp prepared).2
      exact (admissible_iff.mp admissible cause first.1).elim
  | error other =>
      have isFirst := firstObjection_of_prepare prepared
      have same := Nat.le_antisymm (isFirst.2 cause first.1) (first.2 other isFirst.1)
      rw [isFirst.1.unique first.1 same]

/-! ## With a matcher of the grammar -/

/-- The text behind so many bytes, unless they end inside a character or behind the end. -/
def behind? : (bytes : Nat) → (text : List Char) → Option (List Char)
  | 0, text => some text
  | _ + 1, [] => none
  | bytes + 1, character :: rest =>
      if character.utf8Size ≤ bytes + 1 then behind? (bytes + 1 - character.utf8Size) rest
      else none

/-- Checks the alphabet by its grammar.  The text is cut at the position that the matcher
reports; there is no result if it cannot be cut there, and a null character stands for a
character that is missing behind the cut. -/
def checkAlphabet? (matcher : List Char → Option Nat) (text : List Char) :
    Option (Except Rejection Unit) :=
  match matcher text with
  | none => some (.ok ())
  | some position =>
      (behind? position text).map fun rest => .error (.foreign position (rest.headD '\x00'))

/-- Prepares a statement with a matcher for the grammar of the alphabet. -/
def prepareBy? (matcher : List Char → Option Nat) (tolerance : Tolerance) (statement : String) :
    Option (Except Rejection (List Char)) :=
  let text := strip statement
  let opening := text.count '('
  let closing := text.count ')'
  if text.isEmpty then some (.error .empty)
  else if text.contains ',' then some (.error .comma)
  else if hasDoubledPoint text then some (.error .doubledPoint)
  else if opening ≠ closing then some (.error (.unbalanced opening closing))
  else
    match tolerance with
    | .strict => (checkAlphabet? matcher text).map fun checked => checked.bind fun _ => .ok text
    | .lenient => some (.ok text)

theorem behind?_append (front back : List Char) :
    behind? (byteLength front) (front ++ back) = some back := by
  induction front with
  | nil => exact behind?.eq_1 back
  | cons character front ih =>
      have positive := character.utf8Size_pos
      have total := byteLength_cons character front
      obtain ⟨bytes, enough⟩ : ∃ bytes, byteLength (character :: front) = bytes + 1 :=
        Nat.exists_eq_succ_of_ne_zero (by omega)
      have left : bytes + 1 - character.utf8Size = byteLength front := by omega
      rw [enough, List.cons_append, behind?, if_pos (by omega), left, ih]

theorem checkAlphabet?_eq {matcher : List Char → Option Nat}
    (reports : Reports .statement matcher) (text : List Char) :
    checkAlphabet? matcher text =
      some (match firstForeign? text with
        | none => .ok ()
        | some (position, character) => .error (.foreign position character)) := by
  rw [checkAlphabet?, reports.eq_firstForeign?]
  cases found : firstForeign? text with
  | none => rfl
  | some foreign =>
      rcases foreign with ⟨position, character⟩
      rcases firstForeign?_eq_some_iff.mp found with ⟨front, back, rfl, native, foreign, rfl⟩
      simp [behind?_append]

theorem prepareBy?_eq {matcher : List Char → Option Nat} (reports : Reports .statement matcher)
    (tolerance : Tolerance) (statement : String) :
    prepareBy? matcher tolerance statement = some (prepare tolerance statement) := by
  simp only [prepareBy?, prepare, checkAlphabet?_eq reports, Option.map_some]
  split
  · rfl
  split
  · rfl
  split
  · rfl
  split
  · rfl
  cases tolerance with
  | lenient => rfl
  | strict => cases firstForeign? (strip statement) <;> rfl

/-- A statement is prepared with the first objection as the cause, or with exactly its characters
other than blanks if there is no objection.  Whatever matches the grammar of the alphabet, the
position it reports is that of the first foreign character, in characters as well as in bytes,
and the text can be cut there. -/
theorem prepare_rejects_first_objection {matcher : List Char → Option Nat}
    (reports : Reports .statement matcher) (tolerance : Tolerance) (statement : String) :
    prepareBy? matcher tolerance statement = some (prepare tolerance statement) ∧
    (∀ cause, prepare tolerance statement = .error cause ↔
      FirstObjection tolerance (strip statement) cause) ∧
    (∀ text, prepare tolerance statement = .ok text ↔
      text = strip statement ∧ ∀ cause, ¬Objection tolerance (strip statement) cause) ∧
    ∀ position, matcher (strip statement) = some position →
      ∃ front character back, strip statement = front ++ character :: back ∧
        (∀ other ∈ front, isNative other ∧ other.utf8Size = 1) ∧
        isNative character = false ∧
        position = byteLength front ∧ position = front.length ∧
        behind? position (strip statement) = some (character :: back) := by
  refine ⟨prepareBy?_eq reports tolerance statement, fun cause => prepare_eq_error_iff, ?_, ?_⟩
  · intro text
    rw [prepare_eq_ok_iff, admissible_iff]
  · intro position reported
    rw [reports.eq_firstForeign?, Option.map_eq_some_iff] at reported
    rcases reported with ⟨⟨_, character⟩, found, rfl⟩
    rcases firstForeign?_eq_some_iff.mp found with ⟨front, back, split, native, foreign, rfl⟩
    refine ⟨front, character, back, split, ?_, foreign, rfl, byteLength_of_native native, ?_⟩
    · exact fun other member => ⟨native other member, utf8Size_of_isNative (native other member)⟩
    · rw [split]
      exact behind?_append front (character :: back)

theorem prepare_rejects_times_sign :
    let matcher : List Char → Option Nat := fun text => (firstForeign? text).map Prod.fst
    let statement := "(1 .5 + 2) × ¾"
    Reports .statement matcher ∧
      prepareBy? matcher .strict statement = some (.error (.foreign 7 '×')) ∧
      FirstObjection .strict (strip statement) (.foreign 7 '×') ∧
      (∀ cause, ¬Objection .lenient (strip statement) cause) ∧
      matcher (strip statement) = some 7 ∧
      ∃ character back, isNative character = false ∧
        behind? 7 (strip statement) = some (character :: back) := by
  intro matcher statement
  have reports : Reports .statement matcher := .firstForeign?
  have rejected : prepare .strict statement = .error (.foreign 7 '×') := by decide +kernel
  have accepted : prepare .lenient statement = .ok (strip statement) := by decide +kernel
  have reported : matcher (strip statement) = some 7 := by decide +kernel
  rcases prepare_rejects_first_objection reports .strict statement with
    ⟨matched, objection, _, cut⟩
  rcases prepare_rejects_first_objection reports .lenient statement with ⟨_, _, none, _⟩
  rcases cut 7 reported with ⟨_, character, back, _, _, foreign, _, _, behind⟩
  exact ⟨reports, matched.trans (congrArg some rejected), (objection _).mp rejected,
    ((none _).mp accepted).2, reported, character, back, foreign, behind⟩

end Statement

end Reckon
