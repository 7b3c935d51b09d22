import Reckon.Proofs.Replay

/-!
# Pieces of a text

Which literals a text has can be seen without reading it.  Opening brackets do not end a
literal, so they are taken out; every other symbol does, so the rest is cut there, and what
lies between two cuts is a *piece*.  A machine decides the same character by character, with
the piece under way in its draft and operations in between.
-/

namespace Reckon

/-- Whether a character ends the piece in front of it. -/
def endsPiece (character : Char) : Bool :=
  ['+', '-', '*', '/', ')'].contains character

/-- Whether a text has no symbols. -/
def SymbolFree (text : List Char) : Prop :=
  ∀ character ∈ text, Symbol.ofChar? character = none

/-- The pieces of a text, from left to right. -/
def pieces (text : List Char) : List (List Char) :=
  ((text.filter (· ≠ '(')).splitOnP endsPiece).filter (· ≠ [])

namespace Event

/-- Whether a literal was pushed or dropped. -/
def isLiteral : Event → Bool
  | pushed _ | dropped _ => true
  | combined .. | discarded _ => false

/-- What the end of a piece gives. -/
def ofPiece (piece : List Char) : Event :=
  match Literal.read? piece with
  | some value => pushed value
  | none => dropped piece

end Event

/-- The events of literals that were pushed or dropped, in this order. -/
def literals (events : List Event) : List Event :=
  events.filter Event.isLiteral

section Pieces

variable {character : Char} {text : List Char}

theorem endsPiece_of_symbol {symbol : Symbol}
    (written : Symbol.ofChar? character = some symbol) (notOpening : symbol ≠ .openBracket) :
    endsPiece character = true := by
  rw [Symbol.ofChar?_eq_some_iff] at written
  subst written
  cases symbol with
  | binary operator => cases operator <;> rfl
  | openBracket => exact (notOpening rfl).elim
  | closeBracket => rfl

theorem endsPiece_of_plain (plain : Symbol.ofChar? character = none) :
    endsPiece character = false := by
  rw [endsPiece, List.contains_eq_mem, decide_eq_false_iff_not]
  intro member
  simp only [List.mem_cons, List.not_mem_nil, or_false] at member
  rcases member with rfl | rfl | rfl | rfl | rfl <;> cases plain

theorem ne_openBracket_of_endsPiece (ends : endsPiece character = true) :
    character ≠ '(' := by
  rintro rfl
  cases ends

theorem ne_openBracket_of_plain (plain : Symbol.ofChar? character = none) :
    character ≠ '(' := by
  rintro rfl
  cases plain

theorem filter_ne_openBracket_cons (notOpening : character ≠ '(') (text : List Char) :
    (character :: text).filter (· ≠ '(') = character :: text.filter (· ≠ '(') :=
  List.filter_cons_of_pos (decide_eq_true notOpening)

/-- Opening brackets are no part of a piece and end none. -/
theorem pieces_append_openBrackets (front : List Char) (count : Nat) (back : List Char) :
    pieces (front ++ (List.replicate count '(' ++ back)) = pieces (front ++ back) := by
  simp [pieces]

/-- A piece ends at every other symbol, and the next one begins behind it. -/
theorem pieces_append_cons (ends : endsPiece character = true) (front back : List Char) :
    pieces (front ++ character :: back) = pieces front ++ pieces back := by
  rw [pieces, List.filter_append, filter_ne_openBracket_cons (ne_openBracket_of_endsPiece ends),
    List.splitOnP_append_cons _ _ ends, List.filter_append, pieces, pieces]

/-- Text without symbols is a single piece. -/
theorem pieces_of_symbolFree (nonempty : text ≠ []) (plain : SymbolFree text) :
    pieces text = [text] := by
  have unbracketed : text.filter (· ≠ '(') = text := by
    rw [List.filter_eq_self]
    intro character member
    exact decide_eq_true (ne_openBracket_of_plain (plain character member))
  rw [pieces, unbracketed, List.splitOnP_eq_singleton]
  · simp [nonempty]
  · exact fun character member => endsPiece_of_plain (plain character member)

end Pieces

@[simp] theorem literals_append (earlier later : List Event) :
    literals (earlier ++ later) = literals earlier ++ literals later :=
  List.filter_append _ _

theorem mem_literals {event : Event} {events : List Event} :
    event ∈ literals events ↔ event ∈ events ∧ event.isLiteral = true :=
  List.mem_filter

/-- The event of a piece is that of a literal. -/
theorem Event.isLiteral_ofPiece (piece : List Char) : (ofPiece piece).isLiteral = true := by
  rw [ofPiece]
  split <;> rfl

theorem literals_of_isCombined {events : List Event}
    (combined : ∀ event ∈ events, event.isCombined) : literals events = [] := by
  rw [literals, List.filter_eq_nil_iff]
  intro event member
  cases event with
  | combined left symbol right result => simp [Event.isLiteral]
  | discarded symbol => simp [Event.isLiteral]
  | pushed value => cases combined _ member
  | dropped literal => cases combined _ member

theorem Pending.literals_giveWay {reduction : Reduction} {incoming : Symbol}
    (pending : Pending) : literals (pending.giveWay reduction incoming).events = [] :=
  literals_of_isCombined (isCombined_giveWayFrom _ _)

theorem Pending.literals_close (pending : Pending) : literals pending.close.events = [] := by
  rcases pending with ⟨operands, _ | ⟨top, below⟩⟩
  · rfl
  · rw [close_cons]
    split <;> rfl

namespace Machine

variable {machine middle next : Machine} {text : List Char} {events later : List Event}
variable {ended endedLater : List (List Char)}

/-- A part of reading in which these pieces ended, with its events. -/
structure Ends (machine next : Machine) (events : List Event) (ended : List (List Char)) :
    Prop where
  settings : next.settings = machine.settings
  capacity : next.draft.capacity = machine.draft.capacity
  literals_eq : literals events = ended.map Event.ofPiece
  fit : ∀ piece ∈ ended, piece.length ≤ machine.draft.capacity
  readable : machine.settings.tolerance = .strict →
    ∀ piece ∈ ended, (Literal.read? piece).isSome

theorem Ends.trans (first : Ends machine middle events ended)
    (second : Ends middle next later endedLater) :
    Ends machine next (events ++ later) (ended ++ endedLater) where
  settings := second.settings.trans first.settings
  capacity := second.capacity.trans first.capacity
  literals_eq := by
    rw [literals_append, first.literals_eq, second.literals_eq, List.map_append]
  fit piece member := by
    rcases List.mem_append.mp member with member | member
    · exact first.fit piece member
    · exact first.capacity ▸ second.fit piece member
  readable strict piece member := by
    rcases List.mem_append.mp member with member | member
    · exact first.readable strict piece member
    · exact second.readable (first.settings ▸ strict) piece member

/-- A part of reading that logs no literals. -/
theorem ends_nil (settings : next.settings = machine.settings)
    (capacity : next.draft.capacity = machine.draft.capacity) (none : literals events = []) :
    Ends machine next events [] where
  settings := settings
  capacity := capacity
  literals_eq := none
  fit _ member := by cases member
  readable _ _ member := by cases member

/-- What only concerns the pending operands and symbols leaves the piece under way. -/
theorem ends_onPending {part : Pending → Outcome Pending Unit}
    (none : literals (part machine.pending).events = [])
    (reached : (machine.onPending part).reached = .ok next) :
    Ends machine next (machine.onPending part).events [] ∧ next.draft = machine.draft := by
  rw [reached_onPending, bind_eq_ok_iff] at reached
  rcases reached with ⟨pending, _, rest⟩
  cases rest
  exact ⟨ends_nil rfl rfl none, rfl⟩

/-- The piece in the draft ends with its event. -/
theorem ends_draft {event : Event} (logged : event = .ofPiece machine.draft.text)
    (settings : next.settings = machine.settings)
    (capacity : next.draft.capacity = machine.draft.capacity)
    (readable : machine.settings.tolerance = .strict →
      (Literal.read? machine.draft.text).isSome) :
    Ends machine next [event] [machine.draft.text] where
  settings := settings
  capacity := capacity
  literals_eq := by
    rw [logged, literals, List.filter_cons_of_pos (Event.isLiteral_ofPiece _)]
    rfl
  fit piece member := by
    cases List.mem_singleton.mp member
    exact machine.draft.length_le
  readable strict piece member := by
    cases List.mem_singleton.mp member
    exact readable strict

/-- The end of a literal is the end of the piece in the draft. -/
theorem ends_endLiteral
    (plain : SymbolFree machine.draft.text)
    (reached : machine.endLiteral.reached = .ok next) :
    Ends machine next machine.endLiteral.events (pieces machine.draft.text) ∧
      next.draft.text = [] := by
  by_cases between : machine.draft.text = []
  · rw [endLiteral_of_text_eq_nil between] at reached ⊢
    cases reached
    rw [between]
    exact ⟨ends_nil rfl rfl rfl, between⟩
  · rw [endLiteral_of_read? between] at reached ⊢
    rw [pieces_of_symbolFree between plain]
    have piece := Event.ofPiece.eq_def machine.draft.text
    cases read : Literal.read? machine.draft.text with
    | some value =>
        rw [read] at reached piece
        cases reached
        exact ⟨ends_draft piece.symm rfl rfl (by simp [read]), rfl⟩
    | none =>
        rw [read] at reached piece
        cases tolerance : machine.settings.tolerance with
        | strict =>
            rw [tolerance] at reached
            cases reached
        | lenient =>
            rw [tolerance] at reached
            cases reached
            exact ⟨ends_draft piece.symm rfl rfl (by simp [tolerance]), rfl⟩

theorem ends_makeWay {incoming : Symbol}
    (plain : SymbolFree machine.draft.text)
    (reached : (machine.makeWay incoming).reached = .ok next) :
    Ends machine next (machine.makeWay incoming).events (pieces machine.draft.text) ∧
      next.draft.text = [] := by
  rcases Outcome.exists_of_reached_andThen reached with ⟨middle, ended, gaveWay, events⟩
  rcases ends_endLiteral plain ended with ⟨ends, between⟩
  rcases ends_onPending (Pending.literals_giveWay _) gaveWay with ⟨quiet, draft⟩
  rw [makeWay, events, ← List.append_nil (pieces _), draft]
  exact ⟨ends.trans quiet, between⟩

/-- A symbol that is not an opening bracket ends the piece in the draft. -/
theorem ends_readSymbol {symbol : Symbol} (notOpening : symbol ≠ .openBracket)
    (plain : SymbolFree machine.draft.text)
    (reached : (machine.readSymbol symbol).reached = .ok next) :
    Ends machine next (machine.readSymbol symbol).events (pieces machine.draft.text) ∧
      next.draft.text = [] := by
  cases symbol with
  | openBracket => exact (notOpening rfl).elim
  | closeBracket =>
      rcases Outcome.exists_of_reached_andThen reached with ⟨middle, madeWay, closed, events⟩
      rcases ends_makeWay plain madeWay with ⟨ends, between⟩
      rw [closeGroup_eq] at closed events
      rcases ends_onPending (Pending.literals_close _) closed with ⟨quiet, draft⟩
      rw [readSymbol, events, ← List.append_nil (pieces _), draft]
      exact ⟨ends.trans quiet, between⟩
  | binary operator =>
      rcases Outcome.exists_of_reached_andThen reached with ⟨middle, madeWay, added, events⟩
      rcases ends_makeWay plain madeWay with ⟨ends, between⟩
      cases added
      rw [readSymbol, events, ← List.append_nil (pieces _)]
      exact ⟨ends.trans (ends_nil rfl rfl rfl), between⟩

theorem of_extendLiteral {character : Char}
    (reached : (machine.extendLiteral character).reached = .ok next) :
    next.settings = machine.settings ∧ next.draft.capacity = machine.draft.capacity ∧
      next.draft.text = machine.draft.text ++ [character] ∧
      (machine.extendLiteral character).events = [] := by
  rw [extendLiteral] at reached ⊢
  cases extended : machine.draft.extend character with
  | error cause =>
      rw [extended] at reached
      cases reached
  | ok draft =>
      rw [extended] at reached
      cases reached
      rcases Draft.extend_eq_ok_iff.mp extended with ⟨_, capacity, text⟩
      exact ⟨rfl, capacity, text, rfl⟩

/-- What a character does to the pieces: the rest of the text goes on with the draft that is
left, and together they have the pieces that ended and those still to come. -/
theorem ends_readChar {character : Char}
    (plain : SymbolFree machine.draft.text)
    (reached : (machine.readChar character).reached = .ok next) :
    SymbolFree next.draft.text ∧
      ∃ ended, Ends machine next (machine.readChar character).events ended ∧
        ∀ rest, pieces (machine.draft.text ++ character :: rest) =
          ended ++ pieces (next.draft.text ++ rest) := by
  rw [readChar] at reached ⊢
  cases written : Symbol.ofChar? character with
  | none =>
      rw [written] at reached
      rcases of_extendLiteral reached with ⟨settings, capacity, extended, events⟩
      refine ⟨?_, [], ends_nil settings capacity (congrArg literals events), ?_⟩
      · intro other member
        rw [extended, List.mem_append, List.mem_singleton] at member
        rcases member with member | rfl
        · exact plain other member
        · exact written
      · intro rest
        rw [extended, List.append_assoc]
        rfl
  | some symbol =>
      rw [written] at reached
      dsimp only at reached ⊢
      by_cases opening : symbol = .openBracket
      · subst opening
        cases Symbol.ofChar?_eq_some_iff.mp written
        rw [readSymbol, openGroup_eq] at reached ⊢
        split at reached
        · cases reached
        · rename_i between
          cases reached
          rw [if_neg between]
          exact ⟨plain, [], ends_nil rfl rfl rfl,
            pieces_append_openBrackets machine.draft.text 1⟩
      · rcases ends_readSymbol opening plain reached with ⟨ends, between⟩
        refine ⟨by simp [SymbolFree, between], _, ends, fun rest => ?_⟩
        rw [between]
        exact pieces_append_cons (endsPiece_of_symbol written opening) _ _

/-- A run goes through the pieces of the draft and the text behind it. -/
theorem ends_read (plain : SymbolFree machine.draft.text)
    (reached : (machine.read text).reached = .ok next) :
    Ends machine next (machine.read text).events (pieces (machine.draft.text ++ text)) ∧
      next.draft.text = [] := by
  induction text generalizing machine with
  | nil =>
      rw [List.append_nil]
      exact ends_endLiteral plain reached
  | cons character rest ih =>
      rw [read_cons] at reached ⊢
      rcases Outcome.exists_of_reached_andThen reached with ⟨middle, first, later, events⟩
      rcases ends_readChar plain first with ⟨plainLater, ended, ends, splits⟩
      rcases ih plainLater later with ⟨endsLater, between⟩
      rw [events, splits]
      exact ⟨ends.trans endsLater, between⟩

/-- What is read to its end by a machine that had read nothing has its pieces as literals:
each is pushed with the value that it reads as, or else dropped, and replaying the log gives
the operands that are left.  Opening brackets in the text change nothing about its literals. -/
theorem literals_of_read {settings : Settings}
    (reached : ((fresh settings).read text).reached = .ok machine) :
    literals ((fresh settings).read text).events = (pieces text).map Event.ofPiece ∧
    (∀ piece ∈ pieces text, piece.length ≤ settings.literalLimit) ∧
    (settings.tolerance = .strict →
      ∀ literal, .dropped literal ∉ ((fresh settings).read text).events) ∧
    machine.draft.text = [] ∧
    replay? ((fresh settings).read text).events [] = some machine.pending.operands ∧
    ∀ front count back, text = front ++ (List.replicate count '(' ++ back) →
      literals ((fresh settings).read text).events =
        (pieces (front ++ back)).map Event.ofPiece := by
  have plain : SymbolFree (fresh settings).draft.text := by
    simp [SymbolFree, fresh]
  rcases ends_read plain reached with ⟨ends, between⟩
  have literals_eq : literals ((fresh settings).read text).events =
      (pieces text).map Event.ofPiece := ends.literals_eq
  refine ⟨literals_eq, ends.fit, ?_, between, (recounts_read reached).replays, ?_⟩
  · intro strict literal member
    have dropped := mem_literals.mpr ⟨member, rfl⟩
    rw [literals_eq, List.mem_map] at dropped
    rcases dropped with ⟨piece, isPiece, dropped⟩
    have readable := ends.readable strict piece isPiece
    rw [Event.ofPiece] at dropped
    split at dropped
    · cases dropped
    · simp_all
  · rintro front count back rfl
    rw [literals_eq, pieces_append_openBrackets]

/-- The first literal goes on behind two opening brackets, and the second one is dropped. -/
theorem literals_of_bracketed_literal :
    let settings : Settings := { Settings.standard with tolerance := .lenient }
    let outcome := (fresh settings).read "2((3)+1.2.3*4".toList
    outcome.reached = .ok outcome.state ∧
      literals outcome.events =
        [.pushed 23.0, .dropped "1.2.3".toList, .pushed 4.0] ∧
      outcome.state.draft.text = [] ∧
      replay? outcome.events [] = some [4.0, 23.0] := by
  intro settings outcome
  have reached : outcome.reached = .ok outcome.state := by
    rw [Outcome.reached_eq_ok_iff]
    decide +kernel
  rcases literals_of_read reached with ⟨pushed, _, _, between, replays, _⟩
  exact ⟨reached, pushed.trans (by decide +kernel), between,
    replays.trans (by decide +kernel)⟩

end Machine

end Reckon
