import Reckon.Proofs.Admissible
import Reckon.Proofs.Balance

/-!
# Misordered brackets

Before a statement is read, its brackets are counted and no more.  A closing bracket
that comes too early is left to the evaluation, where nothing matches brackets up
either: it takes off whatever symbol is on top.  What a run keeps is a sum.  The groups
that are open and the closing brackets read are together as many as the opening brackets
read and the symbols that closing brackets *discarded* in the place of an opening one.
-/

namespace Reckon

/-- Whether a closing bracket removed a symbol that is not an opening bracket. -/
def Event.isDiscard : Event → Bool
  | discarded _ => true
  | _ => false

/-- How often a closing bracket removed a symbol that is not an opening bracket. -/
def discards (events : List Event) : Nat :=
  events.countP Event.isDiscard

@[simp] theorem discards_nil : discards [] = 0 := rfl

@[simp] theorem discards_append (earlier later : List Event) :
    discards (earlier ++ later) = discards earlier + discards later :=
  List.countP_append

/-- Whether two operands were combined. -/
def Event.isCombined : Event → Bool
  | combined .. => true
  | _ => false

theorem discards_of_isCombined {events : List Event}
    (combined : ∀ event ∈ events, event.isCombined) : discards events = 0 := by
  rw [discards, List.countP_eq_zero]
  intro event member
  cases event with
  | discarded symbol => cases combined _ member
  | pushed value => simp [Event.isDiscard]
  | combined left symbol right result => simp [Event.isDiscard]
  | dropped literal => simp [Event.isDiscard]

namespace Pending

variable {incoming : Symbol} {reduction : Reduction}

theorem isCombined_combine (symbol : Symbol) (pending : Pending) :
    ∀ event ∈ (combine symbol pending).events, event.isCombined := by
  rw [combine]
  split
  · dsimp only
    split
    · simp [Outcome.logged, Event.isCombined]
    · simp [Outcome.fail]
  · simp [Outcome.fail]

/-- Nothing but combining happens while symbols give way. -/
theorem isCombined_giveWayFrom (operators : List Symbol) (operands : List Float) :
    ∀ event ∈ (giveWayFrom reduction incoming operators operands).events,
      event.isCombined := by
  induction operators generalizing operands with
  | nil => simp [giveWayFrom, Outcome.done]
  | cons top below ih =>
      rw [giveWayFrom]
      split
      · simp [Outcome.done]
      · apply Outcome.forall_events_andThen (isCombined_combine top _)
        intro _ pending
        cases reduction with
        | single => simp [Outcome.done]
        | eager => exact ih pending.operands

end Pending

namespace Machine

variable {machine middle next final : Machine} {events later : List Event}
variable {opened closed : Nat}

/-- A part of reading in which so many brackets opened and closed, with its events. -/
structure Tallies (machine next : Machine) (events : List Event) (opened closed : Nat) :
    Prop where
  settings : next.settings = machine.settings
  depth : next.pending.balance.depth + closed =
    machine.pending.balance.depth + opened + discards events
  /-- Under eager reduction only opening brackets are taken off. -/
  eager : machine.settings.reduction = .eager → discards events = 0

theorem Tallies.trans {openedLater closedLater : Nat}
    (first : Tallies machine middle events opened closed)
    (second : Tallies middle next later openedLater closedLater) :
    Tallies machine next (events ++ later) (opened + openedLater)
      (closed + closedLater) where
  settings := second.settings.trans first.settings
  depth := by
    have := first.depth
    have := second.depth
    rw [discards_append]
    omega
  eager isEager := by
    rw [discards_append, first.eager isEager, second.eager (first.settings ▸ isEager)]

/-- A part that leaves the groups alone. -/
theorem tallies_of_balance (settings : next.settings = machine.settings)
    (depth : next.pending.balance.depth = machine.pending.balance.depth)
    (none : discards events = 0) : Tallies machine next events 0 0 where
  settings := settings
  depth := by rw [depth, none]
  eager _ := none

theorem tallies_endLiteral (reached : machine.endLiteral.reached = .ok next) :
    Tallies machine next machine.endLiteral.events 0 0 := by
  rw [endLiteral] at reached ⊢
  split at reached
  · cases reached
    exact tallies_of_balance rfl rfl rfl
  · cases reached
    exact tallies_of_balance rfl rfl rfl
  · split at reached
    · cases reached
    · cases reached
      exact tallies_of_balance rfl rfl rfl

theorem tallies_giveWay {incoming : Symbol}
    (reached : (machine.giveWay incoming).reached = .ok next) :
    Tallies machine next (machine.giveWay incoming).events 0 0 := by
  have none : discards (machine.giveWay incoming).events = 0 :=
    discards_of_isCombined (Pending.isCombined_giveWayFrom _ _)
  rw [giveWay, reached_onPending, bind_eq_ok_iff] at reached
  rcases reached with ⟨pending, gaveWay, rest⟩
  cases rest
  exact tallies_of_balance rfl
    (congrArg Balance.depth (Pending.givesWay_of_giveWay gaveWay).balance_eq).symm none

theorem tallies_makeWay {incoming : Symbol}
    (reached : (machine.makeWay incoming).reached = .ok next) :
    Tallies machine next (machine.makeWay incoming).events 0 0 := by
  rcases Outcome.exists_of_reached_andThen reached with ⟨middle, ended, gaveWay, events⟩
  rw [makeWay, events]
  exact (tallies_endLiteral ended).trans (tallies_giveWay gaveWay)

/-- After making way for a closing bracket, eager reduction has nothing but an opening
bracket on top. -/
theorem eq_openBracket_of_makeWay {symbol : Symbol}
    (eager : machine.settings.reduction = .eager)
    (reached : (machine.makeWay .closeBracket).reached = .ok next)
    (isTop : symbol ∈ next.pending.operators.head?) : symbol = .openBracket := by
  rcases Outcome.exists_of_reached_andThen reached with ⟨middle, ended, gaveWay, _⟩
  rw [giveWay, reached_onPending, bind_eq_ok_iff, (tallies_endLiteral ended).settings,
    eager] at gaveWay
  rcases gaveWay with ⟨pending, gaveWay, rest⟩
  cases rest
  exact Pending.eq_openBracket_of_waitsFor
    ((Pending.reached_giveWay_eq_ok_iff.mp gaveWay).2 symbol isTop)

theorem tallies_closeGroup
    (matching : machine.settings.reduction = .eager →
      ∀ symbol ∈ machine.pending.operators.head?, symbol = .openBracket)
    (reached : machine.closeGroup.reached = .ok next) :
    Tallies machine next machine.closeGroup.events 0 1 := by
  rcases machine with ⟨settings, ⟨operands, _ | ⟨top, below⟩⟩, draft⟩
  · cases reached
  · have taken : closeGroup ⟨settings, ⟨operands, top :: below⟩, draft⟩ =
        if top = .openBracket then .done () ⟨settings, ⟨operands, below⟩, draft⟩
        else .logged (.discarded top) ⟨settings, ⟨operands, below⟩, draft⟩ := rfl
    rw [taken] at reached ⊢
    by_cases opening : top = .openBracket
    · rw [if_pos opening] at reached ⊢
      cases reached
      subst opening
      exact ⟨rfl, by simp [Pending.balance, Outcome.done], fun _ => rfl⟩
    · rw [if_neg opening] at reached ⊢
      cases reached
      refine ⟨rfl, ?_, fun eager => absurd (matching eager top rfl) opening⟩
      simp [Pending.balance, Outcome.logged, opening, discards, Event.isDiscard]

theorem tallies_readSymbol {symbol : Symbol}
    (reached : (machine.readSymbol symbol).reached = .ok next) :
    Tallies machine next (machine.readSymbol symbol).events
      ([symbol.toChar].count '(') ([symbol.toChar].count ')') := by
  cases symbol with
  | openBracket =>
      rw [readSymbol, openGroup] at reached ⊢
      split at reached
      · cases reached
      · cases reached
        rename_i between
        rw [if_neg between]
        exact ⟨rfl, congrArg Balance.depth (Pending.balance_addSymbol_openBracket _),
          fun _ => rfl⟩
  | closeBracket =>
      rcases Outcome.exists_of_reached_andThen reached with ⟨middle, madeWay, closed, events⟩
      have first := tallies_makeWay madeWay
      rw [readSymbol, events]
      apply first.trans (tallies_closeGroup _ closed)
      intro eager symbol isTop
      exact eq_openBracket_of_makeWay (first.settings ▸ eager) madeWay isTop
  | binary operator =>
      rcases Outcome.exists_of_reached_andThen reached with ⟨middle, madeWay, added, events⟩
      have noBracket := Phrase.toChar_ne_bracket operator
      have second : Tallies middle next (middle.addSymbol (.binary operator)).events 0 0 := by
        have depth := congrArg Balance.depth
          (Pending.balance_addSymbol_binary middle.pending operator)
        cases added
        exact tallies_of_balance rfl depth rfl
      rw [readSymbol, events, Symbol.toChar, List.count_singleton, List.count_singleton,
        if_neg (by simpa using noBracket.1), if_neg (by simpa using noBracket.2)]
      exact (tallies_makeWay madeWay).trans second

theorem tallies_readChar {character : Char}
    (reached : (machine.readChar character).reached = .ok next) :
    Tallies machine next (machine.readChar character).events
      ([character].count '(') ([character].count ')') := by
  rw [readChar] at reached ⊢
  cases written : Symbol.ofChar? character with
  | some symbol =>
      rw [written] at reached
      rw [Symbol.ofChar?_eq_some_iff] at written
      subst written
      exact tallies_readSymbol reached
  | none =>
      rw [written] at reached
      have noBracket : character ≠ '(' ∧ character ≠ ')' := by
        constructor
        · rintro rfl
          cases written
        · rintro rfl
          cases written
      rw [List.count_singleton, List.count_singleton, if_neg (by simpa using noBracket.1),
        if_neg (by simpa using noBracket.2)]
      dsimp only [extendLiteral] at reached ⊢
      split at reached
      · cases reached
        exact tallies_of_balance rfl rfl rfl
      · cases reached

/-- What a run keeps. -/
theorem tallies_readChars {text : List Char}
    (reached : (machine.readChars text).reached = .ok next) :
    Tallies machine next (machine.readChars text).events (text.count '(')
      (text.count ')') := by
  induction text generalizing machine with
  | nil =>
      cases reached
      exact tallies_of_balance rfl rfl rfl
  | cons character rest ih =>
      rcases Outcome.exists_of_reached_andThen reached with ⟨middle, first, later, events⟩
      rw [readChars_cons, events, ← List.singleton_append, List.count_append,
        List.count_append]
      exact (tallies_readChar first).trans (ih later)

theorem tallies_read {text : List Char}
    (reached : (machine.read text).reached = .ok next) :
    Tallies machine next (machine.read text).events (text.count '(') (text.count ')') := by
  rcases Outcome.exists_of_reached_andThen reached with ⟨middle, characters, ended, events⟩
  rw [read, events]
  exact (tallies_readChars characters).trans (tallies_endLiteral ended)

end Machine

/-- What a first part logged stays in the log. -/
theorem Outcome.events_isPrefix_andThen {State Value Result : Type}
    (first : Outcome State Value) (next : Value → State → Outcome State Result) :
    first.events <+: (first.andThen next).events := by
  rcases first with ⟨cause | value, state, events⟩
  · exact List.prefix_rfl
  · exact List.prefix_append _ _

namespace Statement

variable {settings : Settings} {statement : String} {result : Float} {front : List Char}

/-- A statement that has a value is read to its end. -/
theorem reached_read_of_value (accepted : value settings statement = .ok result) :
    ∃ machine, ((Machine.fresh settings).read (strip statement)).reached = .ok machine ∧
      ((Machine.fresh settings).read (strip statement)).events <+: log settings statement := by
  rw [log]
  rw [value, run] at *
  cases prepared : prepare settings.tolerance statement with
  | error cause =>
      rw [prepared] at accepted
      cases accepted
  | ok text =>
      cases eq_strip_of_prepare prepared
      rw [prepared] at accepted
      dsimp only at accepted ⊢
      rw [Outcome.result_andThen, bind_eq_ok_iff] at accepted
      rcases accepted with ⟨machine, read, _⟩
      exact ⟨machine, read, Outcome.events_isPrefix_andThen _ _⟩

/-- In every first part of a statement that has a value, the closing brackets without
an opening one are made up for by discarded symbols. -/
theorem exists_tallies_of_value (accepted : value settings statement = .ok result)
    (isFirst : front <+: strip statement) :
    ∃ machine events, events <+: log settings statement ∧
      (Machine.fresh settings).Tallies machine events (front.count '(')
        (front.count ')') := by
  rcases reached_read_of_value accepted with ⟨last, read, logged⟩
  rcases Outcome.exists_of_reached_andThen read with ⟨middle, characters, _, _⟩
  rcases isFirst with ⟨back, text⟩
  rw [← text, Machine.readChars_append] at characters
  rcases Outcome.exists_of_reached_andThen characters with ⟨machine, reached, _, _⟩
  refine ⟨machine, _, List.IsPrefix.trans ?_ logged, Machine.tallies_readChars reached⟩
  rw [Machine.read, ← text, Machine.readChars_append]
  exact (Outcome.events_isPrefix_andThen _ _).trans (Outcome.events_isPrefix_andThen _ _)

/-- A bracket closes that was not opened: some first part has more closing brackets than
opening ones. -/
def Misordered (statement : String) : Prop :=
  ∃ front, front <+: statement.toList ∧ front.count '(' < front.count ')'

/-- Blanks are no brackets. -/
theorem exists_prefix_strip (misordered : Misordered statement) :
    ∃ front, front <+: strip statement ∧ front.count '(' < front.count ')' := by
  rcases misordered with ⟨front, isFirst, fewer⟩
  refine ⟨front.filter fun character => !Text.isBlank character, isFirst.filter _, ?_⟩
  rwa [List.count_filter rfl, List.count_filter rfl]

/-- A statement in which a bracket closes that was not opened is rejected, unless a
closing bracket discarded a pending symbol, which single reduction alone makes
possible.  The limit may be any that settings can have. -/
theorem rejected_or_discarded (misordered : Misordered statement) :
    (∃ cause, value settings statement = .error cause) ∨
      settings.reduction = .single ∧
        ∃ symbol, Event.discarded symbol ∈ log settings statement := by
  cases accepted : value settings statement with
  | error cause => exact .inl ⟨cause, rfl⟩
  | ok result =>
      right
      rcases exists_prefix_strip misordered with ⟨front, isFirst, fewer⟩
      rcases exists_tallies_of_value accepted isFirst with ⟨machine, events, logged, tallies⟩
      have depth : machine.pending.balance.depth + front.count ')' =
          0 + front.count '(' + discards events := tallies.depth
      have discarded : 0 < discards events := by omega
      constructor
      · cases reduction : settings.reduction with
        | single => rfl
        | eager =>
            have none := tallies.eager reduction
            omega
      · rcases List.countP_pos_iff.mp discarded with ⟨event, member, isDiscard⟩
        cases event with
        | discarded symbol => exact ⟨symbol, logged.subset member⟩
        | pushed value => cases isDiscard
        | combined left symbol right result => cases isDiscard
        | dropped literal => cases isDiscard

theorem closing_first_rejected :
    Misordered ") 1 + 2 (" ∧ ∃ cause, value .standard ") 1 + 2 (" = .error cause := by
  have misordered : Misordered ") 1 + 2 (" :=
    ⟨[')'], by decide, by decide⟩
  refine ⟨misordered, ?_⟩
  rcases rejected_or_discarded misordered with rejected | ⟨single, _⟩
  · exact rejected
  · cases single

/-- The closing bracket combines the product and discards the addition, and the opening
bracket behind it is never looked at. -/
theorem exists_value_misordered :
    Misordered "2+3*)(" ∧
      value { Settings.standard with reduction := .single } "2+3*)(" = .ok 6.0 :=
  ⟨⟨"2+3*)".toList, by decide, by decide⟩, by decide +kernel⟩

end Statement

end Reckon
