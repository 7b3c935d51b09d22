import Reckon.Proofs.Bracket

/-!
# Replaying the log

The log of an evaluation is complete: its events, carried out on an empty stack of
operands, give the value of the statement.  It also accounts for every operator that was
read.  An operator leaves the pending ones by being combined or by being discarded, and
each time there is an event for it; whatever is not logged is still pending in the end.
-/

namespace Reckon

def Symbol.isBinary : Symbol → Bool
  | binary _ => true
  | openBracket | closeBracket => false

/-- The operators written in a text, from left to right. -/
def operatorsOf (text : List Char) : List Symbol :=
  (text.filterMap Symbol.ofChar?).filter Symbol.isBinary

namespace Event

/-- Whether an operand was pushed. -/
def isPush : Event → Bool
  | pushed _ => true
  | combined .. | dropped _ | discarded _ => false

/-- The symbol that was combined. -/
def combined? : Event → Option Symbol
  | combined _ symbol _ _ => some symbol
  | pushed _ | dropped _ | discarded _ => none

/-- The symbol that was discarded. -/
def discarded? : Event → Option Symbol
  | discarded symbol => some symbol
  | pushed _ | combined .. | dropped _ => none

/-- Does to a stack of operands, topmost first, what an event says.  An operation must find
its operands on top, and its result must be the right one. -/
def replay? : Event → (operands : List Float) → Option (List Float)
  | pushed value, operands => some (value :: operands)
  | combined left symbol right result, second :: first :: rest =>
      if first = left ∧ second = right ∧ symbol.apply left right = .ok result then
        some (result :: rest)
      else none
  | combined .., [] | combined .., [_] => none
  | dropped _, operands | discarded _, operands => some operands

end Event

/-- Replays events one after the other. -/
def replay? (events : List Event) (operands : List Float) : Option (List Float) :=
  events.foldlM (fun operands event => event.replay? operands) operands

/-- The symbols that were combined, in this order. -/
def combinedSymbols (events : List Event) : List Symbol :=
  events.filterMap Event.combined?

/-- The symbols that closing brackets discarded, in this order. -/
def discardedSymbols (events : List Event) : List Symbol :=
  events.filterMap Event.discarded?

@[simp] theorem replay?_nil (operands : List Float) : replay? [] operands = some operands := rfl

theorem replay?_append (earlier later : List Event) (operands : List Float) :
    replay? (earlier ++ later) operands = (replay? earlier operands).bind (replay? later) :=
  List.foldlM_append

@[simp] theorem combinedSymbols_nil : combinedSymbols [] = [] := rfl

@[simp] theorem discardedSymbols_nil : discardedSymbols [] = [] := rfl

@[simp] theorem combinedSymbols_cons (event : Event) (events : List Event) :
    combinedSymbols (event :: events) = event.combined?.toList ++ combinedSymbols events := by
  cases event <;> rfl

@[simp] theorem discardedSymbols_cons (event : Event) (events : List Event) :
    discardedSymbols (event :: events) = event.discarded?.toList ++ discardedSymbols events := by
  cases event <;> rfl

@[simp] theorem combinedSymbols_append (earlier later : List Event) :
    combinedSymbols (earlier ++ later) = combinedSymbols earlier ++ combinedSymbols later :=
  List.filterMap_append

@[simp] theorem discardedSymbols_append (earlier later : List Event) :
    discardedSymbols (earlier ++ later) = discardedSymbols earlier ++ discardedSymbols later :=
  List.filterMap_append

theorem length_discardedSymbols (events : List Event) :
    (discardedSymbols events).length = discards events := by
  induction events with
  | nil => rfl
  | cons event events ih =>
      rw [discardedSymbols_cons, List.length_append, ih, discards, discards, List.countP_cons]
      cases event <;> simp [Event.discarded?, Event.isDiscard, Nat.add_comm]

/-- A push makes the stack higher by one and an operation makes it lower by one. -/
theorem length_of_replay? {events : List Event} {operands final : List Float}
    (replayed : replay? events operands = some final) :
    operands.length + events.countP Event.isPush =
      final.length + (combinedSymbols events).length := by
  induction events generalizing operands with
  | nil =>
      cases replayed
      rfl
  | cons event events ih =>
      rw [replay?, List.foldlM_cons, Option.bind_eq_bind, Option.bind_eq_some_iff] at replayed
      rcases replayed with ⟨middle, replayed, later⟩
      have rest := ih later
      cases event with
      | pushed value =>
          cases replayed
          rw [List.countP_cons_of_pos rfl]
          simp [Event.combined?] at rest ⊢
          omega
      | combined left symbol right result =>
          match operands with
          | [] | [_] => cases replayed
          | second :: first :: below =>
              rw [Event.replay?] at replayed
              split at replayed
              · cases replayed
                rw [List.countP_cons_of_neg (by simp [Event.isPush])]
                simp [Event.combined?] at rest ⊢
                omega
              · cases replayed
      | dropped literal =>
          cases replayed
          exact rest
      | discarded symbol =>
          cases replayed
          exact rest

/-- What happened between two states, and the operators read on the way, as the log tells
it. -/
structure Pending.Recounts (pending next : Pending) (operators : List Symbol)
    (events : List Event) : Prop where
  replays : replay? events pending.operands = some next.operands
  accounts : ∀ symbol ≠ Symbol.openBracket,
    pending.operators.count symbol + operators.count symbol =
      (combinedSymbols events).count symbol + (discardedSymbols events).count symbol +
        next.operators.count symbol
  noOpening : .openBracket ∉ combinedSymbols events ++ discardedSymbols events

namespace Pending

variable {pending middle next : Pending} {incoming top : Symbol} {reduction : Reduction}
variable {operands : List Float} {operators below read readLater : List Symbol}
variable {events later : List Event}

theorem Recounts.refl (pending : Pending) : Recounts pending pending [] [] where
  replays := rfl
  accounts _ _ := by simp
  noOpening := by simp

theorem Recounts.trans (first : Recounts pending middle read events)
    (second : Recounts middle next readLater later) :
    Recounts pending next (read ++ readLater) (events ++ later) where
  replays := by rw [replay?_append, first.replays, Option.bind_some, second.replays]
  accounts symbol other := by
    have := first.accounts symbol other
    have := second.accounts symbol other
    simp only [combinedSymbols_append, discardedSymbols_append, List.count_append]
    omega
  noOpening := by
    have := first.noOpening
    have := second.noOpening
    simp_all

theorem recounts_combine (combined : (combine top ⟨operands, below⟩).reached = .ok next) :
    next.operators = below ∧
      Recounts ⟨operands, top :: below⟩ next [] (combine top ⟨operands, below⟩).events := by
  rcases combine_cases combined with
    ⟨operator, left, right, rest, result, rfl, rfl, applied, rfl⟩
  have applies : (Symbol.binary operator).apply left right = .ok result := applied
  rw [combine_eq_logged applies]
  refine ⟨rfl, ?_, ?_, ?_⟩
  · simp [Outcome.logged, replay?, Event.replay?, applies]
  · intro symbol _
    simp [Outcome.logged, Event.combined?, Event.discarded?, List.count_cons, Nat.add_comm]
  · simp [Outcome.logged, Event.combined?, Event.discarded?]

theorem recounts_giveWayFrom
    (gaveWay : (giveWayFrom reduction incoming operators operands).reached = .ok next) :
    Recounts ⟨operands, operators⟩ next []
      (giveWayFrom reduction incoming operators operands).events := by
  induction operators generalizing operands with
  | nil =>
      cases gaveWay
      exact .refl _
  | cons top below ih =>
      cases waits : top.waitsFor incoming with
      | true =>
          rw [giveWayFrom_of_waitsFor waits] at gaveWay ⊢
          cases gaveWay
          exact .refl _
      | false =>
          rw [giveWayFrom, if_neg (by simp [waits])] at gaveWay ⊢
          rcases Outcome.exists_of_reached_andThen gaveWay with
            ⟨middle, combined, gaveWay, events⟩
          rcases recounts_combine combined with ⟨rfl, first⟩
          rw [events]
          cases reduction with
          | single =>
              cases gaveWay
              exact first.trans (.refl _)
          | eager => exact first.trans (ih gaveWay)

theorem recounts_combineAll (combined : (combineAll operators operands).reached = .ok next) :
    next.operators = [] ∧
      Recounts ⟨operands, operators⟩ next [] (combineAll operators operands).events := by
  induction operators generalizing operands with
  | nil =>
      cases combined
      exact ⟨rfl, .refl _⟩
  | cons top below ih =>
      rw [combineAll] at combined ⊢
      rcases Outcome.exists_of_reached_andThen combined with ⟨middle, first, combined, events⟩
      rcases recounts_combine first with ⟨rfl, recounts⟩
      rw [events]
      exact ⟨(ih combined).1, recounts.trans (ih combined).2⟩

theorem recounts_combineToOne
    (combined : (combineToOne operators operands).reached = .ok next) :
    Recounts ⟨operands, operators⟩ next [] (combineToOne operators operands).events := by
  induction operators generalizing operands with
  | nil =>
      match operands with
      | [] | _ :: _ :: _ => cases combined
      | [_] =>
          cases combined
          exact .refl _
  | cons top below ih =>
      match operands with
      | [] => cases combined
      | [_] =>
          cases combined
          exact .refl _
      | right :: left :: rest =>
          have first : combineToOne (top :: below) (right :: left :: rest) =
              (combine top ⟨right :: left :: rest, below⟩).andThen fun _ pending =>
                combineToOne below pending.operands := rfl
          rw [first] at combined ⊢
          rcases Outcome.exists_of_reached_andThen combined with
            ⟨middle, first, combined, events⟩
          rcases recounts_combine first with ⟨rfl, recounts⟩
          rw [events]
          exact recounts.trans (ih combined)

theorem recounts_pushed (pending : Pending) (value : Float) :
    Recounts pending (pending.addOperand value) [] [.pushed value] where
  replays := rfl
  accounts _ _ := by simp [Event.combined?, Event.discarded?, addOperand]
  noOpening := by simp [Event.combined?, Event.discarded?]

theorem recounts_dropped (pending : Pending) (literal : List Char) :
    Recounts pending pending [] [.dropped literal] where
  replays := rfl
  accounts _ _ := by simp [Event.combined?, Event.discarded?]
  noOpening := by simp [Event.combined?, Event.discarded?]

theorem recounts_openBracket (pending : Pending) :
    Recounts pending (pending.addSymbol .openBracket) [] [] where
  replays := rfl
  accounts symbol notOpening := by simp [addSymbol, notOpening.symm]
  noOpening := by simp

theorem recounts_binary (pending : Pending) (operator : Operator) :
    Recounts pending (pending.addSymbol (.binary operator)) [.binary operator] [] where
  replays := rfl
  accounts symbol _ := by simp [addSymbol, List.count_cons]
  noOpening := by simp

theorem close_cons :
    close ⟨operands, top :: below⟩ =
      if top = .openBracket then .done () ⟨operands, below⟩
      else .logged (.discarded top) ⟨operands, below⟩ := rfl

theorem recounts_close (closed : pending.close.reached = .ok next) :
    Recounts pending next [] pending.close.events := by
  rcases pending with ⟨operands, _ | ⟨top, below⟩⟩
  · cases closed
  · rw [close_cons] at closed ⊢
    by_cases opening : top = .openBracket
    · subst opening
      rw [if_pos rfl] at closed ⊢
      cases closed
      refine ⟨rfl, ?_, by simp [Outcome.done]⟩
      intro symbol notOpening
      simp [Outcome.done, notOpening.symm]
    · rw [if_neg opening] at closed ⊢
      cases closed
      refine ⟨rfl, ?_, ?_⟩
      · intro symbol _
        simp [Outcome.logged, Event.combined?, Event.discarded?, List.count_cons, Nat.add_comm]
      · simp [Outcome.logged, Event.combined?, Event.discarded?, Ne.symm opening]

/-- Taking the only operand off is not logged and leaves the symbols. -/
theorem exists_of_takeOnly {combined : Outcome Pending Unit} {value : Float}
    (concluded : (combined.andThen fun _ rest => rest.takeOnly).result = .ok value) :
    ∃ left, combined.reached = .ok ⟨[value], left⟩ ∧
      (combined.andThen fun _ rest => rest.takeOnly).events = combined.events ∧
      (combined.andThen fun _ rest => rest.takeOnly).state.operators = left := by
  rcases Outcome.exists_of_result_andThen concluded with
    ⟨⟨operands, left⟩, reached, taken, events, state⟩
  rw [takeOnly_eq_ok_iff] at taken
  cases taken
  exact ⟨left, reached, events.trans (List.append_nil _), congrArg operators state⟩

/-- What is concluded into a value is recounted up to that value alone. -/
theorem recounts_conclude (pending : Pending) {value : Float}
    (concluded : (pending.conclude reduction).result = .ok value) :
    Recounts pending ⟨[value], (pending.conclude reduction).state.operators⟩ []
        (pending.conclude reduction).events ∧
      (reduction = .eager → (pending.conclude reduction).state.operators = []) := by
  cases reduction with
  | eager =>
      rcases exists_of_takeOnly concluded with ⟨left, combined, events, operators⟩
      have recounts := recounts_combineAll combined
      rw [conclude, events, operators]
      exact ⟨recounts.2, fun _ => recounts.1⟩
  | single =>
      rcases exists_of_takeOnly concluded with ⟨left, combined, events, operators⟩
      rw [conclude, events, operators]
      exact ⟨recounts_combineToOne combined, by simp⟩

theorem discards_conclude_eager (pending : Pending) :
    discards (pending.conclude .eager).events = 0 := by
  have combining : ∀ operands, ∀ event ∈ (combineAll pending.operators operands).events,
      event.isCombined := by
    induction pending.operators with
    | nil => simp [combineAll, Outcome.done]
    | cons top below ih =>
        intro operands
        exact Outcome.forall_events_andThen (isCombined_combine top _) fun _ rest =>
          ih rest.operands
  apply discards_of_isCombined
  apply Outcome.forall_events_andThen (combining pending.operands)
  intro _ pending
  rw [takeOnly]
  split <;> simp [Outcome.done, Outcome.fail]

end Pending

theorem operatorsOf_append (first second : List Char) :
    operatorsOf (first ++ second) = operatorsOf first ++ operatorsOf second := by
  rw [operatorsOf, List.filterMap_append, List.filter_append]
  rfl

theorem operatorsOf_singleton {character : Char} {symbol : Symbol}
    (written : Symbol.ofChar? character = some symbol) :
    operatorsOf [character] = [symbol].filter Symbol.isBinary := by
  simp [operatorsOf, written]

theorem count_filter_isBinary {symbol : Symbol} (other : symbol.isBinary = false)
    (symbols : List Symbol) : (symbols.filter Symbol.isBinary).count symbol = 0 := by
  apply List.count_eq_zero_of_not_mem
  intro member
  rw [List.mem_filter, other] at member
  cases member.2

/-- From nothing pending, every operator read was combined or discarded or is pending. -/
theorem Pending.Recounts.perm_operatorsOf {next : Pending} {text : List Char}
    {events : List Event} (recounts : Recounts .empty next (operatorsOf text) events) :
    (operatorsOf text).Perm (combinedSymbols events ++ discardedSymbols events ++
      next.operators.filter Symbol.isBinary) := by
  rw [List.perm_iff_count]
  intro symbol
  rw [List.count_append]
  cases symbol with
  | binary operator =>
      have accounts := recounts.accounts (.binary operator) (by simp)
      rw [List.count_filter rfl, List.count_append]
      simpa [Pending.empty] using accounts
  | openBracket =>
      rw [operatorsOf, count_filter_isBinary rfl, count_filter_isBinary rfl,
        List.count_eq_zero_of_not_mem recounts.noOpening]
  | closeBracket =>
      have accounts := recounts.accounts .closeBracket (by simp)
      rw [operatorsOf, count_filter_isBinary rfl] at accounts ⊢
      rw [count_filter_isBinary rfl, List.count_append]
      simp only [Pending.empty, List.count_nil] at accounts
      omega

namespace Machine

variable {machine next : Machine} {text : List Char}

theorem recounts_endLiteral (reached : machine.endLiteral.reached = .ok next) :
    machine.pending.Recounts next.pending [] machine.endLiteral.events := by
  rw [endLiteral] at reached ⊢
  split at reached
  · cases reached
    exact .refl _
  · cases reached
    exact Pending.recounts_pushed _ _
  · split at reached
    · cases reached
    · cases reached
      exact Pending.recounts_dropped _ _

theorem recounts_makeWay {incoming : Symbol}
    (reached : (machine.makeWay incoming).reached = .ok next) :
    machine.pending.Recounts next.pending [] (machine.makeWay incoming).events := by
  rcases Outcome.exists_of_reached_andThen reached with ⟨middle, ended, gaveWay, events⟩
  rw [makeWay, events]
  rw [giveWay, reached_onPending, bind_eq_ok_iff] at gaveWay
  rcases gaveWay with ⟨pending, gaveWay, rest⟩
  cases rest
  exact (recounts_endLiteral ended).trans (Pending.recounts_giveWayFrom gaveWay)

theorem closeGroup_eq (machine : Machine) :
    machine.closeGroup = machine.onPending Pending.close := by
  rcases machine with ⟨settings, ⟨operands, _ | ⟨top, below⟩⟩, draft⟩
  · rfl
  · rw [onPending, Pending.close_cons]
    by_cases opening : top = .openBracket
    · subst opening
      rfl
    · rw [if_neg opening]
      exact if_neg opening

theorem recounts_closeGroup (reached : machine.closeGroup.reached = .ok next) :
    machine.pending.Recounts next.pending [] machine.closeGroup.events := by
  rw [closeGroup_eq] at reached ⊢
  rw [reached_onPending, bind_eq_ok_iff] at reached
  rcases reached with ⟨pending, closed, rest⟩
  cases rest
  exact Pending.recounts_close closed

theorem recounts_readSymbol {symbol : Symbol}
    (reached : (machine.readSymbol symbol).reached = .ok next) :
    machine.pending.Recounts next.pending ([symbol].filter Symbol.isBinary)
      (machine.readSymbol symbol).events := by
  cases symbol with
  | openBracket =>
      rw [readSymbol, openGroup_eq] at reached ⊢
      split at reached
      · cases reached
      · rename_i between
        cases reached
        rw [if_neg between]
        exact Pending.recounts_openBracket _
  | closeBracket =>
      rcases Outcome.exists_of_reached_andThen reached with ⟨middle, madeWay, closed, events⟩
      rw [readSymbol, events]
      exact (recounts_makeWay madeWay).trans (recounts_closeGroup closed)
  | binary operator =>
      rcases Outcome.exists_of_reached_andThen reached with ⟨middle, madeWay, added, events⟩
      rw [readSymbol, events]
      cases added
      exact (recounts_makeWay madeWay).trans (Pending.recounts_binary _ operator)

theorem recounts_readChar {character : Char}
    (reached : (machine.readChar character).reached = .ok next) :
    machine.pending.Recounts next.pending (operatorsOf [character])
      (machine.readChar character).events := by
  rw [readChar] at reached ⊢
  cases written : Symbol.ofChar? character with
  | some symbol =>
      rw [written] at reached
      rw [operatorsOf_singleton written]
      exact recounts_readSymbol reached
  | none =>
      rw [written] at reached
      dsimp only [extendLiteral] at reached ⊢
      split at reached
      · cases reached
        simpa [operatorsOf, written] using .refl _
      · cases reached

theorem recounts_readChars (reached : (machine.readChars text).reached = .ok next) :
    machine.pending.Recounts next.pending (operatorsOf text)
      (machine.readChars text).events := by
  induction text generalizing machine with
  | nil =>
      cases reached
      exact .refl _
  | cons character rest ih =>
      rcases Outcome.exists_of_reached_andThen reached with ⟨middle, first, later, events⟩
      rw [readChars_cons, events, ← List.singleton_append, operatorsOf_append]
      exact (recounts_readChar first).trans (ih later)

theorem recounts_read (reached : (machine.read text).reached = .ok next) :
    machine.pending.Recounts next.pending (operatorsOf text) (machine.read text).events := by
  rcases Outcome.exists_of_reached_andThen reached with ⟨middle, characters, ended, events⟩
  rw [read, events, ← List.append_nil (operatorsOf text)]
  exact (recounts_readChars characters).trans (recounts_endLiteral ended)

end Machine

namespace Statement

variable {settings : Settings} {statement : String} {result : Float}

/-- A statement that has a value is read and concluded by a fresh machine. -/
theorem recounts_run (accepted : value settings statement = .ok result) :
    Pending.Recounts .empty ⟨[result], (run settings statement).state.pending.operators⟩
        (operatorsOf (strip statement)) (log settings statement) ∧
      (settings.reduction = .eager →
        discards (log settings statement) = 0 ∧
          (run settings statement).state.pending.operators = []) := by
  rw [log]
  rw [value, run] at *
  cases prepared : prepare settings.tolerance statement with
  | error cause =>
      rw [prepared] at accepted
      cases accepted
  | ok text =>
      cases eq_strip_of_prepare prepared
      rw [prepared] at accepted
      dsimp only at accepted ⊢
      rcases Outcome.exists_of_result_andThen accepted with
        ⟨machine, read, concluded, events, state⟩
      have tallies := Machine.tallies_read read
      have last := Pending.recounts_conclude machine.pending concluded
      rw [events, state, ← List.append_nil (operatorsOf _)]
      refine ⟨(Machine.recounts_read read).trans last.1, ?_⟩
      intro eager
      rw [discards_append, tallies.eager eager]
      have reduction : machine.settings.reduction = .eager := by
        rw [tallies.settings]
        exact eager
      refine ⟨?_, last.2 reduction⟩
      have none := Pending.discards_conclude_eager machine.pending
      rw [← reduction] at none
      exact (Nat.zero_add _).trans none

/-- Every push and every operation of a statement with a value is in its log. -/
theorem log_recounts (accepted : value settings statement = .ok result) :
    replay? (log settings statement) [] = some [result] ∧
    (log settings statement).countP Event.isPush =
      (combinedSymbols (log settings statement)).length + 1 ∧
    (operatorsOf (strip statement)).Perm
      (combinedSymbols (log settings statement) ++ discardedSymbols (log settings statement) ++
        (run settings statement).state.pending.operators.filter Symbol.isBinary) ∧
    (settings.reduction = .eager →
      discardedSymbols (log settings statement) = [] ∧
      (run settings statement).state.pending.operators = [] ∧
      (log settings statement).countP Event.isPush =
        (operatorsOf (strip statement)).length + 1) := by
  rcases recounts_run accepted with ⟨recounts, eagerly⟩
  have pushes := length_of_replay? recounts.replays
  have perm := recounts.perm_operatorsOf
  rw [Pending.empty, List.length_nil, List.length_singleton] at pushes
  refine ⟨recounts.replays, by omega, perm, ?_⟩
  intro eager
  rcases eagerly eager with ⟨undiscarded, exhausted⟩
  have none : discardedSymbols (log settings statement) = [] := by
    rw [← List.length_eq_zero_iff, length_discardedSymbols, undiscarded]
  refine ⟨none, exhausted, ?_⟩
  have all := perm.length_eq
  rw [none, exhausted, List.filter_nil, List.append_nil, List.append_nil] at all
  omega

/-- The product is logged as combined and the sum as discarded. -/
theorem log_recounts_discarded :
    let settings : Settings := { Settings.standard with reduction := .single }
    value settings "2+3*)(" = .ok 6.0 ∧
      discardedSymbols (log settings "2+3*)(") = [.binary .add] ∧
      replay? (log settings "2+3*)(") [] = some [6.0] ∧
      (operatorsOf (strip "2+3*)(")).Perm
        (combinedSymbols (log settings "2+3*)(") ++ discardedSymbols (log settings "2+3*)(") ++
          (run settings "2+3*)(").state.pending.operators.filter Symbol.isBinary) := by
  intro settings
  have accepted : value settings "2+3*)(" = .ok 6.0 := by decide +kernel
  rcases log_recounts accepted with ⟨replays, _, accounts, _⟩
  exact ⟨accepted, by decide +kernel, replays, accounts⟩

end Statement

end Reckon
