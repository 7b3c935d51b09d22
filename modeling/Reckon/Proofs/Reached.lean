import Reckon.Machine

/-!
# The states that successes lead to

An outcome keeps its state also when it failed, and its log.  Where only the
states behind successes matter, an outcome is the rejection or the state
reached, and going on after a part is `Except.bind`.
-/

namespace Reckon

section Results

variable {ε α β γ : Type}

@[simp] theorem ok_bind (value : α) (next : α → Except ε β) :
    (Except.ok value).bind next = next value := rfl

@[simp] theorem error_bind (cause : ε) (next : α → Except ε β) :
    (Except.error cause).bind next = .error cause := rfl

theorem bind_assoc (first : Except ε α) (next : α → Except ε β)
    (last : β → Except ε γ) :
    (first.bind next).bind last =
      first.bind fun value => (next value).bind last := by
  cases first with
  | ok value => rfl
  | error cause => rfl

@[simp] theorem bind_ok (first : Except ε α) : first.bind .ok = first := by
  cases first with
  | ok value => rfl
  | error cause => rfl

theorem bind_eq_ok_iff {first : Except ε α} {next : α → Except ε β} {result : β} :
    first.bind next = .ok result ↔
      ∃ value, first = .ok value ∧ next value = .ok result := by
  cases first with
  | ok value => simp
  | error cause => simp

theorem bind_eq_error_iff {first : Except ε α} {next : α → Except ε β} {cause : ε} :
    first.bind next = .error cause ↔
      first = .error cause ∨ ∃ value, first = .ok value ∧ next value = .error cause := by
  cases first with
  | ok value => simp
  | error other => simp

@[simp] theorem toOption_ok (value : α) :
    (Except.ok value : Except ε α).toOption = some value := rfl

@[simp] theorem toOption_error (cause : ε) :
    (Except.error cause : Except ε α).toOption = none := rfl

@[simp] theorem toOption_bind (first : Except ε α) (next : α → Except ε β) :
    (first.bind next).toOption =
      first.toOption.bind fun value => (next value).toOption := by
  cases first with
  | ok value => rfl
  | error cause => rfl

theorem toOption_eq_some_iff {first : Except ε α} {value : α} :
    first.toOption = some value ↔ first = .ok value := by
  cases first with
  | ok other => simp
  | error cause => simp

/-- Two results that are the same unless the first is a rejection for one of some causes. -/
def AgreesUnless (excused : ε → Prop) (first second : Except ε α) : Prop :=
  second = first ∨ ∃ cause, first = .error cause ∧ excused cause

theorem AgreesUnless.refl (excused : ε → Prop) (result : Except ε α) :
    AgreesUnless excused result result :=
  .inl rfl

/-- Results that agree still do so after going on in ways that agree. -/
theorem AgreesUnless.bind {excused : ε → Prop} {first second : Except ε α}
    {next other : α → Except ε β} (agrees : AgreesUnless excused first second)
    (later : ∀ value, AgreesUnless excused (next value) (other value)) :
    AgreesUnless excused (first.bind next) (second.bind other) := by
  rcases agrees with same | ⟨cause, rejected, isExcused⟩
  · subst same
    cases second with
    | error cause => exact .refl excused _
    | ok value => exact later value
  · subst rejected
    exact .inr ⟨cause, rfl, isExcused⟩

end Results

namespace Outcome

variable {State Other Value Result : Type}

/-- The state that a success leads to. -/
def reached (outcome : Outcome State Unit) : Except Rejection State :=
  outcome.result.bind fun _ => .ok outcome.state

@[simp] theorem reached_done (state : State) :
    (done () state).reached = .ok state := rfl

@[simp] theorem reached_logged (event : Event) (state : State) :
    (logged event state).reached = .ok state := rfl

@[simp] theorem reached_fail (cause : Rejection) (state : State) :
    (fail cause state : Outcome State Unit).reached = .error cause := rfl

@[simp] theorem result_fail (cause : Rejection) (state : State) :
    (fail cause state : Outcome State Value).result = .error cause := rfl

@[simp] theorem result_done (value : Value) (state : State) :
    (done value state).result = .ok value := rfl

theorem result_andThen (first : Outcome State Unit)
    (next : Unit → State → Outcome State Value) :
    (first.andThen next).result =
      first.reached.bind fun state => (next () state).result := by
  rcases first with ⟨cause | ⟨⟩, state, events⟩ <;> rfl

/-- The result of two parts, of which the second starts where the first one ended. -/
theorem result_andThen_eq_bind {Final : Type} (first : Outcome State Value)
    (next : Value → State → Outcome State Final) :
    (first.andThen next).result =
      first.result.bind fun value => (next value first.state).result := by
  rcases first with ⟨cause | value, state, events⟩ <;> rfl

theorem reached_andThen (first : Outcome State Unit)
    (next : Unit → State → Outcome State Unit) :
    (first.andThen next).reached =
      first.reached.bind fun state => (next () state).reached := by
  rcases first with ⟨cause | ⟨⟩, state, events⟩ <;> rfl

/-- A success of two parts is one of each, and their events follow each other. -/
theorem exists_of_reached_andThen {first : Outcome State Unit}
    {next : Unit → State → Outcome State Unit} {final : State}
    (reached : (first.andThen next).reached = .ok final) :
    ∃ middle, first.reached = .ok middle ∧ (next () middle).reached = .ok final ∧
      (first.andThen next).events = first.events ++ (next () middle).events := by
  rcases first with ⟨cause | ⟨⟩, state, events⟩
  · cases reached
  · exact ⟨state, rfl, reached, rfl⟩

/-- The same for a second part that gives a value. -/
theorem exists_of_result_andThen {first : Outcome State Unit}
    {next : Unit → State → Outcome State Value} {value : Value}
    (succeeded : (first.andThen next).result = .ok value) :
    ∃ middle, first.reached = .ok middle ∧ (next () middle).result = .ok value ∧
      (first.andThen next).events = first.events ++ (next () middle).events ∧
      (first.andThen next).state = (next () middle).state := by
  rcases first with ⟨cause | ⟨⟩, state, events⟩
  · cases succeeded
  · exact ⟨state, rfl, succeeded, rfl, rfl⟩

/-- A failure of two parts is one of the first, or one of the second after a success. -/
theorem exists_of_andThen_error {first : Outcome State Unit}
    {next : Unit → State → Outcome State Value} {cause : Rejection}
    (failed : (first.andThen next).result = .error cause) :
    (first.result = .error cause ∧ (first.andThen next).state = first.state) ∨
      ∃ middle, first.reached = .ok middle ∧ (next () middle).result = .error cause ∧
        (first.andThen next).state = (next () middle).state := by
  rcases first with ⟨other | ⟨⟩, state, events⟩
  · cases failed
    exact .inl ⟨rfl, rfl⟩
  · exact .inr ⟨state, rfl, failed, rfl⟩

/-- What holds of the events of both parts holds of all events. -/
theorem forall_events_andThen {holds : Event → Prop} {first : Outcome State Value}
    {next : Value → State → Outcome State Result} (earlier : ∀ event ∈ first.events, holds event)
    (later : ∀ value state, ∀ event ∈ (next value state).events, holds event) :
    ∀ event ∈ (first.andThen next).events, holds event := by
  rcases first with ⟨cause | value, state, events⟩
  · exact earlier
  · intro event member
    rcases List.mem_append.mp member with member | member
    · exact earlier event member
    · exact later value state event member

theorem reached_within (embed : State → Other) (outcome : Outcome State Unit) :
    (outcome.within embed).reached =
      outcome.reached.bind fun state => .ok (embed state) := by
  rcases outcome with ⟨cause | ⟨⟩, state, events⟩ <;> rfl

theorem reached_eq_ok_iff {outcome : Outcome State Unit} {state : State} :
    outcome.reached = .ok state ↔ outcome.result = .ok () ∧ outcome.state = state := by
  rcases outcome with ⟨cause | ⟨⟩, other, events⟩ <;> simp [reached]

end Outcome

namespace Pending

variable {incoming top : Symbol} {operands : List Float} {operators below : List Symbol}

theorem reached_combine (symbol : Symbol) (right left : Float)
    (rest : List Float) (operators : List Symbol) :
    (combine symbol ⟨right :: left :: rest, operators⟩).reached =
      (symbol.apply left right).bind fun result =>
        .ok ⟨result :: rest, operators⟩ := by
  cases applied : symbol.apply left right with
  | ok result =>
      rw [combine_eq_logged applied]
      rfl
  | error cause => simp [combine, applied]

/-- A success replaces two operands by the result of a binary operator. -/
theorem combine_cases {symbol : Symbol} {next : Pending}
    (combined : (combine symbol ⟨operands, operators⟩).reached = .ok next) :
    ∃ operator left right rest result, symbol = .binary operator ∧
      operands = right :: left :: rest ∧
      operator.apply left right = .ok result ∧
      next = ⟨result :: rest, operators⟩ := by
  match operands with
  | [] | [_] => simp [combine] at combined
  | right :: left :: rest =>
      rw [reached_combine, bind_eq_ok_iff] at combined
      rcases combined with ⟨result, applied, reached⟩
      cases reached
      cases symbol with
      | binary operator =>
          exact ⟨operator, left, right, rest, result, rfl, rfl, applied, rfl⟩
      | openBracket => cases applied
      | closeBracket => cases applied

theorem giveWayFrom_of_waitsFor (waits : top.waitsFor incoming = true)
    (reduction : Reduction) :
    giveWayFrom reduction incoming (top :: below) operands =
      .done () ⟨operands, top :: below⟩ := by
  rw [giveWayFrom, if_pos waits]

theorem reached_giveWayFrom_eager (yields : top.waitsFor incoming = false) :
    (giveWayFrom .eager incoming (top :: below) operands).reached =
      (combine top ⟨operands, below⟩).reached.bind fun next =>
        (giveWayFrom .eager incoming below next.operands).reached := by
  rw [giveWayFrom, if_neg (by simp [yields]), Outcome.reached_andThen]

theorem reached_giveWayFrom_single (yields : top.waitsFor incoming = false) :
    (giveWayFrom .single incoming (top :: below) operands).reached =
      (combine top ⟨operands, below⟩).reached := by
  rw [giveWayFrom, if_neg (by simp [yields]), Outcome.reached_andThen]
  exact bind_ok _

/-- Nothing gives way if the topmost symbol waits. -/
theorem giveWay_of_waitsFor
    (waits : ∀ top ∈ operators.head?, top.waitsFor incoming = true)
    (reduction : Reduction) (operands : List Float) :
    giveWay reduction incoming ⟨operands, operators⟩ = .done () ⟨operands, operators⟩ := by
  cases operators with
  | nil => rfl
  | cons top below => exact giveWayFrom_of_waitsFor (waits top rfl) reduction

theorem reached_combineAll_cons :
    (combineAll (top :: below) operands).reached =
      (combine top ⟨operands, below⟩).reached.bind fun next =>
        (combineAll below next.operands).reached := by
  rw [combineAll, Outcome.reached_andThen]

/-- The first state becomes the second by combining pending operators that do not
wait for the incoming symbol, topmost first. -/
inductive GivesWay (incoming : Symbol) : (pending next : Pending) → Prop where
  | stop (pending : Pending) : GivesWay incoming pending pending
  | combine {operator : Operator} {left right result : Float} {rest : List Float}
      {below : List Symbol} {next : Pending} :
      (Symbol.binary operator).waitsFor incoming = false →
      operator.apply left right = .ok result →
      GivesWay incoming ⟨result :: rest, below⟩ next →
      GivesWay incoming ⟨right :: left :: rest, .binary operator :: below⟩ next

theorem reached_giveWay_eq_ok_iff {pending next : Pending} :
    (giveWay .eager incoming pending).reached = .ok next ↔
      GivesWay incoming pending next ∧
        ∀ top ∈ next.operators.head?, top.waitsFor incoming = true := by
  constructor
  · rcases pending with ⟨operands, operators⟩
    rw [giveWay]
    intro gaveWay
    induction operators generalizing operands with
    | nil =>
        cases gaveWay
        refine ⟨.stop _, ?_⟩
        intro top none
        cases none
    | cons top below ih =>
        dsimp only at gaveWay ih
        cases waits : top.waitsFor incoming with
        | true =>
            rw [giveWayFrom_of_waitsFor waits] at gaveWay
            cases gaveWay
            refine ⟨.stop _, ?_⟩
            intro other isTop
            cases isTop
            exact waits
        | false =>
            rw [reached_giveWayFrom_eager waits, bind_eq_ok_iff] at gaveWay
            rcases gaveWay with ⟨middle, combined, gaveWay⟩
            rcases combine_cases combined with
              ⟨operator, left, right, rest, result, rfl, rfl, applied, rfl⟩
            have later := ih (result :: rest) gaveWay
            exact ⟨.combine waits applied later.1, later.2⟩
  · intro gaveWay
    rcases gaveWay with ⟨gaveWay, stops⟩
    induction gaveWay with
    | stop pending =>
        rcases pending with ⟨operands, _ | ⟨top, below⟩⟩
        · rfl
        · rw [giveWay, giveWayFrom_of_waitsFor (stops top rfl), Outcome.reached_done]
    | combine yields applied _ ih =>
        rw [giveWay, reached_giveWayFrom_eager yields, reached_combine, Symbol.apply,
          applied, ok_bind, ok_bind]
        exact ih stops

/-- With either reduction, symbols give way by being combined. -/
theorem givesWay_of_giveWay {reduction : Reduction} {pending next : Pending}
    (gaveWay : (pending.giveWay reduction incoming).reached = .ok next) :
    GivesWay incoming pending next := by
  cases reduction with
  | eager => exact (reached_giveWay_eq_ok_iff.mp gaveWay).1
  | single =>
      rcases pending with ⟨operands, _ | ⟨top, below⟩⟩
      · cases gaveWay
        exact .stop _
      · rw [giveWay] at gaveWay
        cases waits : top.waitsFor incoming with
        | true =>
            rw [giveWayFrom_of_waitsFor waits] at gaveWay
            cases gaveWay
            exact .stop _
        | false =>
            rw [reached_giveWayFrom_single waits] at gaveWay
            rcases combine_cases gaveWay with
              ⟨operator, left, right, rest, result, rfl, rfl, applied, rfl⟩
            exact .combine waits applied (.stop _)

/-- At the end, every pending operator gives way as if to a closing bracket. -/
theorem givesWay_of_combineAll {next : Pending}
    (combined : (combineAll operators operands).reached = .ok next) :
    GivesWay .closeBracket ⟨operands, operators⟩ ⟨next.operands, []⟩ := by
  induction operators generalizing operands with
  | nil =>
      cases combined
      exact .stop _
  | cons top below ih =>
      rw [reached_combineAll_cons, bind_eq_ok_iff] at combined
      rcases combined with ⟨middle, first, combined⟩
      rcases combine_cases first with
        ⟨operator, left, right, rest, result, rfl, rfl, applied, rfl⟩
      exact .combine (Symbol.binary_waitsFor_closeBracket operator) applied (ih combined)

theorem reached_combineToOne_cons (right left : Float) (rest : List Float) :
    (combineToOne (top :: below) (right :: left :: rest)).reached =
      (combine top ⟨right :: left :: rest, below⟩).reached.bind fun next =>
        (combineToOne below next.operands).reached := by
  rw [combineToOne, Outcome.reached_andThen]
  simp

theorem result_conclude_single (pending : Pending) :
    (conclude .single pending).result =
      (combineToOne pending.operators pending.operands).reached.bind fun rest =>
        rest.takeOnly.result := by
  rw [conclude, Outcome.result_andThen]

theorem result_conclude_eager (pending : Pending) :
    (conclude .eager pending).result =
      (combineAll pending.operators pending.operands).reached.bind fun rest =>
        rest.takeOnly.result := by
  rw [conclude, Outcome.result_andThen]

theorem takeOnly_eq_ok_iff {pending : Pending} {value : Float} :
    pending.takeOnly.result = .ok value ↔ pending.operands = [value] := by
  rw [takeOnly]
  split <;> rename_i shape
  · simp [shape]
  · simp [shape]
  · simp only [Outcome.result_fail, reduceCtorEq, false_iff]
    intro only
    exact shape _ only

theorem givesWay_of_conclude {pending : Pending} {value : Float}
    (concluded : (conclude .eager pending).result = .ok value) :
    GivesWay .closeBracket pending ⟨[value], []⟩ := by
  rw [result_conclude_eager, bind_eq_ok_iff] at concluded
  rcases concluded with ⟨rest, combined, only⟩
  rw [takeOnly_eq_ok_iff] at only
  exact only ▸ givesWay_of_combineAll combined

end Pending

end Reckon
