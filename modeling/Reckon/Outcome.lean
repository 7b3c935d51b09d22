import Reckon.Event

/-!
# Outcomes that keep their state

A part of an evaluation may fail half way.  What it changed until then stays
changed, so an outcome holds the state that is left behind in both cases, and
the events of the part that was carried out.
-/

namespace Reckon

/-- How a part of an evaluation ended, the state it left behind, and its
events. -/
@[ext] structure Outcome (State Value : Type) where
  result : Except Rejection Value
  state : State
  events : List Event

namespace Outcome

variable {State Other Value Result Final : Type}

/-- Success without events. -/
def done (value : Value) (state : State) : Outcome State Value :=
  ⟨.ok value, state, []⟩

/-- Success with one event. -/
def logged (event : Event) (state : State) : Outcome State Unit :=
  ⟨.ok (), state, [event]⟩

/-- Failure without events. -/
def fail (cause : Rejection) (state : State) : Outcome State Value :=
  ⟨.error cause, state, []⟩

/-- Goes on after a success; a failure ends the evaluation with the state it
left behind. -/
def andThen (first : Outcome State Value)
    (next : Value → State → Outcome State Result) : Outcome State Result :=
  match first.result with
  | .ok value =>
      let second := next value first.state
      ⟨second.result, second.state, first.events ++ second.events⟩
  | .error cause => ⟨.error cause, first.state, first.events⟩

/-- The same outcome seen as that of a larger state. -/
def within (embed : State → Other) (outcome : Outcome State Value) :
    Outcome Other Value :=
  ⟨outcome.result, embed outcome.state, outcome.events⟩

@[simp] theorem done_andThen (value : Value) (state : State)
    (next : Value → State → Outcome State Result) :
    (done value state).andThen next = next value state := rfl

@[simp] theorem fail_andThen (cause : Rejection) (state : State)
    (next : Value → State → Outcome State Result) :
    (fail cause state).andThen next = fail cause state := rfl

@[simp] theorem andThen_done (outcome : Outcome State Value) :
    outcome.andThen done = outcome := by
  rcases outcome with ⟨_ | _, state, events⟩ <;> simp [andThen, done]

theorem andThen_assoc (outcome : Outcome State Value)
    (next : Value → State → Outcome State Result)
    (last : Result → State → Outcome State Final) :
    (outcome.andThen next).andThen last =
      outcome.andThen fun value state => (next value state).andThen last := by
  rcases outcome with ⟨cause | value, state, events⟩
  · rfl
  · rcases following : next value state with ⟨_ | _, _, _⟩ <;>
      simp [andThen, following, List.append_assoc]

@[simp] theorem within_done (embed : State → Other) (value : Value) (state : State) :
    (done value state).within embed = done value (embed state) := rfl

@[simp] theorem within_fail (embed : State → Other) (cause : Rejection)
    (state : State) :
    ((fail cause state : Outcome State Value)).within embed =
      fail cause (embed state) := rfl

/-- A success takes its value and its state from the part that went on. -/
theorem andThen_ok {first : Outcome State Value} {value : Value}
    (succeeded : first.result = .ok value)
    (next : Value → State → Outcome State Result) :
    (first.andThen next).result = (next value first.state).result ∧
      (first.andThen next).state = (next value first.state).state := by
  simp [andThen, succeeded]

end Outcome

end Reckon
