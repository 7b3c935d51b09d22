import Reckon.Proofs.Admissible

/-!
# Sessions

One machine may read and conclude several texts in turn.  Under eager reduction a conclusion
that succeeds uses up every operand and every symbol, and reading to the end uses up the literal
under way.  So nothing is left of a text that has a value, and the next one is read as by a
machine that has read nothing.
-/

namespace Reckon

namespace Pending

variable {pending next : Pending} {operators : List Symbol} {operands : List Float} {value : Float}

theorem operators_of_combineAll
    (combined : (combineAll operators operands).reached = .ok next) : next.operators = [] := by
  induction operators generalizing operands with
  | nil =>
      cases combined
      rfl
  | cons top below ih =>
      rw [reached_combineAll_cons, bind_eq_ok_iff] at combined
      rcases combined with ⟨middle, _, later⟩
      exact ih later

/-- An eager conclusion with a value leaves nothing pending. -/
theorem state_of_conclude (concluded : (pending.conclude .eager).result = .ok value) :
    (pending.conclude .eager).state = .empty := by
  rcases Outcome.exists_of_result_andThen concluded with ⟨rest, combined, taken, _, state⟩
  have only := takeOnly_eq_ok_iff.mp taken
  have none := operators_of_combineAll combined
  rw [conclude, state]
  rcases rest with ⟨operands, operators⟩
  dsimp only at only none
  subst only none
  rfl

end Pending

namespace Machine

variable {machine : Machine} {settings : Settings} {text : List Char} {value : Float}

/-- Reads a text to its end and concludes it. -/
def calculate (text : List Char) (machine : Machine) : Outcome Machine Float :=
  (machine.read text).andThen fun _ machine => machine.conclude

/-- Calculates texts one after the other with the same machine, up to the first that fails. -/
def session : (texts : List (List Char)) → Machine → Outcome Machine (List Float)
  | [], machine => .done [] machine
  | text :: rest, machine =>
      (machine.calculate text).andThen fun value machine =>
        (machine.session rest).andThen fun values machine => .done (value :: values) machine

/-- Whatever was pending before, nothing is pending after a text that has a value. -/
theorem state_of_calculate (eager : machine.settings.reduction = .eager)
    (succeeded : (machine.calculate text).result = .ok value) :
    (machine.calculate text).state =
      { machine with pending := .empty, draft := machine.draft.clear } := by
  rcases Outcome.exists_of_result_andThen succeeded with ⟨middle, reached, concluded, _, state⟩
  rw [reached_read, bind_eq_ok_iff] at reached
  rcases reached with ⟨pending, _, rest⟩
  cases rest
  rw [calculate, state, conclude, onPending]
  rw [conclude, onPending] at concluded
  dsimp only [Outcome.within] at concluded ⊢
  rw [eager] at concluded ⊢
  rw [Pending.state_of_conclude concluded]

theorem state_of_calculate_fresh (eager : settings.reduction = .eager)
    (succeeded : ((fresh settings).calculate text).result = .ok value) :
    ((fresh settings).calculate text).state = fresh settings :=
  state_of_calculate eager succeeded

theorem result_session_cons (text : List Char) (rest : List (List Char)) (machine : Machine) :
    (machine.session (text :: rest)).result =
      (machine.calculate text).result.bind fun value =>
        ((machine.calculate text).state.session rest).result.bind fun values =>
          .ok (value :: values) := by
  rw [session, Outcome.result_andThen_eq_bind]
  simp only [Outcome.result_andThen_eq_bind, Outcome.result_done]

/-- A session goes on with the machine that its first text left. -/
theorem state_session_cons {rest : List (List Char)} {values : List Float}
    (succeeded : (machine.session (text :: rest)).result = .ok values) :
    ∃ value later, (machine.calculate text).result = .ok value ∧
      ((machine.calculate text).state.session rest).result = .ok later ∧
      (machine.session (text :: rest)).state =
        ((machine.calculate text).state.session rest).state := by
  rw [result_session_cons, bind_eq_ok_iff] at succeeded
  rcases succeeded with ⟨value, calculated, succeeded⟩
  rw [bind_eq_ok_iff] at succeeded
  rcases succeeded with ⟨later, sessionLater, _⟩
  refine ⟨value, later, calculated, sessionLater, ?_⟩
  rw [session, (Outcome.andThen_ok calculated _).2, (Outcome.andThen_ok sessionLater _).2]
  rfl

/-- A session that succeeded leaves its machine as it was made. -/
theorem state_session (eager : settings.reduction = .eager) {texts : List (List Char)}
    {values : List Float} (succeeded : ((fresh settings).session texts).result = .ok values) :
    ((fresh settings).session texts).state = fresh settings := by
  induction texts generalizing values with
  | nil => rfl
  | cons text rest ih =>
      rcases state_session_cons succeeded with ⟨value, later, calculated, sessionLater, state⟩
      rw [state_of_calculate_fresh eager calculated] at sessionLater state
      exact state.trans (ih sessionLater)

/-- The results of a session are those of machines made for each text. -/
theorem result_session (eager : settings.reduction = .eager) (texts : List (List Char)) :
    ((fresh settings).session texts).result =
      texts.mapM fun text => ((fresh settings).calculate text).result := by
  induction texts with
  | nil => rfl
  | cons text rest ih =>
      rw [List.mapM_cons, result_session_cons, ← ih]
      cases calculated : ((fresh settings).calculate text).result with
      | error cause => rfl
      | ok value =>
          rw [state_of_calculate_fresh eager calculated]
          rfl

/-- Under eager reduction one machine serves for any texts.  As long as they have values it is
left with nothing pending and no literal under way, and it reads and concludes the next text as
a machine does that was made for it, down to the log and to what a failure leaves behind. -/
theorem session_as_fresh (eager : settings.reduction = .eager) :
    (∀ texts, ((fresh settings).session texts).result =
      texts.mapM fun text => ((fresh settings).calculate text).result) ∧
    ∀ earlier values, ((fresh settings).session earlier).result = .ok values →
      let machine := ((fresh settings).session earlier).state
      machine.pending.operands = [] ∧ machine.pending.operators = [] ∧
        machine.draft.text = [] ∧
        ∀ text, machine.read text = (fresh settings).read text ∧
          (machine.read text).state.conclude = ((fresh settings).read text).state.conclude := by
  refine ⟨result_session eager, fun earlier values succeeded => ?_⟩
  rw [state_session eager succeeded]
  exact ⟨rfl, rfl, rfl, fun _ => ⟨rfl, rfl⟩⟩

/-- Also texts that are no phrases leave nothing behind, if they have values. -/
theorem session_of_odd_texts :
    let texts := ["1+(2+)3".toList, "()4".toList]
    let machine := ((fresh .standard).session texts).state
    ((fresh .standard).session texts).result = .ok [6.0, 4.0] ∧
      machine.pending.operands = [] ∧ machine.pending.operators = [] ∧ machine.draft.text = [] ∧
      (machine.read "5)-1".toList).result = .error .noOperator := by
  intro texts machine
  have succeeded : ((fresh .standard).session texts).result = .ok [6.0, 4.0] := by
    decide +kernel
  have failed : ((fresh .standard).read "5)-1".toList).result = .error .noOperator := by
    decide +kernel
  rcases (@session_as_fresh .standard rfl).2 texts _ succeeded with
    ⟨noOperands, noOperators, noLiteral, alike⟩
  refine ⟨succeeded, noOperands, noOperators, noLiteral, ?_⟩
  exact (congrArg Outcome.result (alike "5)-1".toList).1).trans failed

end Machine

end Reckon
