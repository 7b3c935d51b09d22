import Mathlib.Data.List.DropRight
import Reckon.Proofs.Reached

/-!
# What is pending at the end

At the end of a statement symbols are taken off the top and combine the operands from the
right.  Both reductions apply the same symbols to the same operands, and what they make of
them is the value of an expression bracketed to the right.  They differ in what they do when
the symbols and the operands are not used up together.
-/

namespace Reckon

/-- A symbol with the two operands that it is applied to. -/
structure Application where
  left : Float
  symbol : Symbol
  right : Float

namespace Application

/-- What an application gives. -/
def result (application : Application) : Except Rejection Float :=
  application.symbol.apply application.left application.right

/-- The entry for an application in the log, which a failure does not get. -/
def event? (application : Application) : Option Event :=
  application.result.toOption.map
    (.combined application.left application.symbol application.right)

theorem event?_of_ok {left right value : Float} {symbol : Symbol}
    (applied : symbol.apply left right = .ok value) :
    event? ⟨left, symbol, right⟩ = some (.combined left symbol right value) := by
  rw [event?, result, applied]
  rfl

theorem event?_of_error {left right : Float} {symbol : Symbol} {cause : Rejection}
    (failed : symbol.apply left right = .error cause) : event? ⟨left, symbol, right⟩ = none := by
  rw [event?, result, failed]
  rfl

/-- A division fails at zero, and brackets cannot be applied. -/
theorem cause_of_result {application : Application} {cause : Rejection}
    (failed : application.result = .error cause) :
    cause = .divisionByZero ∨ cause = .notBinary '(' ∨ cause = .notBinary ')' := by
  rcases application with ⟨left, symbol, right⟩
  rw [result] at failed
  dsimp only at failed
  cases symbol with
  | binary operator =>
      left
      cases operator with
      | add | subtract | multiply => cases failed
      | divide =>
          rw [Symbol.apply, Operator.apply] at failed
          split at failed
          · cases failed
            rfl
          · cases failed
  | openBracket =>
      cases failed
      exact .inr (.inl rfl)
  | closeBracket =>
      cases failed
      exact .inr (.inr rfl)

end Application

/-! ## Expressions bracketed to the right -/

section Chain

variable {chain : List (Float × Symbol)} {left last : Float} {symbol : Symbol}

/-- The value of `x₁ o₁ (x₂ o₂ (… last))`, where the chain is `x₁ o₁ x₂ o₂ …`. -/
def rightNested : (chain : List (Float × Symbol)) → (last : Float) → Except Rejection Float
  | [], last => .ok last
  | (left, symbol) :: chain, last => (rightNested chain last).bind (symbol.apply left)

/-- The applications on the way to that value, in their order, up to the first that fails. -/
def applications : (chain : List (Float × Symbol)) → (last : Float) → List Application
  | [], _ => []
  | (left, symbol) :: chain, last =>
      applications chain last ++ (rightNested chain last).toOption.toList.map (⟨left, symbol, ·⟩)

/-- The innermost application comes first. -/
theorem rightNested_concat (chain : List (Float × Symbol)) (left : Float) (symbol : Symbol)
    (last : Float) :
    rightNested (chain ++ [(left, symbol)]) last =
      (symbol.apply left last).bind (rightNested chain) := by
  induction chain with
  | nil => exact (bind_ok _).symm
  | cons first chain ih =>
      rw [List.cons_append, rightNested, ih, bind_assoc]
      rfl

theorem applications_concat_of_ok {value : Float} (applied : symbol.apply left last = .ok value) :
    applications (chain ++ [(left, symbol)]) last =
      ⟨left, symbol, last⟩ :: applications chain value := by
  induction chain with
  | nil => rfl
  | cons first chain ih =>
      rw [List.cons_append, applications, ih, rightNested_concat, applied]
      rfl

theorem applications_concat_of_error {cause : Rejection}
    (failed : symbol.apply left last = .error cause) :
    applications (chain ++ [(left, symbol)]) last = [⟨left, symbol, last⟩] := by
  induction chain with
  | nil => rfl
  | cons first chain ih =>
      rw [List.cons_append, applications, ih, rightNested_concat, failed]
      rfl

theorem length_applications_le (chain : List (Float × Symbol)) (last : Float) :
    (applications chain last).length ≤ chain.length := by
  induction chain with
  | nil => exact le_rfl
  | cons first chain ih =>
      rw [applications, List.length_append, List.length_map, List.length_cons]
      exact Nat.add_le_add ih (Option.length_toList_le)

/-- The symbols are applied from the last one on. -/
theorem symbols_applications_isPrefix (chain : List (Float × Symbol)) (last : Float) :
    (applications chain last).map Application.symbol <+: (chain.map Prod.snd).reverse := by
  induction chain using List.reverseRecOn generalizing last with
  | nil => exact List.nil_prefix
  | append_singleton chain first ih =>
      rcases first with ⟨left, symbol⟩
      rw [List.map_append, List.reverse_append]
      cases applied : symbol.apply left last with
      | ok value =>
          rw [applications_concat_of_ok applied]
          exact List.prefix_cons_inj _ |>.mpr (ih value)
      | error cause =>
          rw [applications_concat_of_error applied]
          exact List.prefix_cons_inj _ |>.mpr List.nil_prefix

/-- If there is a value, no application failed. -/
theorem applications_of_rightNested_eq_ok {value : Float}
    (nested : rightNested chain last = .ok value) :
    (applications chain last).length = chain.length ∧
      ∀ application ∈ applications chain last, application.result.isOk := by
  induction chain using List.reverseRecOn generalizing last with
  | nil => simp [applications]
  | append_singleton chain first ih =>
      rcases first with ⟨left, symbol⟩
      rw [rightNested_concat, bind_eq_ok_iff] at nested
      rcases nested with ⟨middle, applied, nested⟩
      rw [applications_concat_of_ok applied, List.length_cons, List.length_append,
        (ih nested).1, List.forall_mem_cons, Application.result, applied]
      exact ⟨rfl, rfl, (ih nested).2⟩

/-- If there is none, the last application failed, and no other one. -/
theorem applications_of_rightNested_eq_error {cause : Rejection}
    (failed : rightNested chain last = .error cause) :
    ∃ earlier application, applications chain last = earlier ++ [application] ∧
      (∀ other ∈ earlier, other.result.isOk) ∧ application.result = .error cause := by
  induction chain using List.reverseRecOn generalizing last with
  | nil => cases failed
  | append_singleton chain first ih =>
      rcases first with ⟨left, symbol⟩
      rw [rightNested_concat, bind_eq_error_iff] at failed
      rcases failed with failed | ⟨middle, applied, failed⟩
      · exact ⟨[], ⟨left, symbol, last⟩, applications_concat_of_error failed, by simp, failed⟩
      · rcases ih failed with ⟨earlier, application, split, succeeded, failed⟩
        refine ⟨⟨left, symbol, last⟩ :: earlier, application, ?_, ?_, failed⟩
        · rw [applications_concat_of_ok applied, split]
          rfl
        · rw [List.forall_mem_cons, Application.result, applied]
          exact ⟨rfl, succeeded⟩

end Chain

namespace Pending

variable {operands rest : List Float} {symbols : List Symbol} {last : Float}

/-! ## Combining step by step -/

/-- A part of an evaluation that goes on after combining the topmost symbol, as long as there
are two operands for it. -/
def Unrolls (part : List Symbol → List Float → Outcome Pending Unit) : Prop :=
  ∀ top below right left rest,
    part (top :: below) (right :: left :: rest) =
      (combine top ⟨right :: left :: rest, below⟩).andThen fun _ next =>
        part below next.operands

theorem unrolls_combineAll : Unrolls combineAll := by
  intro top below right left rest
  rw [combineAll]

theorem unrolls_combineToOne : Unrolls combineToOne := by
  intro top below right left rest
  rw [combineToOne]
  simp

theorem combine_eq_fail {symbol : Symbol} {left right : Float} {cause : Rejection}
    (failed : symbol.apply left right = .error cause) (rest : List Float)
    (operators : List Symbol) :
    combine symbol ⟨right :: left :: rest, operators⟩ = .fail cause ⟨rest, operators⟩ := by
  simp [combine, failed]

variable {part : List Symbol → List Float → Outcome Pending Unit}

/-- The symbols that are used up together with the operands combine them from the right. -/
theorem Unrolls.reached (unrolls : Unrolls part) (symbols : List Symbol) (last : Float)
    (rest : List Float) :
    (part symbols (last :: rest)).reached =
      (rightNested (rest.zip symbols).reverse last).bind fun value =>
        (part (symbols.drop rest.length) (value :: rest.drop symbols.length)).reached := by
  induction symbols generalizing last rest with
  | nil => simp [rightNested]
  | cons top below ih =>
      cases rest with
      | nil => simp [rightNested]
      | cons left rest =>
          rw [unrolls, Outcome.reached_andThen, reached_combine, List.zip_cons_cons,
            List.reverse_cons, rightNested_concat, bind_assoc, bind_assoc]
          congr 1
          funext value
          exact ih value rest

theorem Unrolls.events (unrolls : Unrolls part) (symbols : List Symbol) (last : Float)
    (rest : List Float) :
    (part symbols (last :: rest)).events =
      (applications (rest.zip symbols).reverse last).filterMap Application.event? ++
        match rightNested (rest.zip symbols).reverse last with
        | .ok value => (part (symbols.drop rest.length) (value :: rest.drop symbols.length)).events
        | .error _ => [] := by
  induction symbols generalizing last rest with
  | nil => simp [rightNested, applications]
  | cons top below ih =>
      cases rest with
      | nil => simp [rightNested, applications]
      | cons left rest =>
          rw [unrolls, List.zip_cons_cons, List.reverse_cons, rightNested_concat]
          cases applied : top.apply left last with
          | ok value =>
              rw [combine_eq_logged applied, applications_concat_of_ok applied, ok_bind,
                List.filterMap_cons_some (Application.event?_of_ok applied), List.cons_append]
              exact congrArg _ (ih value rest)
          | error cause =>
              rw [combine_eq_fail applied, applications_concat_of_error applied,
                List.filterMap_cons_none (Application.event?_of_error applied)]
              rfl

/-! ## What is left over -/

/-- Symbols that are left over find no second operand. -/
theorem combineAll_rest (symbols : List Symbol) (value : Float) (rest : List Float) :
    combineAll (symbols.drop rest.length) (value :: rest.drop symbols.length) =
      if symbols.length ≤ rest.length then .done () ⟨value :: rest.drop symbols.length, []⟩
      else .fail .noOperand ⟨[], symbols.drop (rest.length + 1)⟩ := by
  split <;> rename_i enough
  · rw [List.drop_eq_nil_of_le enough]
    rfl
  · rw [List.drop_eq_nil_of_le (Nat.le_of_not_le enough),
      List.drop_eq_getElem_cons (Nat.lt_of_not_le enough)]
    rfl

/-- Operands that are left over find no symbol. -/
theorem combineToOne_rest (symbols : List Symbol) (value : Float) (rest : List Float) :
    combineToOne (symbols.drop rest.length) (value :: rest.drop symbols.length) =
      if rest.length ≤ symbols.length then .done () ⟨[value], symbols.drop rest.length⟩
      else .fail .noOperator ⟨value :: rest.drop symbols.length, []⟩ := by
  split <;> rename_i enough
  · rw [List.drop_eq_nil_of_le enough]
    cases symbols.drop rest.length <;> rfl
  · rw [List.drop_eq_nil_of_le (Nat.le_of_not_le enough),
      List.drop_eq_getElem_cons (Nat.lt_of_not_le enough)]
    rfl

/-- The part of a conclusion before the value is taken off. -/
def combineBy : Reduction → List Symbol → List Float → Outcome Pending Unit
  | .eager => combineAll
  | .single => combineToOne

theorem conclude_eq (reduction : Reduction) (symbols : List Symbol) (operands : List Float) :
    conclude reduction ⟨operands, symbols⟩ =
      (combineBy reduction symbols operands).andThen fun _ rest => rest.takeOnly := by
  cases reduction <;> rfl

theorem unrolls_combineBy (reduction : Reduction) : Unrolls (combineBy reduction) := by
  cases reduction with
  | eager => exact unrolls_combineAll
  | single => exact unrolls_combineToOne

theorem events_combineBy_rest (reduction : Reduction) (symbols : List Symbol) (value : Float)
    (rest : List Float) :
    (combineBy reduction (symbols.drop rest.length)
      (value :: rest.drop symbols.length)).events = [] := by
  cases reduction with
  | eager =>
      rw [combineBy, combineAll_rest]
      split <;> rfl
  | single =>
      rw [combineBy, combineToOne_rest]
      split <;> rfl

theorem events_combineBy (reduction : Reduction) (symbols : List Symbol) (last : Float)
    (rest : List Float) :
    (combineBy reduction symbols (last :: rest)).events =
      (applications (rest.zip symbols).reverse last).filterMap Application.event? := by
  rw [(unrolls_combineBy reduction).events]
  split
  · rw [events_combineBy_rest, List.append_nil]
  · exact List.append_nil _

theorem events_andThen_takeOnly (combined : Outcome Pending Unit) :
    (combined.andThen fun _ rest => rest.takeOnly).events = combined.events := by
  have unlogged : ∀ pending : Pending, pending.takeOnly.events = [] := by
    intro pending
    rw [takeOnly]
    split <;> rfl
  rw [Outcome.andThen]
  split
  · dsimp only
    rw [unlogged, List.append_nil]
  · rfl

/-! ## Conclusions -/

variable {reduction : Reduction} {value : Float}

/-- The log of a conclusion has the applications that succeeded. -/
theorem events_conclude (reduction : Reduction) (symbols : List Symbol) (last : Float)
    (rest : List Float) :
    (conclude reduction ⟨last :: rest, symbols⟩).events =
      (applications (rest.zip symbols).reverse last).filterMap Application.event? := by
  rw [conclude_eq, events_andThen_takeOnly, events_combineBy]

theorem result_conclude_of_error {cause : Rejection}
    (failed : rightNested (rest.zip symbols).reverse last = .error cause) :
    (conclude reduction ⟨last :: rest, symbols⟩).result = .error cause := by
  rw [conclude_eq, Outcome.result_andThen, (unrolls_combineBy reduction).reached, failed]
  rfl

/-- If no application fails, what is left over decides. -/
theorem reached_combineBy_of_ok (reduction : Reduction)
    (nested : rightNested (rest.zip symbols).reverse last = .ok value) :
    (combineBy reduction symbols (last :: rest)).reached =
      (combineBy reduction (symbols.drop rest.length)
        (value :: rest.drop symbols.length)).reached := by
  rw [(unrolls_combineBy reduction).reached, nested, ok_bind]

/-- A single operand that is left is the value. -/
theorem conclude_of_reached {left : List Symbol}
    (combined : (combineBy reduction symbols operands).reached = .ok ⟨[value], left⟩) :
    (conclude reduction ⟨operands, symbols⟩).result = .ok value ∧
      (conclude reduction ⟨operands, symbols⟩).state = ⟨[], left⟩ := by
  rw [Outcome.reached_eq_ok_iff] at combined
  have taken := Outcome.andThen_ok combined.1 fun _ rest => rest.takeOnly
  rw [conclude_eq, taken.1, taken.2, combined.2]
  exact ⟨rfl, rfl⟩

theorem conclude_eager_of_ok
    (nested : rightNested (rest.zip symbols).reverse last = .ok value) :
    let outcome := conclude .eager ⟨last :: rest, symbols⟩
    (symbols.length = rest.length → outcome.result = .ok value ∧ outcome.state = .empty) ∧
      (symbols.length < rest.length → outcome.result = .error .noOperator) ∧
      (rest.length < symbols.length → outcome.result = .error .noOperand) := by
  have combined := reached_combineBy_of_ok .eager nested
  rw [combineBy, combineAll_rest] at combined
  refine ⟨fun equal => ?_, fun few => ?_, fun many => ?_⟩
  · rw [if_pos equal.le, equal, List.drop_length] at combined
    exact conclude_of_reached combined
  · rw [if_pos few.le, List.drop_eq_getElem_cons few] at combined
    rw [conclude_eq, Outcome.result_andThen, combineBy, combined]
    rfl
  · rw [if_neg (Nat.not_le_of_lt many)] at combined
    rw [conclude_eq, Outcome.result_andThen, combineBy, combined]
    rfl

theorem conclude_single_of_ok
    (nested : rightNested (rest.zip symbols).reverse last = .ok value) :
    let outcome := conclude .single ⟨last :: rest, symbols⟩
    (rest.length ≤ symbols.length →
        outcome.result = .ok value ∧ outcome.state = ⟨[], symbols.drop rest.length⟩) ∧
      (symbols.length < rest.length → outcome.result = .error .noOperator) := by
  have combined := reached_combineBy_of_ok .single nested
  rw [combineBy, combineToOne_rest] at combined
  refine ⟨fun enough => ?_, fun few => ?_⟩
  · rw [if_pos enough] at combined
    exact conclude_of_reached combined
  · rw [if_neg (Nat.not_le_of_lt few)] at combined
    rw [conclude_eq, Outcome.result_andThen, combineBy, combined]
    rfl

/-- Without operands nothing is combined. -/
theorem conclude_nil (symbols : List Symbol) :
    (∀ reduction, (conclude reduction ⟨[], symbols⟩).events = []) ∧
      (conclude .eager ⟨[], symbols⟩).result = .error .noOperand ∧
      (symbols = [] → (conclude .single ⟨[], symbols⟩).result = .error .noOperator) ∧
      (symbols ≠ [] → (conclude .single ⟨[], symbols⟩).result = .error .noOperand) := by
  cases symbols with
  | nil => exact ⟨fun reduction => by cases reduction <;> rfl, rfl, fun _ => rfl, by simp⟩
  | cons top below =>
      exact ⟨fun reduction => by cases reduction <;> rfl, rfl, by simp, fun _ => rfl⟩

/-- The topmost operators with the operands in front of them, from the first one on. -/
theorem reverse_zip_reverse (front : List Float) (symbols : List Symbol) :
    (front.reverse.zip symbols.reverse).reverse =
      (front.rtake (min symbols.length front.length)).zip
        (symbols.rtake (min symbols.length front.length)) := by
  have equal : (front.reverse.take (min symbols.length front.length)).length =
      (symbols.reverse.take (min symbols.length front.length)).length := by
    simp only [List.length_take, List.length_reverse]
    omega
  rw [List.zip_eq_zip_take_min, List.length_reverse, List.length_reverse, Nat.min_comm,
    List.rtake_eq_reverse_take_reverse, List.rtake_eq_reverse_take_reverse]
  exact List.reverse_zipWith equal

theorem map_snd_zip_isPrefix (operands : List Float) (symbols : List Symbol) :
    (operands.zip symbols).map Prod.snd <+: symbols := by
  induction operands generalizing symbols with
  | nil => exact List.nil_prefix
  | cons operand operands ih =>
      cases symbols with
      | nil => exact List.nil_prefix
      | cons symbol symbols => exact (List.prefix_cons_inj symbol).mpr (ih symbols)

/-- What eager reduction concludes, single reduction concludes in the same way. -/
theorem conclude_single_of_eager
    (concluded : (conclude .eager ⟨operands, symbols⟩).result = .ok value) :
    (conclude .single ⟨operands, symbols⟩).result = .ok value ∧
      (conclude .single ⟨operands, symbols⟩).state =
        (conclude .eager ⟨operands, symbols⟩).state := by
  cases operands with
  | nil =>
      rw [(conclude_nil symbols).2.1] at concluded
      cases concluded
  | cons last rest =>
      cases nested : rightNested (rest.zip symbols).reverse last with
      | error cause =>
          rw [result_conclude_of_error nested] at concluded
          cases concluded
      | ok inner =>
          have eager := conclude_eager_of_ok nested
          have single := conclude_single_of_ok nested
          rcases Nat.lt_trichotomy symbols.length rest.length with few | equal | many
          · rw [eager.2.1 few] at concluded
            cases concluded
          · rw [(eager.1 equal).1] at concluded
            cases concluded
            refine ⟨(single.1 equal.ge).1, ?_⟩
            rw [(single.1 equal.ge).2, (eager.1 equal).2, ← equal, List.drop_length]
            rfl
          · rw [eager.2.2 many] at concluded
            cases concluded

end Pending

namespace Machine

/-- The state of a machine at the end, the first operand and the first symbol first. -/
def atEnd (settings : Settings) (draft : Draft) (operands : List Float) (symbols : List Symbol) :
    Machine :=
  ⟨settings, ⟨operands.reverse, symbols.reverse⟩, draft⟩

/-- What becomes of any operands and symbols that are pending at the end. -/
theorem conclude_atEnd (settings : Settings) (draft : Draft) (symbols : List Symbol) :
    (let outcome := (atEnd settings draft [] symbols).conclude
     outcome.events = [] ∧
      (settings.reduction = .eager → outcome.result = .error .noOperand) ∧
      (settings.reduction = .single → symbols = [] → outcome.result = .error .noOperator) ∧
      (settings.reduction = .single → symbols ≠ [] → outcome.result = .error .noOperand)) ∧
    (∀ (front : List Float) (last : Float),
      let machine := atEnd settings draft (front ++ [last]) symbols
      let outcome := machine.conclude
      let count := min symbols.length front.length
      let chain := (front.rtake count).zip (symbols.rtake count)
      let applied := applications chain last
      applied.length ≤ count ∧
      applied.map Application.symbol <+: symbols.reverse ∧
      outcome.events = applied.filterMap Application.event? ∧
      (∀ cause, rightNested chain last = .error cause →
        outcome.result = .error cause ∧
        (cause = .divisionByZero ∨ cause = .notBinary '(' ∨ cause = .notBinary ')') ∧
        ∃ earlier failing, applied = earlier ++ [failing] ∧
          (∀ other ∈ earlier, other.result.isOk) ∧ failing.result = .error cause) ∧
      (∀ value, rightNested chain last = .ok value →
        (∀ application ∈ applied, application.result.isOk) ∧
        (settings.reduction = .eager →
          (symbols.length = front.length →
            outcome.result = .ok value ∧ outcome.state = { machine with pending := .empty }) ∧
          (symbols.length < front.length → outcome.result = .error .noOperator) ∧
          (front.length < symbols.length → outcome.result = .error .noOperand)) ∧
        (settings.reduction = .single →
          (front.length ≤ symbols.length →
            outcome.result = .ok value ∧
            outcome.state =
              { machine with
                pending := ⟨[], (symbols.take (symbols.length - front.length)).reverse⟩ }) ∧
          (symbols.length < front.length → outcome.result = .error .noOperator)))) ∧
    (∀ (operands : List Float) (value : Float),
      let eager := (atEnd { settings with reduction := .eager } draft operands symbols).conclude
      let single := (atEnd { settings with reduction := .single } draft operands symbols).conclude
      eager.result = .ok value →
        single.result = .ok value ∧ single.state.pending = eager.state.pending) := by
  refine ⟨?_, ?_, ?_⟩
  · have concluded := Pending.conclude_nil symbols.reverse
    rw [List.reverse_eq_nil_iff, ne_eq, List.reverse_eq_nil_iff] at concluded
    rcases settings with ⟨⟨precision, tolerance, _ | _, limit⟩, limit_le⟩
    · exact ⟨concluded.1 _, fun _ => concluded.2.1, by simp, by simp⟩
    · exact ⟨concluded.1 _, by simp, fun _ => concluded.2.2.1, fun _ => concluded.2.2.2⟩
  · intro front last
    dsimp only
    have topmost := Pending.map_snd_zip_isPrefix front.reverse symbols.reverse
    have few : (front.reverse.zip symbols.reverse).reverse.length =
        min symbols.length front.length := by
      rw [List.length_reverse, List.length_zip, List.length_reverse, List.length_reverse,
        Nat.min_comm]
    rw [← Pending.reverse_zip_reverse, atEnd, List.reverse_concat]
    refine ⟨?_, ?_, ?_, ?_, ?_⟩
    · rw [← few]
      exact length_applications_le _ last
    · apply (symbols_applications_isPrefix _ last).trans
      rwa [← List.map_reverse, List.reverse_reverse]
    · exact Pending.events_conclude settings.reduction symbols.reverse last front.reverse
    · intro cause failed
      rcases applications_of_rightNested_eq_error failed with ⟨earlier, failing, split⟩
      exact ⟨Pending.result_conclude_of_error failed, Application.cause_of_result split.2.2,
        earlier, failing, split⟩
    · intro value nested
      have eager := Pending.conclude_eager_of_ok nested
      have single := Pending.conclude_single_of_ok nested
      dsimp only at eager single
      rw [List.length_reverse, List.length_reverse] at eager single
      rw [List.drop_reverse] at single
      rcases settings with ⟨⟨precision, tolerance, reduction, limit⟩, limit_le⟩
      refine ⟨(applications_of_rightNested_eq_ok nested).2, ?_, ?_⟩
      · rintro ⟨⟩
        refine ⟨fun equal => ⟨(eager.1 equal).1, ?_⟩, eager.2⟩
        exact congrArg (Machine.mk _ · draft) (eager.1 equal).2
      · rintro ⟨⟩
        refine ⟨fun enough => ⟨(single.1 enough).1, ?_⟩, single.2⟩
        exact congrArg (Machine.mk _ · draft) (single.1 enough).2
  · intro operands value
    exact Pending.conclude_single_of_eager

theorem conclude_atEnd_openBracket :
    let opening : Symbol := .openBracket
    let subtraction : Symbol := .binary .subtract
    let division : Symbol := .binary .divide
    let machine := atEnd .forgiving (.empty 64) [175.5, 1, 2] [opening, subtraction, division]
    rightNested [(175.5, subtraction), (1, division)] 2 = .ok 175 ∧
      machine.conclude.result = .ok 175 ∧
      machine.conclude.state = { machine with pending := ⟨[], [opening]⟩ } ∧
      (atEnd { Settings.forgiving with reduction := .eager } (.empty 64) [175.5, 1, 2]
        [subtraction, division]).conclude.result = .ok 175 ∧
      (atEnd .forgiving (.empty 64) [175.5, 1, 2]
        [subtraction, division]).conclude.result = .ok 175 := by
  intro opening subtraction division machine
  have nested : rightNested [(175.5, subtraction), (1, division)] 2 = .ok 175 := by decide +kernel
  have eager : (atEnd { Settings.forgiving with reduction := .eager } (.empty 64) [175.5, 1, 2]
      [subtraction, division]).conclude.result = .ok 175 := by decide +kernel
  have contract := conclude_atEnd .forgiving (.empty 64) [opening, subtraction, division]
  have single := ((contract.2.1 [175.5, 1] 2).2.2.2.2 175 nested).2.2 rfl
  exact ⟨nested, (single.1 (by decide)).1, (single.1 (by decide)).2, eager,
    ((conclude_atEnd .forgiving (.empty 64) [subtraction, division]).2.2 _ _ eager).1⟩

end Machine

end Reckon
