import Reckon.Machine
import Reckon.Rendering
import Reckon.Statement

/-!
# Values of statements

A statement is prepared, read by a fresh machine, and concluded.  `value` gives
its value and `evaluate` the rendered value; both give the cause where there is
none.  Both are about settings.  Options that are no settings get no further than
the preparation.
-/

namespace Reckon.Statement

/-- Evaluates a statement and keeps the machine and the log.  A statement that
is rejected beforehand leaves a fresh machine. -/
def run (settings : Settings) (statement : String) : Outcome Machine Float :=
  match prepare settings.tolerance statement with
  | .error cause => .fail cause (.fresh settings)
  | .ok text =>
      ((Machine.fresh settings).read text).andThen fun _ machine => machine.conclude

/-- The value of a statement. -/
def value (settings : Settings) (statement : String) : Except Rejection Float :=
  (run settings statement).result

/-- The value of a statement with any options.  There is none, and no cause either,
where a draft that cannot be made would have to be. -/
def valueWith? (options : Options) (statement : String) :
    Option (Except Rejection Float) :=
  match prepare options.tolerance statement with
  | .error cause => some (.error cause)
  | .ok _ => options.settings?.map fun settings => value settings statement

/-- What happened while a statement was evaluated. -/
def log (settings : Settings) (statement : String) : List Event :=
  (run settings statement).events

/-- The value of a statement, rounded and rendered. -/
def evaluate (settings : Settings) (statement : String) : Except Rejection String :=
  (value settings statement).bind (render settings.precision)

/-- The rendered value of a statement that has one. -/
def evaluate? (settings : Settings) (statement : String) : Option String :=
  (evaluate settings statement).toOption

/-- The rendered values of many statements, each evaluated on its own. -/
def evaluateEach (settings : Settings) (statements : List String) :
    List (Option String) :=
  statements.map (evaluate? settings)

theorem value_of_prepare_eq_error {settings : Settings} {statement : String}
    {cause : Rejection} (rejected : prepare settings.tolerance statement = .error cause) :
    value settings statement = .error cause := by
  rw [value, run, rejected]
  rfl

/-- With settings, every statement has a value or a cause against it. -/
@[simp] theorem valueWith?_toOptions (settings : Settings) (statement : String) :
    valueWith? settings.toOptions statement = some (value settings statement) := by
  rw [valueWith?]
  split
  · rename_i rejected
    rw [value_of_prepare_eq_error rejected]
  · rw [Settings.settings?_toOptions, Option.map_some]

/-- An evaluation breaks off where the limit exceeds the capacity of every draft,
unless the preparation has rejected the statement before. -/
theorem valueWith?_eq_none_iff {options : Options} {statement : String} :
    valueWith? options statement = none ↔
      Draft.largestCapacity < options.literalLimit ∧
        ∃ text, prepare options.tolerance statement = .ok text := by
  rw [valueWith?]
  cases prepare options.tolerance statement with
  | error cause => simp
  | ok text => simp [Options.settings?]

end Reckon.Statement
