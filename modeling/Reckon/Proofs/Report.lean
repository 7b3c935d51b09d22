import Reckon.CommandLine.Report
import Reckon.Proofs.FixedPoint
import Reckon.Proofs.Lines

/-!
# Two ways to give statements

`eval` takes its statements from its arguments or, if there are none, from the lines of
standard input.  Both ways lead to the same report.  Lines may differ from the statements
that were written on them by a carriage return in the end, but that is a blank.  The report
is written statement by statement, and is the one of the list of all values.
-/

namespace Reckon

/-! ## Statements and lines -/

namespace Statement

/-- The evaluation of a statement looks at nothing but its stripped characters. -/
theorem evaluate?_congr {first second : String} (same : strip first = strip second)
    (settings : Settings) : evaluate? settings first = evaluate? settings second := by
  have prepared : prepare settings.tolerance first = prepare settings.tolerance second := by
    simp only [prepare, same]
  simp only [evaluate?, evaluate, value, run, prepared]

theorem evaluate?_append_return (settings : Settings) (statement : String) :
    evaluate? settings (statement ++ "\r") = evaluate? settings statement := by
  apply evaluate?_congr
  rw [strip, strip, String.toList_append, List.filter_append]
  exact List.append_nil _

/-- What is written for a statement. -/
def line (settings : Settings) (statement : String) : String :=
  (evaluate? settings statement).getD "invalid"

theorem map_evaluateEach (settings : Settings) (statements : List String) :
    (evaluateEach settings statements).map (·.getD "invalid") = statements.map (line settings) :=
  List.map_map

/-- A rendered value is made of digits, a point and a minus. -/
theorem alphabet_of_evaluate? {settings : Settings} {statement rendered : String}
    (evaluated : evaluate? settings statement = some rendered) :
    ∀ character ∈ rendered.toList,
      character = '-' ∨ character.isDigit ∨ character = '.' := by
  rw [evaluate?, toOption_eq_some_iff, evaluate, bind_eq_ok_iff] at evaluated
  rcases evaluated with ⟨value, _, result⟩
  rcases exists_of_render result with ⟨negative, code, fits, rfl⟩
  have plain := (isPlain_renderMagnitude fits.finite).alphabet
  intro character member
  rw [String.toList_ofList, renderedText] at member
  split at member
  · rcases List.mem_cons.mp member with minus | member
    · exact .inl minus
    · exact .inr (plain character member)
  · exact .inr (plain character member)

/-- What is written for a statement stays on one line. -/
theorem notMem_line (settings : Settings) (statement : String) :
    '\n' ∉ (line settings statement).toList ∧ '\r' ∉ (line settings statement).toList := by
  rw [line]
  cases evaluated : evaluate? settings statement with
  | none => exact ⟨by decide, by decide⟩
  | some rendered =>
      have alphabet := alphabet_of_evaluate? evaluated
      constructor
      · intro member
        simpa using alphabet '\n' member
      · intro member
        simpa using alphabet '\r' member

end Statement

namespace CommandLine

theorem Report.lines_unlines {lines : List String}
    (oneLine : ∀ line ∈ lines, '\n' ∉ line.toList ∧ '\r' ∉ line.toList) :
    Text.lines (unlines lines) = lines := by
  induction lines with
  | nil => rfl
  | cons line lines ih =>
      have first := oneLine line List.mem_cons_self
      have later := ih fun other member => oneLine other (List.mem_cons_of_mem _ member)
      have text : (unlines (line :: lines)).toList =
          line.toList ++ '\n' :: (unlines lines).toList := by
        simp [unlines]
      rw [Text.lines, text, Text.splitLines_append_lineFeed first.1 first.2, List.map_cons,
        String.ofList_toList]
      exact congrArg _ later

/-! ## Progress -/

namespace Progress

variable {settings : Settings}

/-- A statement adds its line, and spoils the validity if it has no value. -/
theorem add_eq (progress : Progress) (statement : String) :
    progress.add settings statement =
      ⟨progress.output ++ (Statement.line settings statement ++ "\n"),
        progress.allValid && (Statement.evaluate? settings statement).isSome⟩ := by
  rw [add, Statement.line, Statement.evaluate?]
  cases Statement.evaluate settings statement with
  | ok rendered => simp [Except.toOption]
  | error cause => simp [Except.toOption]

/-- Statements add their lines in order, whatever was written before. -/
theorem foldl_add (statements : List String) (progress : Progress) :
    statements.foldl (add settings) progress =
      ⟨progress.output ++ Report.unlines (statements.map (Statement.line settings)),
        progress.allValid &&
          statements.all fun statement => (Statement.evaluate? settings statement).isSome⟩ := by
  induction statements generalizing progress with
  | nil => simp [Report.unlines]
  | cons statement rest ih =>
      rw [List.foldl_cons, ih, add_eq]
      simp [Report.unlines, String.append_assoc, Bool.and_assoc]

end Progress

/-- The report of statements is that of the list of their values. -/
theorem Report.ofStatements_eq (settings : Settings) (statements : List String) :
    ofStatements settings statements =
      let results := Statement.evaluateEach settings statements
      ⟨if results.all Option.isSome then 0 else 1, unlines (results.map (·.getD "invalid")), ""⟩ := by
  rw [ofStatements, Progress.foldl_add]
  simp only [Progress.start, Statement.map_evaluateEach, Bool.true_and, String.empty_append]
  rw [Statement.evaluateEach, List.all_map]
  rfl

/-! ## Arguments -/

/-- The arguments that give flags to `eval`; the precision may be left out. -/
def flagArguments (precision : Option Nat) (lenient singlePop : Bool) : List String :=
  (precision.toList.flatMap fun precision => ["--precision", toString precision]) ++
    ((if lenient then ["--lenient"] else []) ++ if singlePop then ["--single-pop"] else [])

/-- The greatest precision that can be asked for. -/
def precisionLimit : Nat :=
  4294967295

/-- What is relied on of a parser: it passes flags on, with four as the precision if none is
given, and behind `--` it passes on every argument as a statement. -/
structure PassesThrough (parse : Parser) : Prop where
  flags : ∀ precision lenient singlePop, (∀ digits ∈ precision, digits ≤ precisionLimit) →
    parse ("eval" :: flagArguments precision lenient singlePop) =
      .ok (.eval ⟨precision.getD 4, lenient, singlePop⟩ [])
  statements : ∀ precision lenient singlePop statements,
    (∀ digits ∈ precision, digits ≤ precisionLimit) →
    parse ("eval" :: (flagArguments precision lenient singlePop ++ "--" :: statements)) =
      .ok (.eval ⟨precision.getD 4, lenient, singlePop⟩ statements)

namespace Parser

/-- Takes a precision off the arguments. -/
def takePrecision : List String → Nat × List String
  | "--precision" :: digits :: rest => (Digits.value digits.toList, rest)
  | arguments => (4, arguments)

/-- Takes a flag off the arguments and tells whether it was there. -/
def takeFlag (flag : String) : List String → Bool × List String
  | [] => (false, [])
  | first :: rest => if first = flag then (true, rest) else (false, first :: rest)

/-- The report on arguments that are not understood. -/
def usage : Report :=
  ⟨2, "", "Usage: eval [--precision N] [--lenient] [--single-pop] [-- STATEMENT...]\n"⟩

/-- Takes the flags of `eval` off its arguments. -/
def takeFlags (arguments : List String) : EvalFlags × List String :=
  let (precision, arguments) := takePrecision arguments
  let (lenient, arguments) := takeFlag "--lenient" arguments
  let (singlePop, arguments) := takeFlag "--single-pop" arguments
  (⟨precision, lenient, singlePop⟩, arguments)

/-- A parser that understands the flags of `eval` in their order, with statements only behind
`--`. -/
def plain : Parser
  | "eval" :: arguments =>
      match takeFlags arguments with
      | (flags, []) => .ok (.eval flags [])
      | (flags, "--" :: statements) => .ok (.eval flags statements)
      | _ => .error usage
  | _ => .error usage

variable {rest : List String}

theorem takePrecision_append (precision : Option Nat) (other : rest.head? ≠ some "--precision") :
    takePrecision
        ((precision.toList.flatMap fun precision => ["--precision", toString precision]) ++ rest) =
      (precision.getD 4, rest) := by
  cases precision with
  | some precision =>
      have digits : (toString precision).toList = Digits.ofNat precision := String.toList_ofList
      rw [Option.toList_some, List.flatMap_singleton, List.cons_append, List.cons_append,
        takePrecision, digits, Digits.value_ofNat]
      rfl
  | none =>
      cases rest with
      | nil => rfl
      | cons first rest =>
          rw [Option.toList_none, List.flatMap_nil, List.nil_append, takePrecision.eq_2]
          · rfl
          · rintro digits later ⟨⟩
            exact other rfl

theorem takeFlag_append {flag : String} (given : Bool) (other : rest.head? ≠ some flag) :
    takeFlag flag ((if given then [flag] else []) ++ rest) = (given, rest) := by
  cases given with
  | true => simp [takeFlag]
  | false =>
      cases rest with
      | nil => rfl
      | cons first rest =>
          have differs : first ≠ flag := by simpa using other
          simp [takeFlag, differs]

theorem takeFlags_append (precision : Option Nat) (lenient singlePop : Bool)
    (other : ∀ flag ∈ ["--precision", "--lenient", "--single-pop"], rest.head? ≠ some flag) :
    takeFlags (flagArguments precision lenient singlePop ++ rest) =
      (⟨precision.getD 4, lenient, singlePop⟩, rest) := by
  have notPrecision : ((if lenient then ["--lenient"] else []) ++
      ((if singlePop then ["--single-pop"] else []) ++ rest)).head? ≠ some "--precision" := by
    cases lenient <;> cases singlePop <;> simp [other]
  have notLenient : ((if singlePop then ["--single-pop"] else []) ++ rest).head? ≠
      some "--lenient" := by
    cases singlePop <;> simp [other]
  rw [takeFlags, flagArguments, List.append_assoc, List.append_assoc,
    takePrecision_append precision notPrecision]
  dsimp only
  rw [takeFlag_append lenient notLenient]
  dsimp only
  rw [takeFlag_append singlePop (other _ (by simp))]

theorem passesThrough_plain : PassesThrough plain where
  flags precision lenient singlePop _ := by
    have taken := @takeFlags_append [] precision lenient singlePop (by simp)
    rw [List.append_nil] at taken
    rw [plain, taken]
  statements precision lenient singlePop statements _ := by
    rw [plain, takeFlags_append precision lenient singlePop (by simp)]
    rfl

end Parser

/-! ## Reports -/

theorem fromUTF8?_toUTF8 (text : String) : String.fromUTF8? text.toUTF8 = some text := by
  rw [String.fromUTF8?, String.toUTF8, dif_pos text.isValidUTF8]
  rfl

/-- Statements on lines have the report of the statements. -/
theorem ofStatements_lines {statements : List String}
    (noFeed : ∀ statement ∈ statements, '\n' ∉ statement.toList) {text : String}
    (onLines : Text.OnLines statements text) (settings : Settings) :
    Report.ofStatements settings (Text.lines text) = Report.ofStatements settings statements := by
  have same : Statement.evaluateEach settings (Text.lines text) =
      Statement.evaluateEach settings statements :=
    Text.map_lines_of_onLines (Statement.evaluate?_append_return settings) noFeed onLines
  rw [Report.ofStatements_eq, Report.ofStatements_eq, same]

/-- What is written for statements has a line for each of them. -/
theorem lines_unlines_evaluateEach (settings : Settings) (statements : List String) :
    Text.lines (Report.unlines
        ((Statement.evaluateEach settings statements).map (·.getD "invalid"))) =
      statements.map (Statement.line settings) := by
  rw [Statement.map_evaluateEach, Report.lines_unlines]
  rw [List.forall_mem_map]
  intro statement _
  exact Statement.notMem_line settings statement

/-- Flags stand for the settings that they name. -/
theorem EvalFlags.settings_eq (precision : Nat) (lenient singlePop : Bool) :
    EvalFlags.settings ⟨precision, lenient, singlePop⟩ =
      { precision
        tolerance := if lenient then .lenient else .strict
        reduction := if singlePop then .single else .eager
        literalLimit := 64
        limit_le := by decide } := by
  cases lenient <;> cases singlePop <;> rfl

section Paths

variable {parse : Parser} {precision : Option Nat} {statements : List String}

theorem ofArguments_statements (passes : PassesThrough parse)
    (small : ∀ digits ∈ precision, digits ≤ precisionLimit) (lenient singlePop : Bool)
    (nonempty : statements ≠ []) (unread : ByteArray) :
    Report.ofArguments parse
        ("eval" :: (flagArguments precision lenient singlePop ++ "--" :: statements)) unread =
      .ofStatements (EvalFlags.settings ⟨precision.getD 4, lenient, singlePop⟩) statements := by
  rw [Report.ofArguments, passes.statements precision lenient singlePop statements small]
  dsimp only
  rw [Command.report.eq_2]
  exact nonempty

theorem ofArguments_input (passes : PassesThrough parse)
    (small : ∀ digits ∈ precision, digits ≤ precisionLimit) (lenient singlePop : Bool)
    (text : String) :
    Report.ofArguments parse ("eval" :: flagArguments precision lenient singlePop) text.toUTF8 =
      .ofStatements (EvalFlags.settings ⟨precision.getD 4, lenient, singlePop⟩)
        (Text.lines text) := by
  rw [Report.ofArguments, passes.flags precision lenient singlePop small]
  dsimp only
  rw [Command.report, fromUTF8?_toUTF8]

end Paths

/-- Whichever way the statements are given, the report is the same.  It has one line for each of
them, which is the one that this statement has among any others, and the exit code tells whether
all of them have values. -/
theorem report_of_either_path {parse : Parser} (passes : PassesThrough parse)
    {precision : Option Nat} (small : ∀ digits ∈ precision, digits ≤ precisionLimit)
    (lenient singlePop : Bool) {statements : List String} (nonempty : statements ≠ [])
    (noFeed : ∀ statement ∈ statements, '\n' ∉ statement.toList)
    {text : String} (onLines : Text.OnLines statements text) (unread : ByteArray) :
    let settings : Settings :=
      { precision := precision.getD 4
        tolerance := if lenient then .lenient else .strict
        reduction := if singlePop then .single else .eager
        literalLimit := 64
        limit_le := by decide }
    let flags := flagArguments precision lenient singlePop
    let report := Report.ofArguments parse ("eval" :: (flags ++ "--" :: statements)) unread
    let lines := (Statement.evaluateEach settings statements).map (·.getD "invalid")
    Report.ofArguments parse ("eval" :: flags) text.toUTF8 = report ∧
      report.output = Report.unlines lines ∧ Text.lines report.output = lines ∧
      (∀ index : Nat, (Text.lines report.output)[index]? =
        statements[index]?.map (Statement.line settings)) ∧
      report.exitCode =
        if ∀ statement ∈ statements, (Statement.evaluate? settings statement).isSome then 0
        else 1 := by
  intro settings flags report lines
  have given := ofArguments_statements passes small lenient singlePop nonempty unread
  have taken := ofArguments_input passes small lenient singlePop text
  rw [EvalFlags.settings_eq] at given taken
  have written : Text.lines (Report.unlines lines) = statements.map (Statement.line settings) :=
    lines_unlines_evaluateEach settings statements
  rw [taken, show report = _ from given, ofStatements_lines noFeed onLines,
    Report.ofStatements_eq]
  refine ⟨rfl, rfl, ?_, fun index => ?_, ?_⟩
  · exact written.trans (Statement.map_evaluateEach settings statements).symm
  · exact (congrArg (·[index]?) written).trans List.getElem?_map
  · simp only [Statement.evaluateEach, List.all_map, List.all_eq_true]
    rfl

/-- Each flag changes a line of its own, and the end of a statement in a carriage return none. -/
theorem report_of_mixed_lines :
    let statements := ["1/3", "1-2*3+4\r", "2(3)"]
    let text := "1/3" ++ "\r\n" ++ ("1-2*3+4\r" ++ "\n" ++ "2(3)")
    let reported (flags : List String) :=
      Report.ofArguments Parser.plain ("eval" :: flags) text.toUTF8
    PassesThrough Parser.plain ∧ Text.OnLines statements text ∧
      reported [] = ⟨1, "0.3334\n-1\ninvalid\n", ""⟩ ∧
      reported ["--precision", "2"] = ⟨1, "0.34\n-1\ninvalid\n", ""⟩ ∧
      reported ["--lenient"] = ⟨0, "0.3334\n-1\n23\n", ""⟩ ∧
      reported ["--single-pop"] = ⟨1, "0.3334\n-9\ninvalid\n", ""⟩ := by
  intro statements text reported
  have noFeed : ∀ statement ∈ statements, '\n' ∉ statement.toList := by decide
  have onLines : Text.OnLines statements text :=
    .line "1/3" (.inr rfl) (.line "1-2*3+4\r" (.inl rfl) (.unended (by decide)))
  have same (precision : Option Nat) (small : ∀ digits ∈ precision, digits ≤ precisionLimit)
      (lenient singlePop : Bool) :=
    (report_of_either_path Parser.passesThrough_plain small lenient singlePop (by decide) noFeed
      onLines .empty).1
  refine ⟨Parser.passesThrough_plain, onLines, ?_, ?_, ?_, ?_⟩
  · exact (same none (by decide) false false).trans (by decide +kernel)
  · exact (same (some 2) (by decide) false false).trans (by decide +kernel)
  · exact (same none (by decide) true false).trans (by decide +kernel)
  · exact (same none (by decide) false true).trans (by decide +kernel)

end CommandLine

end Reckon
