import Reckon.CommandLine.Command
import Reckon.Pyramid
import Reckon.Statement.Value
import Reckon.Text.Lines

/-!
# Reports

What a command writes and the exit code it ends with, as a function of the
command and of the bytes on standard input.
-/

namespace Reckon.CommandLine

/-- The exit code and everything written by a command. -/
structure Report where
  exitCode : Nat
  output : String
  errors : String
  deriving DecidableEq, Repr

/-- What has been written for the statements so far, and whether all of them were
valid. -/
structure Progress where
  output : String
  allValid : Bool
  deriving DecidableEq, Repr

namespace Progress

/-- Nothing has been written. -/
def start : Progress :=
  ⟨"", true⟩

/-- Evaluates a statement and writes a line: its rendered value, or `invalid`. -/
def add (settings : Settings) (progress : Progress) (statement : String) : Progress :=
  match Statement.evaluate settings statement with
  | .ok rendered =>
      { progress with output := progress.output ++ (rendered ++ "\n") }
  | .error _ => ⟨progress.output ++ ("invalid" ++ "\n"), false⟩

end Progress

namespace Report

/-- Lines, each with its line feed. -/
def unlines (lines : List String) : String :=
  String.join (lines.map (· ++ "\n"))

/-- A failure without output. -/
def failure (explanation : String) : Report :=
  ⟨1, "", explanation ++ "\n"⟩

/-- Evaluates statements one after the other.  The command succeeds if all of them
are valid. -/
def ofStatements (settings : Settings) (statements : List String) : Report :=
  let progress := statements.foldl (Progress.add settings) .start
  ⟨if progress.allValid then 0 else 1, progress.output, ""⟩

/-- A row of a pyramid on one line. -/
def rowLine (row : List Int) : String :=
  String.intercalate " " (row.map toString)

/-- The rows of a pyramid, or why there is none. -/
def ofNumbers (numbers : List Int) : Report :=
  match Pyramid.ofList numbers with
  | .ok pyramid => ⟨0, unlines (pyramid.map rowLine), ""⟩
  | .error fault => failure ("Cannot build pyramid: " ++ fault.message)

end Report

/-- Whether a command looks at standard input. -/
def Command.readsInput : Command → Bool
  | eval _ statements => statements.isEmpty
  | pyramid _ => false

/-- Carries out a command.  Statements on standard input stand one to a line,
and bytes that are not UTF-8 anywhere in it spoil all of them. -/
def Command.report (input : ByteArray) : Command → Report
  | eval flags [] =>
      match String.fromUTF8? input with
      | some text => .ofStatements flags.settings (Text.lines text)
      | none =>
          .failure "Failed to read stdin: stream did not contain valid UTF-8"
  | eval flags statements => .ofStatements flags.settings statements
  | pyramid numbers => .ofNumbers numbers

/-- What a parser makes of the arguments of the program: the command they ask for,
or its own report where they ask for none, as for help. -/
abbrev Parser :=
  List String → Except Report Command

/-- Runs the program with arguments and standard input. -/
def Report.ofArguments (parse : Parser) (arguments : List String)
    (input : ByteArray) : Report :=
  match parse arguments with
  | .ok command => command.report input
  | .error report => report

end Reckon.CommandLine
