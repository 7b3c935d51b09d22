import Reckon.CommandLine.Report

/-!
# The program

Reads the arguments, with the parser that an executable brings along, and standard
input if the command asks for it, and writes the report.
-/

namespace Reckon.CommandLine

/-- Whether the arguments ask for something that looks at standard input. -/
def readsInput (parse : Parser) (arguments : List String) : Bool :=
  match parse arguments with
  | .ok command => command.readsInput
  | .error _ => false

/-- Runs the program with a parser for its arguments. -/
def run (parse : Parser) (arguments : List String) : IO UInt32 := do
  let input ←
    if readsInput parse arguments then (← IO.getStdin).readBinToEnd
    else pure ByteArray.empty
  let report := Report.ofArguments parse arguments input
  (← IO.getStdout).putStr report.output
  (← IO.getStderr).putStr report.errors
  return report.exitCode.toUInt32

end Reckon.CommandLine
