import Reckon.Settings

/-!
# Commands

What the program can be asked to do: `eval` evaluates statements, under settings
that its flags stand for, and `pyramid` lays out numbers.  Taking the arguments
of the program apart is the business of a parser, which is a parameter.
-/

namespace Reckon.CommandLine

/-- The flags of `eval`. -/
structure EvalFlags where
  /-- The number of fractional digits, the standard one if none was given. -/
  precision : Nat
  lenient : Bool
  singlePop : Bool
  deriving DecidableEq, Repr

/-- The settings that flags stand for: the standard ones, but for what the flags
change about them. -/
def EvalFlags.settings (flags : EvalFlags) : Settings :=
  let precise := { Settings.standard with precision := flags.precision }
  let tolerant :=
    if flags.lenient then { precise with tolerance := .lenient } else precise
  if flags.singlePop then { tolerant with reduction := .single } else tolerant

/-- What the program is asked to do. -/
inductive Command where
  /-- Evaluate statements; none means that they are on standard input. -/
  | eval (flags : EvalFlags) (statements : List String)
  /-- Show a pyramid. -/
  | pyramid (numbers : List Int)
  deriving DecidableEq, Repr

end Reckon.CommandLine
