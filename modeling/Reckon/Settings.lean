import Reckon.Literal.Draft

/-!
# Settings of an evaluation

Any limit on literals may be asked for, but an evaluation makes a draft with room
for the longest one.  Settings are the options for which there is such a draft.
-/

namespace Reckon

/-- What to do with text that is not a number literal. -/
inductive Tolerance where
  /-- Reject foreign characters, malformed literals, and literals that run into
  an opening bracket. -/
  | strict
  /-- Drop whatever does not read as a number. -/
  | lenient
  deriving DecidableEq, Repr

/-- How many pending operators are combined when a symbol arrives. -/
inductive Reduction where
  /-- Every one that binds at least as tightly as the symbol. -/
  | eager
  /-- At most one. -/
  | single
  deriving DecidableEq, Repr

/-- What may be asked of an evaluation. -/
structure Options where
  /-- The number of fractional digits kept in a rendered result. -/
  precision : Nat
  tolerance : Tolerance
  reduction : Reduction
  /-- The largest number of characters in a literal. -/
  literalLimit : Nat
  deriving DecidableEq, Repr

/-- What may be chosen about an evaluation: options with a draft for the longest
literal. -/
structure Settings extends Options where
  limit_le : literalLimit ≤ Draft.largestCapacity
  deriving DecidableEq, Repr

/-- Options as settings, unless there is no draft for them. -/
def Options.settings? (options : Options) : Option Settings :=
  if limit_le : options.literalLimit ≤ Draft.largestCapacity then
    some { options with limit_le }
  else none

namespace Settings

/-- Four fractional digits, strict literals of up to 64 characters, eager
reduction. -/
def standard : Settings where
  precision := 4
  tolerance := .strict
  reduction := .eager
  literalLimit := 64
  limit_le := by decide

/-- The standard settings, but literals that cannot be read are dropped and one
operator at a time is combined. -/
def forgiving : Settings :=
  { standard with tolerance := .lenient, reduction := .single }

/-- Settings are found again among the options. -/
@[simp] theorem settings?_toOptions (settings : Settings) :
    settings.toOptions.settings? = some settings := by
  rw [Options.settings?, dif_pos settings.limit_le]

end Settings

end Reckon
