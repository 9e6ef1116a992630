/-
  DiceMarkup.Diagnostic

  Reports on what could not be read or evaluated. A report never stops the
  work: the part that it quotes stays in the tree as plain text.
-/
import DiceMarkup.Text.Position

namespace DiceMarkup

/-- A warning is about the way a text is written, an error about what cannot be evaluated. -/
inductive Severity where
  | error
  | warning
deriving DecidableEq

namespace Severity

def label : Severity → String
  | error => "error"
  | warning => "warning"

end Severity

/-- A report on one part of a text. -/
structure Diagnostic where
  /-- Where the part stands, if it was read from a text. -/
  range : Option Text.Range
  severity : Severity
  code : String
  message : String
  /-- The part itself, as it is written. -/
  snippet : String
deriving DecidableEq

/-- A value, and what is to be reported on the way to it. -/
abbrev Reported (α : Type) := α × List Diagnostic

end DiceMarkup
