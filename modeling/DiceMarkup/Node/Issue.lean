/-
  DiceMarkup.Node.Issue

  What a reader notes while it reads a text: the places where the text is
  not the markup that it seems to be, and the brackets that it has already
  tried in vain. A place is a cursor, so an issue does not depend on the
  text before it.
-/
import DiceMarkup.Diagnostic
import DiceMarkup.Text.Cursor
import Std.Data.HashSet

namespace DiceMarkup

open Text (Cursor LineTable)

/-- How many tags and groups may stand inside one another. -/
def nestingLimit : Nat := 64

/-! ## Issues -/

/-- What can be wrong with the writing of a text; names are given as they are written. -/
inductive Problem where
  | unknownTag (name : String)
  /-- A tag without its closer. -/
  | unterminated (name : String)
  /-- An opener without its `]`. -/
  | malformed (name : String)
  | tagTooDeep (name : String)
  | groupTooDeep
deriving DecidableEq

namespace Problem

def code : Problem → String
  | unknownTag _ => "W_TAG_UNKNOWN"
  | unterminated _ => "W_TAG_UNTERMINATED"
  | malformed _ => "W_BRACKET_MALFORMED"
  | tagTooDeep _ => "W_DEPTH_LIMIT"
  | groupTooDeep => "W_DEPTH_LIMIT"

def message : Problem → String
  | unknownTag name => "unknown tag `" ++ name ++ "`"
  | unterminated name => "`[" ++ name ++ "]` has no matching `[/" ++ name ++ "]`"
  | malformed name => "`[" ++ name ++ "` is not closed by `]`"
  | tagTooDeep name =>
    "`[" ++ name ++ "` is nested deeper than " ++ toString nestingLimit ++ " levels"
  | groupTooDeep => "group is nested deeper than " ++ toString nestingLimit ++ " levels"

end Problem

/-- A problem and the part of the text that shows it. -/
structure Issue where
  problem : Problem
  start : Cursor
  stop : Cursor

namespace Issue

/-- The part of the text that shows the problem. -/
def snippet (issue : Issue) : String :=
  String.ofList (issue.start.textTo issue.stop)

/-- The report on an issue of a text of `size` bytes with these lines. -/
def diagnostic (size : Nat) (lines : LineTable) (issue : Issue) : Diagnostic where
  range := some
    { start := lines.position (size - issue.start.left)
      stop := lines.position (size - issue.stop.left) }
  severity := .warning
  code := issue.problem.code
  message := issue.problem.message
  snippet := issue.snippet

end Issue

/-! ## Notes -/

/-- What has been noted so far. -/
structure Notes where
  /-- The issues found, the last one first. -/
  issues : List Issue
  /-- The places, by the bytes that follow, of brackets known to open no tag; `none` if such places
      are not remembered. -/
  failed : Option (Std.HashSet Nat)

namespace Notes

/-- Nothing noted yet; brackets tried in vain will be remembered. -/
def remembering : Notes := ⟨[], some ∅⟩

/-- Nothing noted yet; every bracket will be tried anew each time it is reached. -/
def forgetful : Notes := ⟨[], none⟩

/-- The bracket here is known to open no tag. -/
def hasFailed (notes : Notes) (c : Cursor) : Bool :=
  notes.failed.any fun places => places.contains c.left

/-- Remembers that the bracket here opens no tag. -/
def fail (notes : Notes) (c : Cursor) : Notes :=
  { notes with failed := notes.failed.map fun places => places.insert c.left }

def add (notes : Notes) (problem : Problem) (start stop : Cursor) : Notes :=
  { notes with issues := ⟨problem, start, stop⟩ :: notes.issues }

/-- Goes back to the issues found earlier. -/
def restore (notes : Notes) (issues : List Issue) : Notes :=
  { notes with issues }

end Notes

end DiceMarkup
