/-
  DiceMarkup.Report

  Trees, views and diagnostics in the form in which the command line prints
  them.
-/
import DiceMarkup.Json
import DiceMarkup.View

namespace DiceMarkup

namespace Report

open Json (string array object integer)

mutual

def ofNode : Node → Json
  | .text value => object [("type", string "text"), ("value", string value)]
  | .element name attributes children =>
    object [("type", string "element"), ("name", string name),
      ("attributes", array (ofNodes attributes)), ("children", array (ofNodes children))]
  | .group items => object [("type", string "nested"), ("children", array (ofNodes items))]

def ofNodes : List Node → List Json
  | [] => []
  | node :: nodes => ofNode node :: ofNodes nodes

end

mutual

def ofView : View → Json
  | .text value => object [("type", string "text"), ("value", string value)]
  | .element name attributes children =>
    object [("type", string "element"), ("name", string name),
      ("attributes", array (ofViews attributes)), ("children", array (ofViews children))]
  | .group items => object [("type", string "nested"), ("children", array (ofViews items))]
  | .dice roll =>
    object [("type", string "diceResult"), ("min", integer roll.min.toInt),
      ("max", integer roll.max.toInt), ("result", integer roll.result.toInt)]
  | .formula result =>
    object [("type", string "calcResult"), ("expression", string result.expression),
      ("result", .real result.value)]

def ofViews : List View → List Json
  | [] => []
  | view :: views => ofView view :: ofViews views

end

def ofDocument (document : Document) : Json :=
  object [("children", array (ofNodes document))]

def ofShown (views : List View) : Json :=
  object [("children", array (ofViews views))]

def ofPosition (position : Text.Position) : Json :=
  object [("line", integer position.line), ("character", integer position.character)]

def ofDiagnostic (diagnostic : Diagnostic) : Json :=
  object [
    ("range", match diagnostic.range with
      | none => .null
      | some range => object [("start", ofPosition range.start), ("end", ofPosition range.stop)]),
    ("severity", string diagnostic.severity.label),
    ("code", string diagnostic.code),
    ("message", string diagnostic.message),
    ("snippet", string diagnostic.snippet)]

/-- One line for a person to read, with lines and columns counted from one. -/
def summary (diagnostic : Diagnostic) : String :=
  let what := diagnostic.severity.label ++ " " ++ diagnostic.code ++ " " ++ diagnostic.message
  match diagnostic.range with
  | some range =>
    toString (range.start.line + 1) ++ ":" ++ toString (range.start.character + 1) ++ " " ++ what
  | none => what ++ " (" ++ diagnostic.snippet ++ ")"

end Report

end DiceMarkup
