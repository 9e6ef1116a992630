/-
  DiceMarkup.Unbaking

  A stored text as its author may edit it again: without the results of its
  dice. Formulas are kept with theirs, and a text without results is given
  back as it is, character for character.
-/
import DiceMarkup.Node.Reader
import DiceMarkup.Node.Writer

namespace DiceMarkup

namespace Unbaking

mutual

/-- The piece with the results of its dice dropped, save within formulas. -/
def node : Node → Node
  | .text value => .text value
  | .group items => .group (nodes items)
  | .element name attributes children =>
    match Tag.ofName? name with
    | some .dice =>
      if children.isEmpty then .element name (nodes attributes) []
      else .element name attributes []
    | some .formula | some .infixFormula => .element name attributes children
    | _ => .element name (nodes attributes) (nodes children)

def nodes : List Node → List Node
  | [] => []
  | piece :: pieces => node piece :: nodes pieces

end

end Unbaking

/-- The text without the results of its dice. -/
def unbakedText (stored : String) : String :=
  let document := Document.parse stored
  let unbaked := Unbaking.nodes document
  if unbaked = document then stored else Document.toText unbaked

end DiceMarkup
