/-
  DiceMarkup.Submission

  A text as its author submits it. `[dice N]` is short for `[dice 1 N]`, and
  a result that the author has typed after a dice is dropped: results come
  from rolls alone. The text of an infix formula is markup too, and is
  completed in the same way if there is a tag in it.
-/
import DiceMarkup.Node.Reader
import DiceMarkup.Node.Writer
import DiceMarkup.Numeral

namespace DiceMarkup

namespace Submission

/-- A single bound of one or more is the upper bound, and the lower bound is one. -/
def fullBounds : List Node → List Node
  | [.text value] =>
    match Numeral.readInt64? value with
    | some sides =>
      if 1 ≤ sides then [.text "1", .text (Numeral.writeInt64 sides)] else [.text value]
    | none => [.text value]
  | attributes => attributes

mutual

/-- Completes one piece; `formula` completes the text of an infix formula. -/
def node (formula : String → String) : Node → Node
  | .text value => .text value
  | .group items => .group (nodes formula items)
  | .element name attributes children =>
    match Tag.ofName? name with
    | some .dice => .element name (fullBounds attributes) []
    | some .infixFormula =>
      .element name (formulaTexts formula attributes) (nodes formula children)
    | _ => .element name (nodes formula attributes) (nodes formula children)

def nodes (formula : String → String) : List Node → List Node
  | [] => []
  | piece :: pieces => node formula piece :: nodes formula pieces

/-- Completes the attributes of an infix formula, where a text is the formula. -/
def formulaTexts (formula : String → String) : List Node → List Node
  | [] => []
  | .text raw :: attributes => .text (formula raw) :: formulaTexts formula attributes
  | item :: attributes => node formula item :: formulaTexts formula attributes

end

/-- Completes the text of an infix formula, and the formulas within it to so many levels. -/
def formulaToDepth : Nat → String → String
  | 0, raw => raw
  | levels + 1, raw =>
    let document := Document.parse raw
    -- A formula without a tag is kept as it stands, spaces and all.
    if document.any Node.isElement then
      Document.toText (nodes (formulaToDepth levels) document)
    else raw

/-- Completes the text of an infix formula. A formula within a formula is shorter than the one
    around it, so there are no more levels than characters. -/
def formula (raw : String) : String :=
  formulaToDepth raw.length raw

end Submission

/-- The document that an author submits with a text. -/
def Document.ofSubmission (source : String) : Document :=
  Submission.nodes Submission.formula (Document.parse source)

end DiceMarkup
