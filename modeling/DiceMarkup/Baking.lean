/-
  DiceMarkup.Baking

  Rolling the dice of a document for good. Every fresh dice is rolled once,
  in the order of the text, and keeps its result as its child, so that the
  document can be stored and read again without another roll. A dice that
  cannot be rolled is left as plain text and reported.
-/
import DiceMarkup.Dice
import DiceMarkup.Node.Reader

namespace DiceMarkup

open Rolling (Source)

namespace Baking

/-- A dice that holds a result is kept, and a fresh one is given one. -/
def dice {σ : Type} (source : Source σ) (name : String) (attributes children : List Node) :
    StateM σ (Reported Node) :=
  match Dice.classify attributes children with
  | .ok (.stored _) => return (.element name attributes children, [])
  | .ok (.fresh min max) => do
    let roll ← Dice.roll source min max
    return (.element name attributes [.text (Numeral.writeInt64 roll.result)], [])
  | .error error =>
    let written := Node.element name attributes children
    return (.text written.toText, [error.report .dice written])

mutual

/-- Bakes one piece; `formula` bakes the text of an infix formula. -/
def node {σ : Type} (source : Source σ) (formula : String → StateM σ (Reported String)) :
    Node → StateM σ (Reported Node)
  | .text value => return (.text value, [])
  | .group items => do
    let (items, reports) ← nodes source formula items
    return (.group items, reports)
  | .element name attributes children =>
    match Tag.ofName? name with
    | some .dice => dice source name attributes children
    | some .infixFormula => do
      let (attributes, reports) ← formulaTexts source formula attributes
      let (children, others) ← nodes source formula children
      return (.element name attributes children, reports ++ others)
    | _ => do
      let (attributes, reports) ← nodes source formula attributes
      let (children, others) ← nodes source formula children
      return (.element name attributes children, reports ++ others)

def nodes {σ : Type} (source : Source σ) (formula : String → StateM σ (Reported String)) :
    List Node → StateM σ (Reported (List Node))
  | [] => return ([], [])
  | piece :: pieces => do
    let (piece, reports) ← node source formula piece
    let (pieces, others) ← nodes source formula pieces
    return (piece :: pieces, reports ++ others)

/-- Bakes the attributes of an infix formula, where a text is the formula. -/
def formulaTexts {σ : Type} (source : Source σ)
    (formula : String → StateM σ (Reported String)) : List Node → StateM σ (Reported (List Node))
  | [] => return ([], [])
  | .text raw :: attributes => do
    let (raw, reports) ← formula raw
    let (attributes, others) ← formulaTexts source formula attributes
    return (.text raw :: attributes, reports ++ others)
  | item :: attributes => do
    let (item, reports) ← node source formula item
    let (attributes, others) ← formulaTexts source formula attributes
    return (item :: attributes, reports ++ others)

end

/-- Bakes the text of an infix formula, and the formulas within it to so many levels. -/
def formulaToDepth {σ : Type} (source : Source σ) : Nat → String → StateM σ (Reported String)
  | 0, raw => return (raw, [])
  | levels + 1, raw =>
    let document := Document.parse raw
    -- A formula without a tag is kept as it stands, spaces and all.
    if document.any Node.isElement then do
      let (baked, reports) ← nodes source (formulaToDepth source levels) document
      return (Document.toText baked, reports)
    else return (raw, [])

/-- Bakes the text of an infix formula. A formula within a formula is shorter than the one around
    it, so there are no more levels than characters. -/
def formula {σ : Type} (source : Source σ) (raw : String) : StateM σ (Reported String) :=
  formulaToDepth source raw.length raw

end Baking

/-- The document with every fresh dice rolled, and the reports on dice that cannot be rolled. -/
def Document.bake {σ : Type} (source : Source σ) (document : Document) :
    StateM σ (Reported Document) :=
  Baking.nodes source (Baking.formula source) document

end DiceMarkup
