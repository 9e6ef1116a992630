/-
  DiceMarkup.Proofs.Regular

  The texts whose stored form is read as it was written. The same is asked of
  the text and of the formulas in it, which are texts of their own: it is read
  within the nesting limit, its attributes are tidy, and no other result stands
  behind a dice whose result is dropped and not rolled again.
-/
import DiceMarkup.Proofs.Limit
import DiceMarkup.Proofs.Passes
import DiceMarkup.Proofs.Stability
import DiceMarkup.Submission

namespace DiceMarkup

namespace Node

/-! ## Results that would be taken for others -/

/-- A dice that is rolled once its bounds are complete. -/
def isRollable : Node → Bool
  | .element name attributes _ =>
    name == Tag.dice.name && (Dice.bounds (Submission.fullBounds attributes)).toBool
  | _ => false

/-- The dice has a result and is written without one: in a formula, which is written before its dice
    are rolled, and wherever it cannot be rolled. -/
def losesResult (inFormula : Bool) (node : Node) : Bool :=
  isRolled node && (inFormula || !isRollable node)

mutual

/-- No text behind a dice that loses its result would be read as its result. -/
def fenced (inFormula : Bool) : Node → Bool
  | .text _ => true
  | .group items => fencedAll inFormula items
  | .element _ attributes children => fencedAll inFormula attributes && fencedAll inFormula children

def fencedAll (inFormula : Bool) : List Node → Bool
  | [] => true
  | node :: nodes =>
    !(losesResult inFormula node && startsWithResult nodes) && fenced inFormula node &&
      fencedAll inFormula nodes

end

end Node

/-- What is asked of a text, and of every formula in it, so that its stored form is read as it was
    written. -/
inductive Document.Regular : Bool → String → Prop
  | intro {inFormula : Bool} {source : String} (h_limit : Document.WithinLimit source)
      (h_tidy : (Document.parse source).tidy = true)
      (h_fenced : Node.fencedAll inFormula (Document.parse source) = true)
      (h_formulas : ∀ raw ∈ Node.formulasAll false (Document.parse source), Regular true raw) :
      Regular inFormula source

end DiceMarkup
