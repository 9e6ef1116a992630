/-
  DiceMarkup.View

  A document as its readers see it: dice and formulas have become their
  results, and everything else has kept its shape. A dice or a formula
  without a value is shown as it is written, and reported.
-/
import DiceMarkup.Formula.Infix
import DiceMarkup.Formula.Prefix

namespace DiceMarkup

open Rolling (Source)

/-- A piece of a document as it is shown. -/
inductive View where
  | text (value : String)
  | element (name : String) (attributes children : List View)
  | group (items : List View)
  /-- A dice with its result. -/
  | dice (roll : Roll)
  /-- A formula with its value. -/
  | formula (result : Formula.Result)

namespace View

/-- The evaluation of an element that is not shown as it stands, if it has one, with its tag. -/
def evaluation? {σ : Type} (source : Option (Source σ)) (name : String)
    (attributes children : List Node) : Option (Tag × Eval σ View) :=
  match Tag.ofName? name with
  | some .dice => some (.dice, dice <$> Dice.resolve source attributes children)
  | some .formula => some (.formula, formula <$> Formula.Prefix.evaluate source attributes)
  | some .infixFormula =>
    some (.infixFormula, formula <$> Formula.Infix.evaluate source attributes)
  | _ => none

/-- The value of a piece, or in its place the piece as it is written. -/
def valueOf {σ : Type} (tag : Tag) (piece : Node) (evaluation : Eval σ View) :
    StateM σ (Reported View) := do
  match ← evaluation.run with
  | .ok value => return (value, [])
  | .error error => return (.text piece.toText, [error.report tag piece])

mutual

/-- One piece as it is shown; without a source no dice can be rolled. -/
def ofNode {σ : Type} (source : Option (Source σ)) : Node → StateM σ (Reported View)
  | .text value => return (.text value, [])
  | .group items => do
    let (items, reports) ← ofNodes source items
    return (.group items, reports)
  | .element name attributes children =>
    match evaluation? source name attributes children with
    | some (tag, evaluation) => valueOf tag (.element name attributes children) evaluation
    | none => do
      let (attributes, reports) ← ofNodes source attributes
      let (children, others) ← ofNodes source children
      return (.element name attributes children, reports ++ others)

def ofNodes {σ : Type} (source : Option (Source σ)) : List Node → StateM σ (Reported (List View))
  | [] => return ([], [])
  | piece :: pieces => do
    let (piece, reports) ← ofNode source piece
    let (pieces, others) ← ofNodes source pieces
    return (piece :: pieces, reports ++ others)

end

end View

/-- The document as it is shown, and the reports on what has no value. A fresh dice is rolled if
    there is a source. -/
def Document.view {σ : Type} (source : Option (Source σ)) (document : Document) :
    StateM σ (Reported (List View)) :=
  View.ofNodes source document

/-- The document as it is shown when no dice can be rolled. -/
def Document.viewStored (document : Document) : Reported (List View) :=
  (document.view (none : Option (Source Unit)) ()).1

namespace View

/-! ## What is evaluated -/

section Evaluation

variable {σ : Type} {source : Option (Source σ)} {name : String} {attributes children : List Node}

/-- Dice and formulas are evaluated, each in its own way. -/
theorem evaluation?_eq_some {tag : Tag} {evaluation : Eval σ View}
    (h : evaluation? source name attributes children = some (tag, evaluation)) :
    name = tag.name ∧
      (tag = .dice ∧ evaluation = dice <$> Dice.resolve source attributes children ∨
        tag = .formula ∧ evaluation = formula <$> Formula.Prefix.evaluate source attributes ∨
          tag = .infixFormula ∧
            evaluation = formula <$> Formula.Infix.evaluate source attributes) := by
  unfold evaluation? at h
  split at h
  · rename_i h_name
    obtain ⟨rfl, rfl⟩ := Prod.mk.inj (Option.some.inj h)
    exact ⟨Tag.ofName?_eq_some_iff.1 h_name, .inl ⟨rfl, rfl⟩⟩
  · rename_i h_name
    obtain ⟨rfl, rfl⟩ := Prod.mk.inj (Option.some.inj h)
    exact ⟨Tag.ofName?_eq_some_iff.1 h_name, .inr (.inl ⟨rfl, rfl⟩)⟩
  · rename_i h_name
    obtain ⟨rfl, rfl⟩ := Prod.mk.inj (Option.some.inj h)
    exact ⟨Tag.ofName?_eq_some_iff.1 h_name, .inr (.inr ⟨rfl, rfl⟩)⟩
  · exact absurd h (by simp)

/-- No other tags are evaluated. -/
theorem not_evaluated (h : evaluation? source name attributes children = none) :
    name ≠ Tag.dice.name ∧ name ≠ Tag.formula.name ∧ name ≠ Tag.infixFormula.name := by
  refine ⟨?_, ?_, ?_⟩ <;>
  · rintro rfl
    rw [evaluation?, Tag.ofName?_name] at h
    exact absurd h (by simp)

end Evaluation

end View

end DiceMarkup
