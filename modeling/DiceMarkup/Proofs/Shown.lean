/-
  DiceMarkup.Proofs.Shown

  What is shown of a document. A view has the shape of the document, but for
  dice and formulas: each of them is its result or, if it has none, the text
  that it is written with. For every such text there is one report, and there
  are no other reports. A dice in a formula is not shown on its own, and an
  error in a formula is an error of the whole formula.

  Pieces:
  * `View.Fails` — a dice or a formula without a result
  * `View.Shows`, `View.ShowsAll` — what is shown of a tree, and the reports on it
  * `View.ofNodes_shows` — views show that
  * `View.toNode?` — a view without results, as the tree that it is
  * `Document.view_shows` — whole documents
-/
import DiceMarkup.View
import Mathlib

namespace DiceMarkup

open Rolling (Source)

namespace View

/-! ## What is shown of a tree -/

section Shows

variable {σ : Type} (reader : Option (Source σ))

/-- From one state of the source to another, a dice or a formula fails for this cause. -/
def Fails (tag : Tag) (attributes children : List Node) (error : EvalError) (s s' : σ) : Prop :=
  match tag with
  | .dice => (Dice.resolve reader attributes children).run s = (.error error, s')
  | .formula => (Formula.Prefix.evaluate reader attributes).run s = (.error error, s')
  | .infixFormula => (Formula.Infix.evaluate reader attributes).run s = (.error error, s')
  | _ => False

mutual

/-- A piece, what is shown of it from a state of the source, the reports on it in the order of the
    text, and the state after it. -/
inductive Shows : σ → Node → View → List Diagnostic → σ → Prop
  | text {s : σ} (value : String) : Shows s (.text value) (.text value) [] s
  | group {s s' : σ} {items : List Node} {shown : List View} {reports : List Diagnostic}
      (h_items : ShowsAll s items shown reports s') :
      Shows s (.group items) (.group shown) reports s'
  | element {s s' s'' : σ} {name : String} {attributes children : List Node}
      {shown others : List View} {reports reports' : List Diagnostic}
      (h_dice : name ≠ Tag.dice.name) (h_formula : name ≠ Tag.formula.name)
      (h_infixTag : name ≠ Tag.infixFormula.name)
      (h_attributes : ShowsAll s attributes shown reports s')
      (h_children : ShowsAll s' children others reports' s'') :
      Shows s (.element name attributes children) (.element name shown others)
        (reports ++ reports') s''
  | dice {s s' : σ} {attributes children : List Node} {roll : Roll}
      (h_roll : (Dice.resolve reader attributes children).run s = (.ok roll, s')) :
      Shows s (.element Tag.dice.name attributes children) (.dice roll) [] s'
  | formula {s s' : σ} {attributes children : List Node} {result : Formula.Result}
      (h_result : (Formula.Prefix.evaluate reader attributes).run s = (.ok result, s')) :
      Shows s (.element Tag.formula.name attributes children) (.formula result) [] s'
  | infixFormula {s s' : σ} {attributes children : List Node} {result : Formula.Result}
      (h_result : (Formula.Infix.evaluate reader attributes).run s = (.ok result, s')) :
      Shows s (.element Tag.infixFormula.name attributes children) (.formula result) [] s'
  /-- A dice or a formula that fails is shown as it is written, and reported once. -/
  | fallback {s s' : σ} {tag : Tag} {attributes children : List Node} {error : EvalError}
      {report : Diagnostic} (h_fails : Fails reader tag attributes children error s s')
      (h_severity : report.severity = .error) (h_message : report.message = error.message)
      (h_snippet : report.snippet = (Node.element tag.name attributes children).toText) :
      Shows s (.element tag.name attributes children)
        (.text (Node.element tag.name attributes children).toText) [report] s'

/-- The same for pieces one after the other. -/
inductive ShowsAll : σ → List Node → List View → List Diagnostic → σ → Prop
  | nil {s : σ} : ShowsAll s [] [] [] s
  | cons {s s' s'' : σ} {node : Node} {nodes : List Node} {shown : View} {others : List View}
      {reports reports' : List Diagnostic} (h_node : Shows s node shown reports s')
      (h_nodes : ShowsAll s' nodes others reports' s'') :
      ShowsAll s (node :: nodes) (shown :: others) (reports ++ reports') s''

end

end Shows

/-! ## Views -/

section Views

variable {σ : Type} {reader : Option (Source σ)}

/-- An evaluation whose value is put into a view has the errors that it had. -/
theorem run_map {α : Type} (f : α → View) (x : Eval σ α) (s : σ) :
    (f <$> x).run s = ((x.run s).1.map f, (x.run s).2) := by
  rw [map_eq_pure_bind, ExceptT.run_bind]
  cases h : x.run s with
  | mk outcome state => cases outcome <;> simp [bind, StateT.bind, h, Except.map] <;> rfl

theorem valueOf_ok {tag : Tag} {piece : Node} {evaluation : Eval σ View} {shown : View} {s s' : σ}
    (h : evaluation.run s = (.ok shown, s')) :
    valueOf tag piece evaluation s = ((shown, []), s') := by
  unfold valueOf
  simp [bind, StateT.bind, h, pure, StateT.pure]

theorem valueOf_error {tag : Tag} {piece : Node} {evaluation : Eval σ View} {error : EvalError}
    {s s' : σ} (h : evaluation.run s = (.error error, s')) :
    valueOf tag piece evaluation s = ((.text piece.toText, [error.report tag piece]), s') := by
  unfold valueOf
  simp [bind, StateT.bind, h, pure, StateT.pure]

/-- A tag whose evaluation puts its value into a view is shown by the value, or it is reported. -/
theorem valueOf_shows {α : Type} {tag : Tag} {attributes children : List Node} {f : α → View}
    {x : Eval σ α} (s : σ)
    (h_ok : ∀ a s', x.run s = (.ok a, s') →
      Shows reader s (.element tag.name attributes children) (f a) [] s')
    (h_error : ∀ error s', x.run s = (.error error, s') →
      Fails reader tag attributes children error s s') :
    let shown := valueOf tag (.element tag.name attributes children) (f <$> x) s
    Shows reader s (.element tag.name attributes children) shown.1.1 shown.1.2 shown.2 := by
  have h_map := run_map f x s
  cases h : x.run s with
  | mk outcome s' =>
    rw [h] at h_map
    cases outcome with
    | ok a =>
      rw [valueOf_ok h_map]
      exact h_ok a s' h
    | error error =>
      rw [valueOf_error h_map]
      exact .fallback (h_error error s' h) rfl rfl rfl

/-- A dice or a formula is shown by its value, or it is reported. -/
theorem evaluation?_shows {name : String} {attributes children : List Node} {tag : Tag}
    {evaluation : Eval σ View}
    (h : evaluation? reader name attributes children = some (tag, evaluation)) (s : σ) :
    let shown := valueOf tag (.element name attributes children) evaluation s
    Shows reader s (.element name attributes children) shown.1.1 shown.1.2 shown.2 := by
  obtain ⟨rfl, ⟨rfl, rfl⟩ | ⟨rfl, rfl⟩ | ⟨rfl, rfl⟩⟩ := evaluation?_eq_some h
  · exact valueOf_shows s (fun _ _ h_roll => .dice h_roll) fun _ _ h_error => h_error
  · exact valueOf_shows s (fun _ _ h_result => .formula h_result) fun _ _ h_error => h_error
  · exact valueOf_shows s (fun _ _ h_result => .infixFormula h_result) fun _ _ h_error => h_error

mutual

/-- Each piece is shown as what it is, wherever the source stands. -/
theorem ofNode_shows : (piece : Node) → ∀ s : σ, Shows reader s piece
    (ofNode reader piece s).1.1 (ofNode reader piece s).1.2 (ofNode reader piece s).2
  | .text value => fun _ => by
    rw [ofNode]
    exact .text value
  | .group items => by
    have ih := ofNodes_shows items
    intro s
    rw [ofNode]
    exact .group (ih s)
  | .element name attributes children => by
    have ih_attributes := ofNodes_shows attributes
    have ih_children := ofNodes_shows children
    intro s
    cases h : evaluation? reader name attributes children with
    | some found =>
      obtain ⟨tag, evaluation⟩ := found
      rw [ofNode, h]
      exact evaluation?_shows h s
    | none =>
      obtain ⟨h_dice, h_formula, h_infixTag⟩ := not_evaluated h
      rw [ofNode, h]
      -- The children are shown from the state that the attributes leave.
      exact .element h_dice h_formula h_infixTag (ih_attributes s)
        (ih_children (ofNodes reader attributes s).2)

theorem ofNodes_shows : (pieces : List Node) → ∀ s : σ, ShowsAll reader s pieces
    (ofNodes reader pieces s).1.1 (ofNodes reader pieces s).1.2 (ofNodes reader pieces s).2
  | [] => fun _ => by
    rw [ofNodes]
    exact .nil
  | piece :: pieces => by
    have ih_piece := ofNode_shows piece
    have ih_pieces := ofNodes_shows pieces
    intro s
    rw [ofNodes]
    exact .cons (ih_piece s) (ih_pieces (ofNode reader piece s).2)

end

end Views

/-! ## Views without results -/

mutual

/-- The tree that a view is, if nothing in it is a result. -/
def toNode? : View → Option Node
  | .text value => some (.text value)
  | .element name attributes children => do
    return .element name (← toNodes? attributes) (← toNodes? children)
  | .group items => do return .group (← toNodes? items)
  | .dice _ => none
  | .formula _ => none

def toNodes? : List View → Option (List Node)
  | [] => some []
  | view :: views => do return (← toNode? view) :: (← toNodes? views)

end

section Written

variable {σ : Type} {reader : Option (Source σ)}

mutual

/-- A piece that is shown without a result is written like the piece. -/
theorem Shows.write_eq {s s' : σ} {piece : Node} {shown : View} {reports : List Diagnostic} :
    Shows reader s piece shown reports s' →
      ∀ node, shown.toNode? = some node → node.write = piece.write
  | .text value => by
    intro node h
    rw [← Option.some.inj h]
  | .group h_items => by
    have ih := h_items.write_eq
    intro node h
    rw [toNode?] at h
    obtain ⟨others, h_others, h⟩ := Option.bind_eq_some_iff.1 h
    obtain rfl := Option.some.inj h
    exact Node.write_group_congr (ih others h_others)
  | .element _ _ _ h_attributes h_children => by
    have ih_attributes := h_attributes.write_eq
    have ih_children := h_children.write_eq
    intro node h
    rw [toNode?] at h
    obtain ⟨attributes, h_first, h⟩ := Option.bind_eq_some_iff.1 h
    obtain ⟨children, h_second, h⟩ := Option.bind_eq_some_iff.1 h
    obtain rfl := Option.some.inj h
    exact Node.write_element_congr _ (ih_attributes _ h_first) (ih_children _ h_second)
  | .dice _ => fun _ h => absurd h (by simp [toNode?])
  | .formula _ => fun _ h => absurd h (by simp [toNode?])
  | .infixFormula _ => fun _ h => absurd h (by simp [toNode?])
  | .fallback _ _ _ _ => by
    intro node h
    rw [← Option.some.inj h, Node.write, Node.toText, String.toList_ofList]

theorem ShowsAll.write_eq {s s' : σ} {pieces : List Node} {shown : List View}
    {reports : List Diagnostic} : ShowsAll reader s pieces shown reports s' →
      ∀ nodes, toNodes? shown = some nodes → nodes.map Node.write = pieces.map Node.write
  | .nil => by
    intro nodes h
    rw [← Option.some.inj h]
  | .cons h_node h_nodes => by
    have ih_node := h_node.write_eq
    have ih_nodes := h_nodes.write_eq
    intro nodes h
    rw [toNodes?] at h
    obtain ⟨first, h_first, h⟩ := Option.bind_eq_some_iff.1 h
    obtain ⟨others, h_others, h⟩ := Option.bind_eq_some_iff.1 h
    obtain rfl := Option.some.inj h
    rw [List.map_cons, List.map_cons, ih_node first h_first, ih_nodes others h_others]

end

end Written

end View

/-- A view has the shape of its document. Each dice and each formula is its result, or the text that
    it is written with; for each such text there is one report, with the text and as an error, and
    there is no other report. Where nothing has a result, the view is written like the document. -/
theorem Document.view_shows {σ : Type} (reader : Option (Source σ)) (document : Document) (s : σ) :
    let ((shown, reports), s') := document.view reader s
    View.ShowsAll reader s document shown reports s' ∧
      ∀ nodes, View.toNodes? shown = some nodes → Document.toText nodes = document.toText := by
  have h_shows := @View.ofNodes_shows σ reader document s
  refine ⟨h_shows, fun nodes h_nodes => ?_⟩
  rw [Document.toText, Document.toText, Node.writeAll_eq, Node.writeAll_eq,
    h_shows.write_eq nodes h_nodes]

/-- Without a source a fresh dice and the formulas around one are shown as they are written. -/
theorem Document.view_shows_unrolled :
    let dice : Node := .element "dice" [.text "1", .text "6"] []
    let sum : Node := .element "calc" [.group [.text "+", dice, dice]] []
    let document : Document := [.text "hit: ", dice, .element "clr" [.group [dice]] [sum]]
    let shown := (document.view (none : Option (Source Unit)) ()).1.1
    let nodes : List Node := [.text "hit: ", .text dice.toText,
      .element "clr" [.group [.text dice.toText]] [.text sum.toText]]
    View.toNodes? shown = some nodes ∧ Document.toText nodes = document.toText := by
  intro dice sum document shown nodes
  have h_nodes : View.toNodes? shown = some nodes := rfl
  exact ⟨h_nodes, (Document.view_shows none document ()).2 nodes h_nodes⟩

end DiceMarkup
