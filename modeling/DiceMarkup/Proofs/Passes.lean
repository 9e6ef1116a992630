/-
  DiceMarkup.Proofs.Passes

  Completing and baking a tree, each in one form for all of its pieces. What a
  tag makes of a text among its attributes depends on the tag: it is a formula
  where the tag keeps its text, and a text elsewhere. Here that is a parameter
  of the pass, so that an induction over a tree has one case for a text and one
  for an attribute. The two forms are equal.

  Pieces:
  * `Node.formulas` — the texts of the infix formulas of a tree
  * `Submission.piece`, `Baking.piece` — the passes over one piece
  * `Submission.nodes_eq`, `Baking.nodes_eq` — they are the passes
  * `Submission.pieces_congr`, `Baking.pieces_congr` — formulas alone are given to `formula`
-/
import DiceMarkup.Baking
import DiceMarkup.Proofs.Revision
import DiceMarkup.Submission

namespace DiceMarkup

open Rolling (Source)

namespace Node

/-! ## Formulas -/

mutual

/-- The texts of infix formulas; `raw` tells that a text is one. -/
def formulas (raw : Bool) : Node → List String
  | .text value => if raw then [value] else []
  | .group items => formulasAll false items
  | .element name attributes children =>
    if name = Tag.dice.name then []
    else formulasAll (keepsText name) attributes ++ formulasAll false children

def formulasAll (raw : Bool) : List Node → List String
  | [] => []
  | node :: nodes => formulas raw node ++ formulasAll raw nodes

end

end Node

open Node (formulas formulasAll keepsText)

/-- A tag keeps its text if it is the tag of infix formulas. -/
theorem keepsText_eq_true_iff {name : String} :
    keepsText name = true ↔ Tag.ofName? name = some .infixFormula := by
  rw [keepsText, Option.any_eq_true]
  constructor
  · rintro ⟨tag, h_name, h_raw⟩
    cases tag <;> first | exact h_name | exact absurd h_raw (by decide)
  · intro h_name
    exact ⟨.infixFormula, h_name, rfl⟩

theorem ne_dice_of_infixFormula {name : String} (h : Tag.ofName? name = some .infixFormula) :
    name ≠ Tag.dice.name := by
  rw [Tag.ofName?_eq_some_iff.1 h]
  decide

/-- No other name is that of a tag that keeps its text. -/
theorem keepsText_iff {name : String} : keepsText name = true ↔ name = Tag.infixFormula.name :=
  keepsText_eq_true_iff.trans Tag.ofName?_eq_some_iff

theorem keepsText_eq_false_iff {name : String} :
    keepsText name = false ↔ Tag.ofName? name ≠ some .infixFormula := by
  rw [← Bool.not_eq_true, not_iff_not]
  exact keepsText_eq_true_iff

/-! ## Completing -/

namespace Submission

mutual

/-- Completes one piece; `raw` tells that a text is the text of a formula. -/
def piece (formula : String → String) (raw : Bool) : Node → Node
  | .text value => .text (if raw then formula value else value)
  | .group items => .group (pieces formula false items)
  | .element name attributes children =>
    if name = Tag.dice.name then .element name (fullBounds attributes) []
    else .element name (pieces formula (keepsText name) attributes) (pieces formula false children)

def pieces (formula : String → String) (raw : Bool) : List Node → List Node
  | [] => []
  | node :: nodes => piece formula raw node :: pieces formula raw nodes

end

mutual

theorem node_eq (formula : String → String) : (n : Node) → node formula n = piece formula false n
  | .text value => by rw [node, piece, if_neg (by decide)]
  | .group items => by rw [node, piece, nodes_eq formula items]
  | .element name attributes children => by
    have h_attributes := nodes_eq formula attributes
    have h_texts := formulaTexts_eq formula attributes
    have h_children := nodes_eq formula children
    rw [node, piece]
    split
    · rename_i h_name
      rw [if_pos (Tag.ofName?_eq_some_iff.1 h_name)]
    · rename_i h_name
      rw [if_neg (ne_dice_of_infixFormula h_name), keepsText_eq_true_iff.2 h_name, h_texts,
        h_children]
    · rename_i h_dice h_infix
      rw [if_neg fun h_name => h_dice (Tag.ofName?_eq_some_iff.2 h_name),
        keepsText_eq_false_iff.2 h_infix, h_attributes, h_children]

theorem nodes_eq (formula : String → String) : (ns : List Node) →
    nodes formula ns = pieces formula false ns
  | [] => rfl
  | n :: ns => by rw [nodes, pieces, node_eq formula n, nodes_eq formula ns]

theorem formulaTexts_eq (formula : String → String) : (as : List Node) →
    formulaTexts formula as = pieces formula true as
  | [] => rfl
  -- Only here does the pass over a formula differ from the pass over other attributes.
  | .text raw :: as => by
    rw [formulaTexts, pieces, piece, if_pos rfl, formulaTexts_eq formula as]
  | .group items :: as => by
    rw [formulaTexts, pieces, node_eq formula (.group items), piece, piece,
      formulaTexts_eq formula as]
    simp
  | .element name cs ds :: as => by
    rw [formulaTexts, pieces, node_eq formula (.element name cs ds), piece, piece,
      formulaTexts_eq formula as]
    simp

end

/-! ### Formulas alone are completed -/

mutual

theorem piece_congr {f g : String → String} (raw : Bool) : (node : Node) →
    (∀ inner ∈ formulas raw node, f inner = g inner) → piece f raw node = piece g raw node
  | .text value => by
    intro h
    rw [piece, piece]
    cases raw with
    | false => rfl
    | true => rw [if_pos rfl, if_pos rfl, h value (by simp [formulas])]
  | .group items => by
    have ih := pieces_congr (f := f) (g := g) false items
    intro h
    rw [piece, piece, ih h]
  | .element name attributes children => by
    have ih_attributes := pieces_congr (f := f) (g := g) (keepsText name) attributes
    have ih_children := pieces_congr (f := f) (g := g) false children
    intro h
    rw [piece, piece]
    split
    · rfl
    · rename_i h_name
      rw [formulas, if_neg h_name, List.forall_mem_append] at h
      rw [ih_attributes h.1, ih_children h.2]

theorem pieces_congr {f g : String → String} (raw : Bool) : (nodes : List Node) →
    (∀ inner ∈ formulasAll raw nodes, f inner = g inner) → pieces f raw nodes = pieces g raw nodes
  | [] => fun _ => rfl
  | node :: nodes => by
    have ih_node := piece_congr (f := f) (g := g) raw node
    have ih_nodes := pieces_congr (f := f) (g := g) raw nodes
    intro h
    rw [formulasAll, List.forall_mem_append] at h
    rw [pieces, pieces, ih_node h.1, ih_nodes h.2]

end

end Submission

/-! ## Baking -/

namespace Baking

variable {σ : Type}

mutual

/-- Bakes one piece; `raw` tells that a text is the text of a formula. -/
def piece (source : Source σ) (formula : String → StateM σ (Reported String)) (raw : Bool) :
    Node → StateM σ (Reported Node)
  | .text value =>
    if raw then do
      let (value, reports) ← formula value
      return (.text value, reports)
    else return (.text value, [])
  | .group items => do
    let (items, reports) ← pieces source formula false items
    return (.group items, reports)
  | .element name attributes children =>
    if name = Tag.dice.name then dice source name attributes children
    else do
      let (attributes, reports) ← pieces source formula (keepsText name) attributes
      let (children, others) ← pieces source formula false children
      return (.element name attributes children, reports ++ others)

def pieces (source : Source σ) (formula : String → StateM σ (Reported String)) (raw : Bool) :
    List Node → StateM σ (Reported (List Node))
  | [] => return ([], [])
  | node :: nodes => do
    let (node, reports) ← piece source formula raw node
    let (nodes, others) ← pieces source formula raw nodes
    return (node :: nodes, reports ++ others)

end

variable (source : Source σ) (formula : String → StateM σ (Reported String))

mutual

theorem node_eq : (n : Node) → node source formula n = piece source formula false n
  | .text value => by rw [node, piece, if_neg (by decide)]
  | .group items => by rw [node, piece, nodes_eq items]
  | .element name attributes children => by
    have h_attributes := nodes_eq attributes
    have h_texts := formulaTexts_eq attributes
    have h_children := nodes_eq children
    rw [node, piece]
    split
    · rename_i h_name
      rw [if_pos (Tag.ofName?_eq_some_iff.1 h_name)]
    · rename_i h_name
      rw [if_neg (ne_dice_of_infixFormula h_name), keepsText_eq_true_iff.2 h_name, h_texts,
        h_children]
    · rename_i h_dice h_infix
      rw [if_neg fun h_name => h_dice (Tag.ofName?_eq_some_iff.2 h_name),
        keepsText_eq_false_iff.2 h_infix, h_attributes, h_children]

theorem nodes_eq : (ns : List Node) → nodes source formula ns = pieces source formula false ns
  | [] => rfl
  | n :: ns => by rw [nodes, pieces, node_eq n, nodes_eq ns]

theorem formulaTexts_eq : (as : List Node) →
    formulaTexts source formula as = pieces source formula true as
  | [] => rfl
  -- Again a text is a formula here, and is baked elsewhere as it is.
  | .text raw :: as => by
    rw [formulaTexts, pieces, piece, if_pos rfl, formulaTexts_eq as]
    rfl
  | .group items :: as => by
    rw [formulaTexts, pieces, node_eq (.group items), piece, piece, formulaTexts_eq as]
    all_goals simp
  | .element name cs ds :: as => by
    rw [formulaTexts, pieces, node_eq (.element name cs ds), piece, piece, formulaTexts_eq as]
    all_goals simp

end

/-! ### From a state to a state -/

theorem pieces_cons_run (raw : Bool) (node : Node) (nodes : List Node) (state : σ) :
    pieces source formula raw (node :: nodes) state =
      let first := piece source formula raw node state
      let rest := pieces source formula raw nodes first.2
      ((first.1.1 :: rest.1.1, first.1.2 ++ rest.1.2), rest.2) := by
  rw [pieces]
  rfl

theorem piece_group_run (raw : Bool) (items : List Node) (state : σ) :
    piece source formula raw (.group items) state =
      let inside := pieces source formula false items state
      ((.group inside.1.1, inside.1.2), inside.2) := by
  rw [piece]
  rfl

theorem piece_formula_run (raw : String) (state : σ) :
    piece source formula true (.text raw) state =
      let baked := formula raw state
      ((.text baked.1.1, baked.1.2), baked.2) := by
  rw [piece]
  rfl

/-- The children of a tag are baked from the state that its attributes leave. -/
theorem piece_element_run (raw : Bool) {name : String} (h_name : name ≠ Tag.dice.name)
    (as cs : List Node) (state : σ) :
    piece source formula raw (.element name as cs) state =
      let attributes := pieces source formula (keepsText name) as state
      let children := pieces source formula false cs attributes.2
      ((.element name attributes.1.1 children.1.1, attributes.1.2 ++ children.1.2),
        children.2) := by
  rw [piece, if_neg h_name]
  rfl

/-! ### Formulas alone are baked -/

variable {source}

mutual

theorem piece_congr {f g : String → StateM σ (Reported String)} (raw : Bool) : (node : Node) →
    (∀ inner ∈ formulas raw node, f inner = g inner) →
      piece source f raw node = piece source g raw node
  | .text value => by
    intro h
    rw [piece, piece]
    cases raw with
    | false => rfl
    | true => rw [if_pos rfl, if_pos rfl, h value (by simp [formulas])]
  | .group items => by
    have ih := pieces_congr (f := f) (g := g) false items
    intro h
    rw [piece, piece, ih h]
  | .element name attributes children => by
    have ih_attributes := pieces_congr (f := f) (g := g) (keepsText name) attributes
    have ih_children := pieces_congr (f := f) (g := g) false children
    intro h
    rw [piece, piece]
    split
    · rfl
    · rename_i h_name
      rw [formulas, if_neg h_name, List.forall_mem_append] at h
      rw [ih_attributes h.1, ih_children h.2]

theorem pieces_congr {f g : String → StateM σ (Reported String)} (raw : Bool) :
    (nodes : List Node) → (∀ inner ∈ formulasAll raw nodes, f inner = g inner) →
      pieces source f raw nodes = pieces source g raw nodes
  | [] => fun _ => rfl
  | node :: nodes => by
    have ih_node := piece_congr (f := f) (g := g) raw node
    have ih_nodes := pieces_congr (f := f) (g := g) raw nodes
    intro h
    rw [formulasAll, List.forall_mem_append] at h
    rw [pieces, pieces, ih_node h.1, ih_nodes h.2]

end

end Baking

end DiceMarkup
