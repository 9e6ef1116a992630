/-
  DiceMarkup.Proofs.Rolls

  The rolls that a tree holds. They are listed in the order of the text, with
  those in the texts of infix formulas; what stands among the attributes of a
  dice is no dice of the document.

  Pieces:
  * `Document.storedRolls` — the rolls of a document, computed
  * `Node.Holds`, `HoldsAll` — a tree without fresh dice, and its rolls
-/
import DiceMarkup.Dice
import DiceMarkup.Proofs.Nesting

namespace DiceMarkup

namespace Node

/-! ## Rolls -/

/-- The result that a dice holds, if it holds one within its bounds. -/
def rollOf (attributes children : List Node) : List Roll :=
  match Dice.classify attributes children with
  | .ok (.stored roll) => [roll]
  | _ => []

mutual

/-- The rolls of a tree; `formula` lists those of the text of a formula. -/
def rolls (formula : String → List Roll) (raw : Bool) : Node → List Roll
  | .text value => if raw then formula value else []
  | .group items => rollsAll formula false items
  | .element name attributes children =>
    if name = Tag.dice.name then rollOf attributes children
    else rollsAll formula (keepsText name) attributes ++ rollsAll formula false children

def rollsAll (formula : String → List Roll) (raw : Bool) : List Node → List Roll
  | [] => []
  | node :: nodes => rolls formula raw node ++ rollsAll formula raw nodes

end

/-- The rolls in the text of a formula, and in the formulas within it to so many levels. -/
def rollsToDepth : Nat → String → List Roll
  | 0, _ => []
  | levels + 1, raw => rollsAll (rollsToDepth levels) false (Document.parse raw)

end Node

/-- The rolls that a document holds, in the order of the text. A formula within a formula is shorter
    than the one around it, so there are no more levels than characters. -/
def Document.storedRolls (document : Document) : List Roll :=
  Node.rollsAll (fun raw => Node.rollsToDepth raw.length raw) false document

/-- What a call to a source comes to: the answer, brought into the bounds. -/
def Rolling.Call.roll (call : Rolling.Call) : Roll :=
  ⟨call.min, call.max, Dice.clamp call.min call.max call.returned⟩

namespace Node

/-! ## Trees without fresh dice -/

mutual

/-- No dice of the tree waits to be rolled, and these are the rolls that it holds. -/
inductive Holds : Bool → Node → List Roll → Prop
  | text (value : String) : Holds false (.text value) []
  | formula {raw : String} {found : List Roll}
      (h_rolls : HoldsAll false (Document.parse raw) found) : Holds true (.text raw) found
  | group {raw : Bool} {items : List Node} {found : List Roll}
      (h_items : HoldsAll false items found) :
      Holds raw (.group items) found
  | stored {raw : Bool} {as cs : List Node} {roll : Roll}
      (h_dice : Dice.classify as cs = .ok (.stored roll)) :
      Holds raw (.element Tag.dice.name as cs) [roll]
  | invalid {raw : Bool} {as cs : List Node} {error : EvalError}
      (h_dice : Dice.classify as cs = .error error) : Holds raw (.element Tag.dice.name as cs) []
  | element {raw : Bool} {name : String} {as cs : List Node} {found others : List Roll}
      (h_name : name ≠ Tag.dice.name) (h_attributes : HoldsAll (keepsText name) as found)
      (h_children : HoldsAll false cs others) : Holds raw (.element name as cs) (found ++ others)

inductive HoldsAll : Bool → List Node → List Roll → Prop
  | nil {raw : Bool} : HoldsAll raw [] []
  | cons {raw : Bool} {node : Node} {nodes : List Node} {found others : List Roll}
      (h_node : Holds raw node found) (h_nodes : HoldsAll raw nodes others) :
      HoldsAll raw (node :: nodes) (found ++ others)

end

/-- The formula is searched to a depth that is enough for it. -/
def Searches (formula : String → List Roll) (raw : String) : Prop :=
  ∃ levels, raw.length ≤ levels ∧ formula raw = rollsToDepth levels raw

mutual

/-- The rolls that a tree holds are the ones that are listed for it. -/
theorem Holds.rolls_eq (formula : String → List Roll) {raw : Bool} {node : Node}
    {found : List Roll} :
    Holds raw node found → (∀ inner ∈ formulas raw node, Searches formula inner) →
      rolls formula raw node = found
  | .text _ => fun _ => by rw [rolls, if_neg (by decide)]
  | @Holds.formula written _ h_rolls => by
    have ih := fun search => h_rolls.rollsAll_eq search
    intro h_formulas
    -- Whatever depth the formula is searched to, it is enough; one level less is enough for the
    -- formulas within it, which are shorter.
    obtain ⟨levels, h_levels, h_formula⟩ := h_formulas written (by simp [formulas])
    rw [rolls, if_pos rfl, h_formula]
    cases levels with
    | zero =>
      have h_empty := Document.parse_of_length (Nat.le_zero.1 h_levels)
      rw [h_empty] at h_rolls
      cases h_rolls
      rfl
    | succ levels =>
      refine ih _ fun inner h_inner => ⟨levels, ?_, rfl⟩
      have h_less := Document.length_lt_of_mem h_inner
      omega
  | .group h_items => by
    have ih := h_items.rollsAll_eq formula
    intro h_formulas
    rw [rolls]
    exact ih h_formulas
  | .stored h_dice => fun _ => by rw [rolls, if_pos rfl, rollOf, h_dice]
  | .invalid h_dice => fun _ => by rw [rolls, if_pos rfl, rollOf, h_dice]
  | .element h_name h_attributes h_children => by
    have ih_attributes := h_attributes.rollsAll_eq formula
    have ih_children := h_children.rollsAll_eq formula
    intro h_formulas
    rw [formulas, if_neg h_name, List.forall_mem_append] at h_formulas
    rw [rolls, if_neg h_name, ih_attributes h_formulas.1, ih_children h_formulas.2]

theorem HoldsAll.rollsAll_eq (formula : String → List Roll) {raw : Bool} {nodes : List Node}
    {found : List Roll} :
    HoldsAll raw nodes found → (∀ inner ∈ formulasAll raw nodes, Searches formula inner) →
      rollsAll formula raw nodes = found
  | .nil => fun _ => rfl
  | .cons h_node h_nodes => by
    have ih_node := h_node.rolls_eq formula
    have ih_nodes := h_nodes.rollsAll_eq formula
    intro h_formulas
    rw [formulasAll, List.forall_mem_append] at h_formulas
    rw [rollsAll, ih_node h_formulas.1, ih_nodes h_formulas.2]

end

/-- The rolls of a document without fresh dice are the ones that it holds. -/
theorem HoldsAll.storedRolls_eq {document : Document} {found : List Roll}
    (h : HoldsAll false document found) : document.storedRolls = found :=
  h.rollsAll_eq _ fun inner _ => ⟨inner.length, Nat.le_refl _, rfl⟩

end Node

end DiceMarkup
