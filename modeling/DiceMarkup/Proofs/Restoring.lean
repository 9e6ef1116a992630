/-
  DiceMarkup.Proofs.Restoring

  Unbaking undoes baking. A canonical document whose dice await their rolls is
  baked, written, read and unbaked. What is written in the end is the document
  itself, but that the dice in its formulas keep their results.

  What is to be written is told by a pass of its own: it rolls every dice in the
  order of the text, as baking does, and keeps the results in formulas alone. The
  two passes go on from the same states, so that they agree on every result for
  any source. Reading the baked document is no loss, because it is canonical too.

  Pieces:
  * `Node.awaitsRolls` — every dice can be rolled, and no text of a formula has a tag
  * `Node.rollFormulas` — the pass that rolls all dice and keeps results in formulas
  * `Node.rollFormulasAll_eq_self` — it keeps nothing if there are no dice in formulas
  * `Baking.pieces_rolled` — it is baking, and unbaking outside of formulas
  * `Baking.pieces_keepForm` — baking keeps a document canonical
  * `Document.unbakedText_bake` — unbaking undoes baking outside of formulas
-/
import DiceMarkup.Proofs.Bounds
import DiceMarkup.Proofs.Nesting
import DiceMarkup.Proofs.Respelling
import DiceMarkup.Proofs.Unbaking

namespace DiceMarkup

open Node (isFormula keepsText unbakedAll)
open Rolling (Source)

/-! ## Documents that await their rolls -/

namespace Node

/-- Two whole numbers, the lower one first. -/
def holdsBounds : List Node → Bool
  | [.text lower, .text upper] =>
    match Numeral.readInt64? lower, Numeral.readInt64? upper with
    | some min, some max => decide (min ≤ max)
    | _, _ => false
  | _ => false

mutual

/-- Every dice has bounds in order and no result, and no formula has a bracket in its text; `raw`
    tells that a text is one. -/
def awaitsRolls (raw : Bool) : Node → Bool
  | .text value => !raw || value.toList.all fun c => c != '[' && c != ']'
  | .group items => awaitsRollsAll false items
  | .element name attributes children =>
    if name = Tag.dice.name then holdsBounds attributes && children.isEmpty
    else awaitsRollsAll (keepsText name) attributes && awaitsRollsAll false children

def awaitsRollsAll (raw : Bool) : List Node → Bool
  | [] => true
  | node :: nodes => awaitsRolls raw node && awaitsRollsAll raw nodes

end

mutual

/-- No dice stands in a formula. -/
def sparesFormulas (inFormula : Bool) : Node → Bool
  | .text _ => true
  | .group items => sparesFormulasAll inFormula items
  | .element name attributes children =>
    if name = Tag.dice.name then !inFormula
    else sparesFormulasAll (inFormula || isFormula name) attributes &&
      sparesFormulasAll (inFormula || isFormula name) children

def sparesFormulasAll (inFormula : Bool) : List Node → Bool
  | [] => true
  | node :: nodes => sparesFormulas inFormula node && sparesFormulasAll inFormula nodes

end

theorem exists_bounds {attributes : List Node} (h : holdsBounds attributes = true) :
    ∃ min max, Dice.bounds attributes = .ok (min, max) := by
  unfold holdsBounds at h
  split at h
  · rename_i lower upper
    split at h
    · rename_i min max h_lower h_upper
      have h_order : ¬ max < min := by
        rw [decide_eq_true_eq, Int64.le_iff_toInt_le] at h
        rw [Int64.lt_iff_toInt_lt]
        omega
      refine ⟨min, max, ?_⟩
      simp only [Dice.bounds, Dice.bound, h_lower, h_upper, bind, Except.bind, if_neg h_order]
    · exact absurd h (by simp)
  · exact absurd h (by simp)

/-! ## Rolling every dice -/

variable {σ : Type} (source : Source σ)

mutual

/-- Rolls every dice of a tree in the order of the text. The dice in formulas keep their results,
    and the others stay as they are. -/
def rollFormulas (inFormula : Bool) : Node → StateM σ Node
  | .text value => return .text value
  | .group items => do
    let items ← rollFormulasAll inFormula items
    return .group items
  | .element name attributes children =>
    if name = Tag.dice.name then
      match Dice.bounds attributes with
      | .error _ => return .element name attributes children
      | .ok (min, max) => do
        let roll ← Dice.roll source min max
        return .element name attributes
          (if inFormula then [.text (Numeral.writeInt64 roll.result)] else children)
    else do
      let attributes ← rollFormulasAll (inFormula || isFormula name) attributes
      let children ← rollFormulasAll (inFormula || isFormula name) children
      return .element name attributes children

def rollFormulasAll (inFormula : Bool) : List Node → StateM σ (List Node)
  | [] => return []
  | node :: nodes => do
    let node ← rollFormulas inFormula node
    let nodes ← rollFormulasAll inFormula nodes
    return node :: nodes

end

theorem rollFormulasAll_cons_run (inFormula : Bool) (node : Node) (nodes : List Node) (state : σ) :
    rollFormulasAll source inFormula (node :: nodes) state =
      let first := rollFormulas source inFormula node state
      let rest := rollFormulasAll source inFormula nodes first.2
      (first.1 :: rest.1, rest.2) := by
  rw [rollFormulasAll]
  rfl

theorem rollFormulas_group_run (inFormula : Bool) (items : List Node) (state : σ) :
    rollFormulas source inFormula (.group items) state =
      let inside := rollFormulasAll source inFormula items state
      (.group inside.1, inside.2) := by
  rw [rollFormulas]
  rfl

/-- The children of a tag are rolled from the state that its attributes leave. -/
theorem rollFormulas_element_run (inFormula : Bool) {name : String} (h_name : name ≠ Tag.dice.name)
    (as cs : List Node) (state : σ) :
    rollFormulas source inFormula (.element name as cs) state =
      let attributes := rollFormulasAll source (inFormula || isFormula name) as state
      let children := rollFormulasAll source (inFormula || isFormula name) cs attributes.2
      (.element name attributes.1 children.1, children.2) := by
  rw [rollFormulas, if_neg h_name]
  rfl

theorem rollFormulas_dice_run (inFormula : Bool) {attributes : List Node} {min max : Int64}
    (h : Dice.bounds attributes = .ok (min, max)) (state : σ) :
    rollFormulas source inFormula (.element Tag.dice.name attributes []) state =
      let rolled := Dice.roll source min max state
      (.element Tag.dice.name attributes
        (if inFormula then [.text (Numeral.writeInt64 rolled.1.result)] else []), rolled.2) := by
  rw [rollFormulas, if_pos rfl, h]
  rfl

mutual

/-- If no dice stands in a formula, no result is kept. -/
theorem rollFormulas_eq_self (inFormula : Bool) : (node : Node) →
    sparesFormulas inFormula node = true → ∀ state,
      (rollFormulas source inFormula node state).1 = node
  | .text value => fun _ _ => by
    rw [rollFormulas]
    rfl
  | .group items => by
    have ih := rollFormulasAll_eq_self inFormula items
    intro h state
    rw [sparesFormulas] at h
    rw [rollFormulas_group_run]
    dsimp only
    rw [ih h]
  | .element name as cs => by
    have ih_attributes := rollFormulasAll_eq_self (inFormula || isFormula name) as
    have ih_children := rollFormulasAll_eq_self (inFormula || isFormula name) cs
    intro h state
    rw [sparesFormulas] at h
    by_cases h_dice : name = Tag.dice.name
    · rw [if_pos h_dice, Bool.not_eq_true'] at h
      rw [rollFormulas, if_pos h_dice]
      -- The dice is rolled if it can be, and outside of formulas it stays as it is all the same.
      cases Dice.bounds as with
      | error error => rfl
      | ok found =>
        rw [h]
        rfl
    · rw [if_neg h_dice, Bool.and_eq_true] at h
      rw [rollFormulas_element_run source inFormula h_dice]
      dsimp only
      rw [ih_attributes h.1, ih_children h.2]

theorem rollFormulasAll_eq_self (inFormula : Bool) : (nodes : List Node) →
    sparesFormulasAll inFormula nodes = true →
      ∀ state, (rollFormulasAll source inFormula nodes state).1 = nodes
  | [] => fun _ _ => by
    rw [rollFormulasAll]
    rfl
  | node :: nodes => by
    have ih_node := rollFormulas_eq_self inFormula node
    have ih_nodes := rollFormulasAll_eq_self inFormula nodes
    intro h state
    rw [sparesFormulasAll, Bool.and_eq_true] at h
    rw [rollFormulasAll_cons_run]
    dsimp only
    rw [ih_node h.1, ih_nodes h.2]

end

end Node

open Node (awaitsRolls awaitsRollsAll canonical canonicalAll height heightAll isElement isRaw
  isStored rollFormulas rollFormulasAll sparesFormulas sparesFormulasAll)

/-! ## One step of baking -/

/-- A text without a bracket is read as a text. -/
theorem Document.parse_of_no_bracket {raw : String} (h : ∀ c ∈ raw.toList, c ≠ '[') :
    parse raw = Rules.flush raw.toList := by
  have h_pieces : Rules.PiecesAt true nestingLimit [] (raw.toList ++ [])
      (raw.toList.map .plain ++ [])
      false [] :=
    Rules.piecesAt_text (Rules.isQuiet_of_no_bracket h) .nil
  rw [List.append_nil] at h_pieces
  rw [Rules.parse_eq h_pieces, Rules.assemble_plain, Rules.assemble, List.nil_append]

namespace Baking

variable {σ : Type} (source : Source σ)

/-- A dice that awaits its roll is given its result. -/
theorem piece_dice_run (formula : String → StateM σ (Reported String)) (raw : Bool)
    {attributes : List Node} {min max : Int64} (h : Dice.bounds attributes = .ok (min, max))
    (state : σ) :
    piece source formula raw (.element Tag.dice.name attributes []) state =
      let rolled := Dice.roll source min max state
      ((.element Tag.dice.name attributes [.text (Numeral.writeInt64 rolled.1.result)], []),
        rolled.2) := by
  rw [piece, if_pos rfl, dice, Dice.classify_of_ok h]
  rfl

/-- The text of a formula without a bracket is kept as it is. -/
theorem formula_of_no_bracket {raw : String} (h : ∀ c ∈ raw.toList, c ≠ '[') :
    formula source raw = pure (raw, []) := by
  have h_none : (Rules.flush raw.toList).any isElement = false := by
    rw [Rules.flush]
    split <;> rfl
  rw [formula_eq, Document.parse_of_no_bracket h, h_none, if_neg Bool.false_ne_true]

/-- A text is kept, as the text of a formula too if it has no bracket. -/
theorem piece_text_run {raw : Bool} {value : String} (h : awaitsRolls raw (.text value) = true)
    (state : σ) :
    piece source (formula source) raw (.text value) state = ((.text value, []), state) := by
  rw [piece]
  cases raw with
  | false => rfl
  | true =>
    have h_all : (value.toList.all fun c => c != '[' && c != ']') = true := h
    have h_none : ∀ c ∈ value.toList, c ≠ '[' := by
      intro c hc
      have h_char := List.all_eq_true.1 h_all c hc
      rw [Bool.and_eq_true, bne_iff_ne] at h_char
      exact h_char.1
    rw [if_pos rfl, formula_of_no_bracket source h_none]
    rfl

/-! ## Rolling alone, and baking -/

mutual

/-- Both passes ask the source for the same rolls. They keep the same results in formulas, and
    outside of them unbaking drops what the one keeps. -/
theorem piece_rolled (inFormula raw : Bool) : (node : Node) → awaitsRolls raw node = true →
    ∀ state, rollFormulas source inFormula node state =
      let baked := piece source (formula source) raw node state
      (if inFormula then baked.1.1 else Unbaking.node baked.1.1, baked.2)
  | .text value => by
    intro h state
    rw [piece_text_run source h, rollFormulas]
    cases inFormula <;> rfl
  | .group items => by
    have ih := pieces_rolled inFormula false items
    intro h state
    rw [awaitsRolls] at h
    rw [Node.rollFormulas_group_run, ih h, piece_group_run]
    cases inFormula <;> rfl
  | .element name as cs => by
    have ih_attributes := pieces_rolled (inFormula || isFormula name) (keepsText name) as
    have ih_children := pieces_rolled (inFormula || isFormula name) false cs
    intro h state
    rw [awaitsRolls] at h
    by_cases h_dice : name = Tag.dice.name
    · subst h_dice
      rw [if_pos rfl, Bool.and_eq_true] at h
      obtain ⟨min, max, h_bounds⟩ := Node.exists_bounds h.1
      obtain rfl : cs = [] := List.isEmpty_iff.1 h.2
      rw [Node.rollFormulas_dice_run source inFormula h_bounds,
        piece_dice_run source _ raw h_bounds]
      cases inFormula with
      | true => rfl
      | false =>
        dsimp only
        rw [if_neg Bool.false_ne_true, if_neg Bool.false_ne_true, Unbaking.node_dice]
        rfl
    · rw [if_neg h_dice, Bool.and_eq_true] at h
      rw [Node.rollFormulas_element_run source inFormula h_dice, ih_attributes h.1,
        piece_element_run source _ raw h_dice]
      dsimp only
      rw [ih_children h.2]
      -- In a formula, around the tag or the tag itself, nothing is unbaked.
      cases inFormula with
      | true => rfl
      | false =>
        rw [Bool.false_or]
        cases h_formula : isFormula name with
        | true =>
          dsimp only
          rw [if_pos rfl, if_pos rfl, if_neg Bool.false_ne_true,
            Unbaking.node_formula _ _ h_formula]
        | false =>
          dsimp only
          rw [if_neg Bool.false_ne_true, if_neg Bool.false_ne_true, if_neg Bool.false_ne_true,
            Unbaking.node_other _ _ h_formula h_dice]

theorem pieces_rolled (inFormula raw : Bool) : (nodes : List Node) →
    awaitsRollsAll raw nodes = true →
    ∀ state, rollFormulasAll source inFormula nodes state =
      let baked := pieces source (formula source) raw nodes state
      (if inFormula then baked.1.1 else Unbaking.nodes baked.1.1, baked.2)
  | [] => by
    intro _ state
    cases inFormula <;> rfl
  | node :: nodes => by
    have ih_node := piece_rolled inFormula raw node
    have ih_nodes := pieces_rolled inFormula raw nodes
    intro h state
    rw [awaitsRollsAll, Bool.and_eq_true] at h
    rw [Node.rollFormulasAll_cons_run, ih_node h.1, pieces_cons_run]
    dsimp only
    rw [ih_nodes h.2]
    cases inFormula <;> rfl

end

end Baking

/-! ## Pieces of the same form -/

namespace Node

theorem startsWithText_cons (node : Node) (nodes : List Node) :
    Rules.startsWithText (node :: nodes) = Rules.startsWithText [node] := by
  cases node <;> rfl

end Node

/-- The second piece has the form and the height of the first one, where the first one stands. -/
structure KeepsForm (place : Place) (node node' : Node) : Prop where
  canonical : node'.canonical place = true
  height : node'.height = node.height
  text : Rules.startsWithText [node'] = Rules.startsWithText [node]

/-- The same for pieces one after the other. -/
structure KeepsFormAll (place : Place) (nodes nodes' : List Node) : Prop where
  canonical : canonicalAll place nodes' = true
  height : heightAll nodes' = heightAll nodes
  text : Rules.startsWithText nodes' = Rules.startsWithText nodes
  apart : Node.apart nodes' = Node.apart nodes

theorem KeepsFormAll.cons {place : Place} {node node' : Node} {nodes nodes' : List Node}
    (h : KeepsForm place node node') (h_all : KeepsFormAll place nodes nodes') :
    KeepsFormAll place (node :: nodes) (node' :: nodes') where
  canonical := by
    rw [canonicalAll, h.canonical, h_all.canonical]
    rfl
  height := by rw [heightAll, heightAll, h.height, h_all.height]
  text := by rw [Node.startsWithText_cons, h.text, ← Node.startsWithText_cons]
  apart := by rw [Rules.apart_cons, Rules.apart_cons, h.text, h_all.text, h_all.apart]

/-! ## The baked document is canonical -/

namespace Baking

variable {σ : Type} (source : Source σ)

/-- A canonical dice is canonical with its result. -/
theorem dice_keepsForm {place : Place} {as : List Node}
    (h : (Node.element Tag.dice.name as []).canonical place = true) (result : Int64) :
    KeepsForm place (.element Tag.dice.name as [])
      (.element Tag.dice.name as [.text (Numeral.writeInt64 result)]) where
  canonical := by
    have h_stored : isStored [.text (Numeral.writeInt64 result)] = true :=
      isResult_iff.2 (Numeral.isResult_writeInt64 result)
    rw [Node.canonical_element, Bool.and_eq_true] at h ⊢
    exact ⟨h.1, h_stored⟩
  height := by simp [height, heightAll]
  text := rfl

/-- The text of a formula is all of its attributes, and stays. -/
theorem pieces_raw_run {as : List Node} (h_raw : isRaw as = true)
    (h : awaitsRollsAll true as = true)
    (state : σ) : pieces source (formula source) true as state = ((as, []), state) := by
  unfold isRaw at h_raw
  split at h_raw
  · rfl
  · rw [awaitsRollsAll, Bool.and_eq_true] at h
    rw [pieces_cons_run, piece_text_run source h.1]
    rfl
  · exact absurd h_raw (by simp)

/-- Raw text stays, and other attributes keep their form if their pieces do. -/
theorem attributes_keepForm {tag : Tag} {as : List Node}
    (ih : canonicalAll .listed as = true → awaitsRollsAll false as = true →
      ∀ state, KeepsFormAll .listed as (pieces source (formula source) false as state).1.1)
    (h_attributes : Node.holdsAttributes tag as = true)
    (h : awaitsRollsAll tag.rawAttribute as = true) (state : σ) :
    let baked := (pieces source (formula source) tag.rawAttribute as state).1.1
    heightAll baked = heightAll as ∧ Node.holdsAttributes tag baked = true := by
  unfold Node.holdsAttributes at h_attributes ⊢
  cases h_raw : tag.rawAttribute with
  | true =>
    rw [h_raw] at h h_attributes
    rw [if_pos rfl] at h_attributes
    rw [pieces_raw_run source h_attributes h]
    exact ⟨rfl, h_attributes⟩
  | false =>
    rw [h_raw] at h h_attributes
    rw [if_neg Bool.false_ne_true] at h_attributes
    have h_form := ih h_attributes h state
    exact ⟨h_form.height, h_form.canonical⟩

/-- Among the tags that have no children, only a dice is given some. -/
theorem children_keepForm {tag : Tag} (h_dice : tag ≠ .dice) {cs : List Node}
    (ih : canonicalAll .child cs = true → awaitsRollsAll false cs = true →
      ∀ state, KeepsFormAll .child cs (pieces source (formula source) false cs state).1.1)
    (h_children : Node.holdsChildren tag cs = true) (h : awaitsRollsAll false cs = true)
    (state : σ) :
    let baked := (pieces source (formula source) false cs state).1.1
    heightAll baked = heightAll cs ∧ Node.holdsChildren tag baked = true := by
  unfold Node.holdsChildren at h_children ⊢
  cases h_kind : tag.kind with
  | container =>
    rw [h_kind] at h_children
    have h_children := Bool.and_eq_true_iff.1 h_children
    have h_form := ih h_children.1 h state
    exact ⟨h_form.height, Bool.and_eq_true_iff.2 ⟨h_form.canonical, h_form.apart ▸ h_children.2⟩⟩
  | selfClosing =>
    have h_stores : tag.storesResult = false := by
      rw [← Bool.not_eq_true]
      intro h_stores
      exact h_dice (Rules.storesResult_eq_true_iff.1 h_stores)
    rw [h_kind] at h_children
    rw [h_stores, Bool.false_and, Bool.or_false] at h_children
    obtain rfl : cs = [] := List.isEmpty_iff.1 h_children
    exact ⟨rfl, rfl⟩

mutual

/-- A canonical piece is canonical, and no higher, when it is baked. -/
theorem piece_keepsForm (place : Place) : (node : Node) → node.canonical place = true →
    awaitsRolls false node = true → ∀ state,
      KeepsForm place node (piece source (formula source) false node state).1.1
  | .text value => by
    intro h_canonical h state
    rw [piece_text_run source h]
    exact ⟨h_canonical, rfl, rfl⟩
  | .group items => by
    have ih := pieces_keepForm .grouped items
    intro h_canonical h state
    rw [awaitsRolls] at h
    rw [canonical, Bool.and_eq_true] at h_canonical
    have h_inside := ih h_canonical.2 h state
    rw [piece_group_run]
    refine ⟨?_, ?_, rfl⟩
    · rw [canonical, h_canonical.1, h_inside.canonical]
      rfl
    · rw [height, height, h_inside.height]
  | .element name as cs => by
    have ih_attributes := pieces_keepForm .listed as
    have ih_children := pieces_keepForm .child cs
    intro h_canonical h state
    obtain ⟨tag, rfl⟩ := Rules.exists_tag h_canonical
    rw [awaitsRolls] at h
    by_cases h_dice : tag = .dice
    · subst h_dice
      rw [if_pos rfl, Bool.and_eq_true] at h
      obtain ⟨min, max, h_bounds⟩ := Node.exists_bounds h.1
      obtain rfl : cs = [] := List.isEmpty_iff.1 h.2
      rw [piece_dice_run source _ false h_bounds]
      exact dice_keepsForm h_canonical _
    · have h_name : tag.name ≠ Tag.dice.name := fun h_name => h_dice (Tag.name_injective h_name)
      rw [if_neg h_name, Rules.keepsText_name, Bool.and_eq_true] at h
      rw [Node.canonical_element, Bool.and_eq_true] at h_canonical
      rw [piece_element_run source _ false h_name, Rules.keepsText_name]
      dsimp only
      have h_attributes := attributes_keepForm source ih_attributes h_canonical.1 h.1 state
      have h_children := children_keepForm source h_dice ih_children h_canonical.2 h.2
        (pieces source (formula source) tag.rawAttribute as state).2
      refine ⟨?_, ?_, rfl⟩
      · rw [Node.canonical_element, h_attributes.2, h_children.2]
        rfl
      · rw [height, height, h_attributes.1, h_children.1]

theorem pieces_keepForm (place : Place) : (nodes : List Node) → canonicalAll place nodes = true →
    awaitsRollsAll false nodes = true → ∀ state,
      KeepsFormAll place nodes (pieces source (formula source) false nodes state).1.1
  | [] => fun _ _ _ => ⟨rfl, rfl, rfl, rfl⟩
  | node :: nodes => by
    have ih_node := piece_keepsForm place node
    have ih_nodes := pieces_keepForm place nodes
    intro h_canonical h state
    rw [canonicalAll, Bool.and_eq_true] at h_canonical
    rw [awaitsRollsAll, Bool.and_eq_true] at h
    rw [pieces_cons_run]
    exact .cons (ih_node h_canonical.1 h.1 state) (ih_nodes h_canonical.2 h.2 _)

end

end Baking

/-! ## Whole documents -/

namespace Document

/-- The document with a result for each dice in a formula, every dice being rolled in turn. -/
def rollFormulas {σ : Type} (source : Source σ) (document : Document) : StateM σ Document :=
  rollFormulasAll source false document

/-- A document that is read as it is written is unbaked as a tree. -/
theorem unbakedText_toText {document : Document} (h : parse document.toText = document) :
    unbakedText document.toText = toText (Unbaking.nodes document) := by
  rw [unbakedText_eq, h]
  split
  · rename_i h_unbaked
    rw [(Unbaking.nodes_eq_self_iff document).2 h_unbaked]
  · rfl

/-- A canonical document whose dice await their rolls is canonical when it is baked. -/
theorem canonical_bake {document : Document} (h_canonical : document.canonical = true)
    (h_awaits : awaitsRollsAll false document = true) {σ : Type} (source : Source σ) (state : σ) :
    canonical (document.bake source state).1.1 = true := by
  rw [canonical, Bool.and_eq_true, Bool.and_eq_true] at h_canonical
  obtain ⟨⟨h_form, h_apart⟩, h_height⟩ := h_canonical
  have h_baked := Baking.pieces_keepForm source .child document h_form h_awaits state
  rw [bake, Baking.nodes_eq, canonical, h_baked.canonical, h_baked.apart, h_apart, h_baked.height,
    h_height]
  rfl

/-- Unbaking undoes baking outside of formulas: a canonical document whose dice await their rolls is
    written as before, but for the results of the dice in its formulas. Without such dice, it is
    written as before. -/
theorem unbakedText_bake {document : Document} (h_canonical : document.canonical = true)
    (h_awaits : awaitsRollsAll false document = true) {σ : Type} (source : Source σ) (state : σ) :
    let stored := toText (document.bake source state).1.1
    unbakedText stored = toText (document.rollFormulas source state).1 ∧
      (sparesFormulasAll false document = true → unbakedText stored = toText document) := by
  intro stored
  -- The stored text is read as the tree that it was written from.
  obtain ⟨h_pieces, h_assembled⟩ :=
    Rules.piecesAt_toText (canonical_bake h_canonical h_awaits source state)
  have h_read := (Rules.parse_eq h_pieces).trans h_assembled
  have h_rolled : (document.rollFormulas source state).1 =
      Unbaking.nodes (document.bake source state).1.1 := by
    rw [rollFormulas, Baking.pieces_rolled source false false document h_awaits, bake,
      Baking.nodes_eq]
    rfl
  have h_text : unbakedText stored = toText (document.rollFormulas source state).1 := by
    rw [h_rolled]
    exact unbakedText_toText h_read
  refine ⟨h_text, fun h_spares => ?_⟩
  rw [h_text, rollFormulas, Node.rollFormulasAll_eq_self source false document h_spares]

/-- Dice outside of formulas and in two of them, rolled by a source with a memory; and a document
    whose formula has no dice. -/
theorem unbakedText_bake_mixed :
    let source := Source.cycle [3, 9, -2, 4]
    let die : Node := .element "dice" [.text "1", .text "6"] []
    let rolled (result : String) : Node := .element "dice" [.text "1", .text "6"] [.text result]
    let mixed : Document := [.text "a ", .element "clr" [.group [die]] [die],
      .element "calc" [.group [.text "+", die]] [.text "x"], .element "calcn" [.text "1 + 2"] [die]]
    let spared : Document :=
      [.element "calc" [.group [.text "+", .text "1"]] [], .element "bld" [] [die]]
    (mixed.canonical = true ∧ awaitsRollsAll false mixed = true ∧
        sparesFormulasAll false mixed = false ∧
        unbakedText (toText (mixed.bake source []).1.1) =
          toText [.text "a ", .element "clr" [.group [die]] [die],
            .element "calc" [.group [.text "+", rolled "1"]] [.text "x"],
            .element "calcn" [.text "1 + 2"] [rolled "4"]]) ∧
      spared.canonical = true ∧ awaitsRollsAll false spared = true ∧
        sparesFormulasAll false spared = true ∧
        unbakedText (toText (spared.bake source []).1.1) = toText spared := by
  intro source die rolled mixed spared
  have h_mixed : mixed.canonical = true ∧ awaitsRollsAll false mixed = true := ⟨by cbv, by cbv⟩
  have h_spared : spared.canonical = true ∧ awaitsRollsAll false spared = true := ⟨by cbv, by cbv⟩
  have h_spares : sparesFormulasAll false spared = true := by cbv
  refine ⟨⟨h_mixed.1, h_mixed.2, by cbv, ?_⟩, h_spared.1, h_spared.2, h_spares, ?_⟩
  · refine (unbakedText_bake h_mixed.1 h_mixed.2 source []).1.trans ?_
    cbv
  · exact (unbakedText_bake h_spared.1 h_spared.2 source []).2 h_spares

end Document

end DiceMarkup
