/-
  DiceMarkup.Proofs.Unbaking

  Whether a text that was unbaked still has a result outside of formulas. Results
  are dropped from the tree, but what is left is written and read again. Two
  results may be left over: one among the attributes of a dice with a result,
  which are kept as they are, and a second one right behind the first, whose place
  it takes when the text is read again.

  Pieces:
  * `Node.isFormula`, `Node.formula_or_dice_or_other` — what is done with a tag
  * `Node.unbaked`, `Unbaking.nodes_eq_self_iff` — trees that stay as they are
  * `Node.sheds`, `Unbaking.unbakedAll_nodes` — trees that keep no result
  * `Unbaking.nodes_revises` — what is left of them is read as it is written
  * `Document.parse_unbakedText` — the text is read as the tree without results
  * `Document.unbakedText_unbaked` — unbaking leaves nothing to unbake
-/
import DiceMarkup.Proofs.Passes
import DiceMarkup.Proofs.Stability
import DiceMarkup.Unbaking

namespace DiceMarkup

open Node (isRolled keepsText startsWithResult)
open Rules (Revises RevisesAll)

/-! ## Results outside of formulas -/

namespace Node

/-- The name of a tag whose dice keep their results. -/
def isFormula (name : String) : Bool :=
  name == Tag.formula.name || name == Tag.infixFormula.name

mutual

/-- No dice of the tree has a result, save within formulas. -/
def unbaked : Node → Bool
  | .text _ => true
  | .group items => unbakedAll items
  | .element name attributes children =>
    if isFormula name then true
    else if name = Tag.dice.name then unbakedAll attributes && children.isEmpty
    else unbakedAll attributes && unbakedAll children

def unbakedAll : List Node → Bool
  | [] => true
  | node :: nodes => unbaked node && unbakedAll nodes

end

mutual

/-- Where a dice loses its result, outside of formulas, there is no other one among its
    attributes. -/
def sheds : Node → Bool
  | .text _ => true
  | .group items => shedsAll items
  | .element name attributes children =>
    if isFormula name then true
    else if name = Tag.dice.name then
      if children.isEmpty then shedsAll attributes else unbakedAll attributes
    else shedsAll attributes && shedsAll children

/-- The same for all pieces; and no text right behind such a dice would be read as its result. -/
def shedsAll : List Node → Bool
  | [] => true
  | node :: nodes => !(isRolled node && startsWithResult nodes) && sheds node && shedsAll nodes

end

/-! ### The three kinds of tags -/

/-- Formulas are kept, dice lose their results, and other tags are searched. -/
theorem formula_or_dice_or_other (name : String) :
    isFormula name = true ∨ name = Tag.dice.name ∨
      isFormula name = false ∧ name ≠ Tag.dice.name := by
  by_cases h_formula : isFormula name = true
  · exact .inl h_formula
  · rw [Bool.not_eq_true] at h_formula
    by_cases h_dice : name = Tag.dice.name
    · exact .inr (.inl h_dice)
    · exact .inr (.inr ⟨h_formula, h_dice⟩)

/-- A tag that keeps its text is a formula. -/
theorem keepsText_of_isFormula {name : String} (h : isFormula name = false) :
    keepsText name = false := by
  rw [keepsText_eq_false_iff]
  intro h_name
  rw [Tag.ofName?_eq_some_iff.1 h_name] at h
  exact absurd h (by decide)

section Kinds

variable {name : String} (as cs : List Node)

theorem unbaked_formula (h : isFormula name = true) : unbaked (.element name as cs) = true := by
  rw [unbaked, if_pos h]

theorem unbaked_dice :
    unbaked (.element Tag.dice.name as cs) = (unbakedAll as && cs.isEmpty) := by
  rw [unbaked, if_neg (by decide), if_pos rfl]

theorem unbaked_other (h_formula : isFormula name = false) (h_dice : name ≠ Tag.dice.name) :
    unbaked (.element name as cs) = (unbakedAll as && unbakedAll cs) := by
  rw [unbaked, h_formula, if_neg Bool.false_ne_true, if_neg h_dice]

theorem sheds_dice :
    sheds (.element Tag.dice.name as cs) =
      if cs.isEmpty then shedsAll as else unbakedAll as := by
  rw [sheds, if_neg (by decide), if_pos rfl]

theorem sheds_other (h_formula : isFormula name = false) (h_dice : name ≠ Tag.dice.name) :
    sheds (.element name as cs) = (shedsAll as && shedsAll cs) := by
  rw [sheds, h_formula, if_neg Bool.false_ne_true, if_neg h_dice]

end Kinds

end Node

open Node (formula_or_dice_or_other isFormula sheds shedsAll unbaked unbakedAll)

namespace Unbaking

section Kinds

variable {name : String} (as cs : List Node)

/-- A formula is kept as it is. -/
theorem node_formula (h : isFormula name = true) :
    node (.element name as cs) = .element name as cs := by
  rw [isFormula, Bool.or_eq_true, beq_iff_eq, beq_iff_eq] at h
  rcases h with rfl | rfl
  · rw [node, Tag.ofName?_name]
  · rw [node, Tag.ofName?_name]

/-- A dice without a result is searched; one with a result loses it and is not. -/
theorem node_dice :
    node (.element Tag.dice.name as cs) =
      .element Tag.dice.name (if cs.isEmpty then nodes as else as) [] := by
  rw [node, Tag.ofName?_name]
  dsimp only
  split <;> rfl

theorem node_other (h_formula : isFormula name = false) (h_dice : name ≠ Tag.dice.name) :
    node (.element name as cs) = .element name (nodes as) (nodes cs) := by
  rw [node]
  split
  · rename_i h_name
    exact absurd (Tag.ofName?_eq_some_iff.1 h_name) h_dice
  · rename_i h_name
    rw [Tag.ofName?_eq_some_iff.1 h_name] at h_formula
    exact absurd h_formula (by decide)
  · rename_i h_name
    rw [Tag.ofName?_eq_some_iff.1 h_name] at h_formula
    exact absurd h_formula (by decide)
  · rfl

end Kinds

/-! ## Nothing to unbake -/

mutual

/-- The trees without results are those that stay as they are. -/
theorem node_eq_self_iff : (n : Node) → (node n = n ↔ unbaked n = true)
  | .text value => ⟨fun _ => rfl, fun _ => rfl⟩
  | .group items => by
    have ih := nodes_eq_self_iff items
    rw [node, unbaked, ← ih, Node.group.injEq]
  | .element name as cs => by
    have ih_attributes := nodes_eq_self_iff as
    have ih_children := nodes_eq_self_iff cs
    rcases formula_or_dice_or_other name with h_formula | rfl | ⟨h_formula, h_dice⟩
    · rw [node_formula as cs h_formula, Node.unbaked_formula as cs h_formula]
      exact ⟨fun _ => rfl, fun _ => rfl⟩
    · rw [Node.unbaked_dice, node_dice, Node.element.injEq, Bool.and_eq_true]
      -- Either way the dice has no result, so that its attributes are searched.
      constructor
      · rintro ⟨-, h_attributes, rfl⟩
        exact ⟨ih_attributes.1 h_attributes, rfl⟩
      · rintro ⟨h_attributes, h_empty⟩
        obtain rfl : cs = [] := List.isEmpty_iff.1 h_empty
        exact ⟨rfl, ih_attributes.2 h_attributes, rfl⟩
    · rw [Node.unbaked_other as cs h_formula h_dice, node_other as cs h_formula h_dice,
        Node.element.injEq, Bool.and_eq_true, ← ih_attributes, ← ih_children]
      exact ⟨fun h => h.2, fun h => ⟨rfl, h⟩⟩

theorem nodes_eq_self_iff : (ns : List Node) → (nodes ns = ns ↔ unbakedAll ns = true)
  | [] => ⟨fun _ => rfl, fun _ => rfl⟩
  | n :: ns => by
    have ih_node := node_eq_self_iff n
    have ih_nodes := nodes_eq_self_iff ns
    rw [nodes, unbakedAll, Bool.and_eq_true, ← ih_node, ← ih_nodes, List.cons.injEq]

end

/-! ## What unbaking makes of a tree -/

mutual

/-- Where the attributes of dice with results hold no results, none is left. -/
theorem unbaked_node : (n : Node) → sheds n = true → unbaked (node n) = true
  | .text value => fun _ => rfl
  | .group items => by
    have ih := unbakedAll_nodes items
    intro h
    rw [sheds] at h
    rw [node, unbaked]
    exact ih h
  | .element name as cs => by
    have ih_attributes := unbakedAll_nodes as
    have ih_children := unbakedAll_nodes cs
    intro h
    rcases formula_or_dice_or_other name with h_formula | rfl | ⟨h_formula, h_dice⟩
    · rw [node_formula as cs h_formula, Node.unbaked_formula as cs h_formula]
    · rw [Node.sheds_dice] at h
      rw [node_dice, Node.unbaked_dice, List.isEmpty_nil, Bool.and_true]
      split at h
      · rename_i h_empty
        rw [if_pos h_empty]
        exact ih_attributes h
      · rename_i h_some
        rw [if_neg h_some]
        exact h
    · rw [Node.sheds_other as cs h_formula h_dice, Bool.and_eq_true] at h
      rw [node_other as cs h_formula h_dice, Node.unbaked_other _ _ h_formula h_dice,
        Bool.and_eq_true]
      exact ⟨ih_attributes h.1, ih_children h.2⟩

theorem unbakedAll_nodes : (ns : List Node) → shedsAll ns = true → unbakedAll (nodes ns) = true
  | [] => fun _ => rfl
  | n :: ns => by
    have ih_node := unbaked_node n
    have ih_nodes := unbakedAll_nodes ns
    intro h
    rw [shedsAll, Bool.and_eq_true, Bool.and_eq_true] at h
    rw [nodes, unbakedAll, Bool.and_eq_true]
    exact ⟨ih_node h.1.2, ih_nodes h.2⟩

end

mutual

/-- An unbaked tree is a revision of the tree. -/
theorem node_revises (raw : Bool) : (n : Node) → sheds n = true → Revises raw n (node n)
  | .text value => fun _ => by
    rw [node]
    exact .text value
  | .group items => by
    have ih := nodes_revises false items
    intro h
    rw [sheds] at h
    rw [node]
    exact .group (ih h)
  | .element name as cs => by
    have ih_attributes := nodes_revises false as
    have ih_children := nodes_revises false cs
    intro h
    rcases formula_or_dice_or_other name with h_formula | rfl | ⟨h_formula, h_dice⟩
    · rw [node_formula as cs h_formula]
      exact .refl raw _
    · rw [Node.sheds_dice] at h
      rw [node_dice]
      -- Attributes that are searched are those of a dice without a result.
      split at h
      · rename_i h_empty
        obtain rfl : cs = [] := List.isEmpty_iff.1 h_empty
        rw [if_pos h_empty]
        exact .element (ih_attributes h) .nil
      · rename_i h_some
        rw [if_neg h_some]
        exact .dice (.inl rfl) (.inl rfl)
    · rw [Node.sheds_other as cs h_formula h_dice, Bool.and_eq_true] at h
      rw [node_other as cs h_formula h_dice]
      apply Revises.element _ (ih_children h.2)
      rw [Node.keepsText_of_isFormula h_formula]
      exact ih_attributes h.1

theorem nodes_revises (raw : Bool) : (ns : List Node) → shedsAll ns = true →
    RevisesAll raw ns (nodes ns)
  | [] => fun _ => .nil
  | n :: ns => by
    have ih_node := node_revises raw n
    have ih_nodes := nodes_revises raw ns
    intro h
    rw [shedsAll, Bool.and_eq_true, Bool.and_eq_true] at h
    rw [nodes]
    -- Where a result is dropped, what follows must not be read as the next one.
    refine .cons (ih_node h.1.2) (ih_nodes h.2) fun h_rolled _ => ?_
    simpa [h_rolled] using h.1.1

end

end Unbaking

/-! ## Whole texts -/

/-- A text is given back if its tree has no results outside of formulas, and written anew if it has
    some. -/
theorem unbakedText_eq (stored : String) :
    unbakedText stored = if unbakedAll (Document.parse stored) then stored
      else Document.toText (Unbaking.nodes (Document.parse stored)) := by
  unfold unbakedText
  dsimp only
  by_cases h_unbaked : unbakedAll (Document.parse stored) = true
  · rw [if_pos h_unbaked, if_pos ((Unbaking.nodes_eq_self_iff _).2 h_unbaked)]
  · rw [if_neg h_unbaked, if_neg fun h_same => h_unbaked ((Unbaking.nodes_eq_self_iff _).1 h_same)]

/-- A text is read as the tree without its results, if no other results take their place. -/
theorem Document.parse_unbakedText {stored : String} (h_limit : WithinLimit stored)
    (h_tidy : (parse stored).tidy = true) (h_sheds : shedsAll (parse stored) = true) :
    parse (unbakedText stored) = Unbaking.nodes (parse stored) := by
  rw [unbakedText_eq]
  split
  · rename_i h_none
    exact ((Unbaking.nodes_eq_self_iff _).2 h_none).symm
  · have h_revises := Unbaking.nodes_revises false _ h_sheds
    exact (parse_toText_of_revises h_limit h_tidy h_revises).1

/-- Unbaking leaves nothing to unbake, if the text has no results outside of formulas, or if its
    results can be shed. -/
theorem Document.unbakedText_unbaked {stored : String}
    (h : unbakedAll (parse stored) = true ∨
      WithinLimit stored ∧ (parse stored).tidy = true ∧ shedsAll (parse stored) = true) :
    unbakedAll (parse (unbakedText stored)) = true ∧
      unbakedText (unbakedText stored) = unbakedText stored := by
  have h_unbaked : unbakedAll (parse (unbakedText stored)) = true := by
    rcases h with h_none | ⟨h_limit, h_tidy, h_sheds⟩
    · rw [unbakedText_eq, if_pos h_none]
      exact h_none
    · rw [parse_unbakedText h_limit h_tidy h_sheds]
      exact Unbaking.unbakedAll_nodes _ h_sheds
  refine ⟨h_unbaked, ?_⟩
  rw [unbakedText_eq (unbakedText stored), if_pos h_unbaked]

/-- Dice in a tag, among attributes and in a formula. -/
theorem Document.unbakedText_unbaked_mixed :
    let stored := "[b][dice 1 6]4[/dice]![/b][hr [dice 1 2]1[/dice]][calc (+ [dice 1 6]2[/dice])]"
    (WithinLimit stored ∧ (parse stored).tidy = true ∧ shedsAll (parse stored) = true ∧
        unbakedAll (parse stored) = false) ∧
      unbakedAll (parse (unbakedText stored)) = true ∧
        unbakedText (unbakedText stored) = unbakedText stored := by
  have h_limit : WithinLimit
      "[b][dice 1 6]4[/dice]![/b][hr [dice 1 2]1[/dice]][calc (+ [dice 1 6]2[/dice])]" :=
    withinLimit_of_openings (by decide +kernel)
  have h_parse : parse
      "[b][dice 1 6]4[/dice]![/b][hr [dice 1 2]1[/dice]][calc (+ [dice 1 6]2[/dice])]" =
        [.element "bld" [] [.element "dice" [.text "1", .text "6"] [.text "4"], .text "!"],
          .element "hr" [.element "dice" [.text "1", .text "2"] [.text "1"]] [],
          .element "calc" [.group [.text "+", .element "dice" [.text "1", .text "6"] [.text "2"]]]
            []] := by
    cbv
  intro stored
  have h_tidy : (parse stored).tidy = true := by
    rw [show parse stored = _ from h_parse]
    rfl
  have h_sheds : shedsAll (parse stored) = true := by
    rw [show parse stored = _ from h_parse]
    rfl
  refine ⟨⟨h_limit, h_tidy, h_sheds, ?_⟩, unbakedText_unbaked (.inr ⟨h_limit, h_tidy, h_sheds⟩)⟩
  rw [show parse stored = _ from h_parse]
  rfl

/-- A text with results outside of formulas is written anew. -/
theorem unbakedText_of_baked {stored : String} (document : Document)
    (h_parse : Document.parse stored = document) (h_baked : unbakedAll document = false) :
    unbakedText stored = Document.toText (Unbaking.nodes document) := by
  rw [unbakedText_eq, h_parse, h_baked, if_neg Bool.false_ne_true]

/-- The attributes of a dice with a result are not searched, and a second result behind a dice takes
    the place of the first one: either way a result is left, and a second unbaking drops it. -/
theorem Document.unbakedText_baked :
    let loaded := unbakedText "[dice [dice 1 6]4[/dice]]3[/dice]"
    let followed := unbakedText "[dice 1 6]3[/dice]4[/dice]"
    (unbakedAll (parse loaded) = false ∧ unbakedText loaded ≠ loaded) ∧
      (unbakedAll (parse followed) = false ∧ unbakedText followed ≠ followed) := by
  have h_attribute : parse "[dice [dice 1 6]4[/dice]]" =
      [.element "dice" [.element "dice" [.text "1", .text "6"] [.text "4"]] []] := by cbv
  have h_second : parse "[dice 1 6]4[/dice]" =
      [.element "dice" [.text "1", .text "6"] [.text "4"]] := by cbv
  have h_loaded : unbakedText "[dice [dice 1 6]4[/dice]]3[/dice]" = "[dice [dice 1 6]4[/dice]]" :=
    unbakedText_of_baked [.element "dice" [.element "dice" [.text "1", .text "6"] [.text "4"]]
      [.text "3"]] (by cbv) rfl
  have h_followed : unbakedText "[dice 1 6]3[/dice]4[/dice]" = "[dice 1 6]4[/dice]" :=
    unbakedText_of_baked [.element "dice" [.text "1", .text "6"] [.text "3"], .text "4[/dice]"]
      (by cbv) rfl
  intro loaded followed
  rw [show loaded = _ from h_loaded, show followed = _ from h_followed,
    unbakedText_of_baked _ h_attribute rfl, unbakedText_of_baked _ h_second rfl, h_attribute,
    h_second]
  exact ⟨⟨rfl, by decide⟩, rfl, by decide⟩

end DiceMarkup
