/-
  DiceMarkup.Proofs.Replay

  A document without fresh dice is shown without a roll. With a source or
  without one it is shown alike, reports included, and the source is left in
  the state that it was in.
-/
import DiceMarkup.Proofs.Rolls
import DiceMarkup.View

namespace DiceMarkup

open Rolling (Source)
open Formula (Result)

/-- The first evaluation leaves its state as it is, and has the value that the second one has. -/
def Silent {σ α : Type} (asking : StateM σ α) (unasking : StateM Unit α) : Prop :=
  ∀ s, asking s = ((unasking ()).1, s)

namespace Silent

variable {σ α β : Type}

theorem pure (a : α) : Silent (Pure.pure a : StateM σ α) (Pure.pure a) :=
  fun _ => rfl

theorem bind {x : StateM σ α} {y : StateM Unit α} {f : α → StateM σ β} {g : α → StateM Unit β}
    (h : Silent x y) (h_next : ∀ a, Silent (f a) (g a)) : Silent (x >>= f) (y >>= g) := by
  intro s
  have h_left : (x >>= f) s = f (x s).1 (x s).2 := rfl
  have h_right : (y >>= g) () = g (y ()).1 () := rfl
  rw [h_left, h_right, h s]
  exact h_next _ s

theorem throw (error : EvalError) :
    Silent (MonadExcept.throw error : Eval σ α).run (MonadExcept.throw error : Eval Unit α).run :=
  fun _ => rfl

theorem lift (outcome : Except EvalError α) :
    Silent (liftExcept outcome : Eval σ α).run (liftExcept outcome : Eval Unit α).run := by
  cases outcome with
  | ok => exact fun _ => rfl
  | error => exact fun _ => rfl

/-- An evaluation that goes on from a value stops at an error. -/
theorem andThen {x : Eval σ α} {y : Eval Unit α} {f : α → Eval σ β} {g : α → Eval Unit β}
    (h : Silent x.run y.run) (h_next : ∀ a, Silent (f a).run (g a).run) :
    Silent (x >>= f).run (y >>= g).run := by
  rw [ExceptT.run_bind, ExceptT.run_bind]
  refine h.bind fun outcome => ?_
  cases outcome with
  | ok a => exact h_next a
  | error error => exact Silent.pure _

theorem map {x : Eval σ α} {y : Eval Unit α} (f : α → β) (h : Silent x.run y.run) :
    Silent (f <$> x).run (f <$> y).run := by
  rw [map_eq_pure_bind, map_eq_pure_bind]
  exact h.andThen fun a => Silent.pure _

end Silent

namespace Node

/-- A dice of such a tree is not fresh. -/
theorem Holds.not_fresh {raw : Bool} {as cs : List Node} {found : List Roll}
    (h : Holds raw (.element Tag.dice.name as cs) found) (min max : Int64) :
    Dice.classify as cs ≠ .ok (.fresh min max) := by
  intro h_fresh
  cases h with
  | stored h_dice => simp [h_dice] at h_fresh
  | invalid h_dice => simp [h_dice] at h_fresh
  | element h_name => exact h_name rfl

/-- The attributes and children of another tag are such trees too. -/
theorem Holds.of_element {raw : Bool} {name : String} {as cs : List Node} {found : List Roll}
    (h : Holds raw (.element name as cs) found) (h_name : name ≠ Tag.dice.name) :
    (∃ inner, HoldsAll (keepsText name) as inner) ∧ ∃ inner, HoldsAll false cs inner := by
  cases h with
  | stored | invalid => exact absurd rfl h_name
  | element _ h_attributes h_children => exact ⟨⟨_, h_attributes⟩, _, h_children⟩

end Node

open Node (Holds HoldsAll keepsText)

variable {σ : Type} (source : Source σ)

theorem resolve_silent {as cs : List Node}
    (h : ∀ min max, Dice.classify as cs ≠ .ok (.fresh min max)) :
    Silent (Dice.resolve (some source) as cs).run
      (Dice.resolve (none : Option (Source Unit)) as cs).run := by
  unfold Dice.resolve
  cases h_dice : Dice.classify as cs with
  | error error => exact Silent.throw error
  | ok state =>
    cases state with
    | stored roll => exact Silent.pure _
    | fresh min max => exact absurd h_dice (h min max)

/-! ## Prefix formulas -/

namespace Formula.Prefix

mutual

theorem group_silent : (items : List Node) → ∀ found, HoldsAll false items found →
    Silent (group (some source) items).run (group (none : Option (Source Unit)) items).run
  | [] => fun _ _ => Silent.throw _
  | .element .. :: _ => fun _ _ => Silent.throw _
  | .group _ :: _ => fun _ _ => Silent.throw _
  | .text written :: arguments => by
    have ih := operands_silent arguments
    intro found h_items
    rw [group, group]
    cases Operator.ofText? written with
    | none => exact Silent.throw _
    | some operator =>
      cases h_items with
      | cons _ h_arguments =>
        exact (ih _ h_arguments).andThen fun terms => Silent.lift _

theorem operands_silent : (arguments : List Node) → ∀ found, HoldsAll false arguments found →
    Silent (operands (some source) arguments).run
      (operands (none : Option (Source Unit)) arguments).run
  | [] => fun _ _ => Silent.pure _
  | argument :: arguments => by
    have ih_argument := operand_silent argument
    have ih_arguments := operands_silent arguments
    intro found h_holds
    rw [operands, operands]
    cases h_holds with
    | cons h_argument h_arguments =>
      refine (ih_argument _ h_argument).andThen fun term => ?_
      exact (ih_arguments _ h_arguments).andThen fun terms => Silent.pure _

theorem operand_silent : (argument : Node) → ∀ found, Holds false argument found →
    Silent (operand (some source) argument).run
      (operand (none : Option (Source Unit)) argument).run
  | .text written => by
    intro found _
    rw [operand, operand]
    cases readNumber? written with
    | none => exact Silent.throw _
    | some value => exact Silent.pure _
  | .group items => by
    have ih := group_silent items
    intro found h_holds
    rw [operand, operand]
    cases h_holds with
    | group h_items => exact (ih _ h_items).andThen fun inner => Silent.pure _
  | .element name as cs => by
    intro found h_holds
    rw [operand, operand]
    split
    · rename_i h_name
      obtain rfl := Tag.ofName?_eq_some_iff.1 h_name
      exact (resolve_silent source h_holds.not_fresh).andThen fun roll => Silent.pure _
    · exact Silent.throw _

end

theorem evaluate_silent {as : List Node} {found : List Roll} (h : HoldsAll false as found) :
    Silent (evaluate (some source) as).run (evaluate (none : Option (Source Unit)) as).run := by
  unfold evaluate
  split
  · cases h with
    | cons h_group =>
      cases h_group with
      | group h_items => exact group_silent source _ _ h_items
  · exact Silent.throw _

end Formula.Prefix

/-! ## Infix formulas -/

namespace Formula.Infix

theorem gather_silent {nodes : List Node} {found : List Roll} (h : HoldsAll false nodes found) :
    Silent (gather (some source) nodes).run (gather (none : Option (Source Unit)) nodes).run := by
  induction nodes generalizing found with
  | nil => exact Silent.pure _
  | cons node nodes ih =>
    cases h with
    | cons h_node h_nodes =>
      cases node with
      | text written =>
        rw [gather, gather]
        refine (Silent.lift _).andThen fun words => ?_
        exact (ih h_nodes).andThen fun others => Silent.pure _
      | group items => exact Silent.throw _
      -- The only tag that can be gathered is a dice, and the dice here are not fresh.
      | element name as cs =>
        rw [gather, gather]
        split
        · rename_i h_name
          obtain rfl := Tag.ofName?_eq_some_iff.1 h_name
          refine (resolve_silent source h_node.not_fresh).andThen fun roll => ?_
          exact (ih h_nodes).andThen fun others => Silent.pure _
        · exact Silent.throw _

/-- The text of the formula is read as a document that holds the rolls. -/
theorem evaluate_silent {as : List Node} {found : List Roll} (h : HoldsAll true as found) :
    Silent (evaluate (some source) as).run (evaluate (none : Option (Source Unit)) as).run := by
  unfold evaluate
  split
  · cases h with
    | cons h_text =>
      cases h_text with
      -- What is evaluated is the document that the text is read as, which holds no fresh dice
      -- either.
      | formula h_rolls =>
        refine (gather_silent source h_rolls).andThen fun gathered => ?_
        exact (Silent.lift _).andThen fun value => Silent.pure _
  · exact Silent.throw _

end Formula.Infix

/-! ## Documents -/

namespace View

theorem valueOf_silent {tag : Tag} {piece : Node} {asking : Eval σ View} {unasking : Eval Unit View}
    (h : Silent asking.run unasking.run) :
    Silent (valueOf tag piece asking) (valueOf tag piece unasking) := by
  refine h.bind fun outcome => ?_
  cases outcome with
  | ok value => exact Silent.pure _
  | error error => exact Silent.pure _

/-- A dice or a formula asks for no value. -/
theorem evaluation?_silent {name : String} {as cs : List Node} {found : List Roll}
    (h : Holds false (.element name as cs) found) :
    (evaluation? (some source) name as cs = none ∧
        evaluation? (none : Option (Source Unit)) name as cs = none ∧ name ≠ Tag.dice.name ∧
          keepsText name = false) ∨
      ∃ tag asking unasking, evaluation? (some source) name as cs = some (tag, asking) ∧
        evaluation? (none : Option (Source Unit)) name as cs = some (tag, unasking) ∧
          Silent asking.run unasking.run := by
  unfold evaluation?
  split
  · rename_i h_name
    obtain rfl := Tag.ofName?_eq_some_iff.1 h_name
    exact .inr ⟨_, _, _, rfl, rfl, (resolve_silent source h.not_fresh).map _⟩
  · rename_i h_name
    obtain rfl := Tag.ofName?_eq_some_iff.1 h_name
    obtain ⟨⟨_, h_attributes⟩, -⟩ := h.of_element (by decide)
    exact .inr ⟨_, _, _, rfl, rfl, (Formula.Prefix.evaluate_silent source h_attributes).map _⟩
  · rename_i h_name
    obtain rfl := Tag.ofName?_eq_some_iff.1 h_name
    obtain ⟨⟨_, h_attributes⟩, -⟩ := h.of_element (by decide)
    exact .inr ⟨_, _, _, rfl, rfl, (Formula.Infix.evaluate_silent source h_attributes).map _⟩
  · rename_i h_dice _ h_infix
    exact .inl ⟨rfl, rfl, fun h_name => h_dice (Tag.ofName?_eq_some_iff.2 h_name),
      keepsText_eq_false_iff.2 h_infix⟩

mutual

theorem ofNode_silent : (piece : Node) → ∀ found, Holds false piece found →
    Silent (ofNode (some source) piece) (ofNode (none : Option (Source Unit)) piece)
  | .text value => fun _ _ => Silent.pure _
  | .group items => by
    have ih := ofNodes_silent items
    intro found h_holds
    rw [ofNode, ofNode]
    cases h_holds with
    | group h_items => exact (ih _ h_items).bind fun shown => Silent.pure _
  -- A dice or a formula is shown by its value, any other tag by what is in it.
  | .element name as cs => by
    have ih_attributes := ofNodes_silent as
    have ih_children := ofNodes_silent cs
    intro found h_holds
    rw [ofNode, ofNode]
    rcases evaluation?_silent source h_holds with ⟨h_some, h_none, h_name, h_keeps⟩ |
      ⟨tag, asking, unasking, h_some, h_none, h_silent⟩
    · obtain ⟨⟨_, h_attributes⟩, _, h_children⟩ := h_holds.of_element h_name
      rw [h_keeps] at h_attributes
      rw [h_some, h_none]
      refine (ih_attributes _ h_attributes).bind fun shown => ?_
      exact (ih_children _ h_children).bind fun others => Silent.pure _
    · rw [h_some, h_none]
      exact valueOf_silent h_silent

theorem ofNodes_silent : (pieces : List Node) → ∀ found, HoldsAll false pieces found →
    Silent (ofNodes (some source) pieces) (ofNodes (none : Option (Source Unit)) pieces)
  | [] => fun _ _ => Silent.pure _
  | piece :: pieces => by
    have ih_piece := ofNode_silent piece
    have ih_pieces := ofNodes_silent pieces
    intro found h_holds
    rw [ofNodes, ofNodes]
    cases h_holds with
    | cons h_piece h_pieces =>
      refine (ih_piece _ h_piece).bind fun shown => ?_
      exact (ih_pieces _ h_pieces).bind fun others => Silent.pure _

end

end View

/-- A document without fresh dice is shown alike with a source, which is not asked. -/
theorem Document.view_of_holds {document : Document} {found : List Roll}
    (h : HoldsAll false document found) (s : σ) :
    document.view (some source) s = (document.viewStored, s) :=
  View.ofNodes_silent source document found h s

end DiceMarkup
