/-
  DiceMarkup.Proofs.Calls

  Which dice a source is asked for, and in what order. A source has a state, so
  one question too many or too few changes every roll after it. Baking asks for
  the fresh dice of a document, each once, in the order of the text. A view may
  ask for fewer of them, since a formula is given up at its first error and its
  children are not shown; it asks for no other ones, and in the same order.

  Pieces:
  * `Document.fresh` — the bounds of the fresh dice of a document, in order
  * `Asks`, `AsksWithin` — what an evaluation asks for, wherever it starts
  * `Baking.pieces_ask`, `Baking.formula_asks` — baking
  * `Formula.Prefix.group_asks`, `Formula.Infix.gather_asks`, `View.ofNodes_ask` — views
  * `Document.calls_fresh` — whole documents
-/
import DiceMarkup.Proofs.Nesting
import DiceMarkup.Proofs.Shape
import DiceMarkup.View

namespace DiceMarkup

open Node (formulas formulasAll keepsText)
open Rolling (Call Source)

/-! ## Fresh dice -/

/-- The two bounds of a dice, the lower one first. -/
abbrev Bounds := Int64 × Int64

/-- The bounds that a call asks for. -/
def Rolling.Call.bounds (call : Call) : Bounds :=
  (call.min, call.max)

namespace Node

/-- The bounds of a dice that waits to be rolled. -/
def freshOf (attributes children : List Node) : List Bounds :=
  match Dice.classify attributes children with
  | .ok (.fresh min max) => [(min, max)]
  | _ => []

mutual

/-- The fresh dice of a tree, attributes before children; `formula` lists those of the text of a
    formula, and `raw` tells that a text is one. What stands among the attributes of a dice is no
    dice of the tree. -/
def fresh (formula : String → List Bounds) (raw : Bool) : Node → List Bounds
  | .text value => if raw then formula value else []
  | .group items => freshAll formula false items
  | .element name attributes children =>
    if name = Tag.dice.name then freshOf attributes children
    else freshAll formula (keepsText name) attributes ++ freshAll formula false children

def freshAll (formula : String → List Bounds) (raw : Bool) : List Node → List Bounds
  | [] => []
  | node :: nodes => fresh formula raw node ++ freshAll formula raw nodes

end

/-- The fresh dice in the text of a formula, and in the formulas within it to so many levels. -/
def freshToDepth : Nat → String → List Bounds
  | 0, _ => []
  | levels + 1, raw => freshAll (freshToDepth levels) false (Document.parse raw)

/-- The fresh dice in the text of a formula. A formula within a formula is shorter than the one
    around it, so there are no more levels than characters. -/
def freshInFormula (raw : String) : List Bounds :=
  freshToDepth raw.length raw

mutual

theorem fresh_congr {f g : String → List Bounds} (raw : Bool) : (node : Node) →
    (∀ inner ∈ formulas raw node, f inner = g inner) → fresh f raw node = fresh g raw node
  | .text value => by
    intro h
    rw [fresh, fresh]
    cases raw with
    | false => rfl
    | true => rw [if_pos rfl, if_pos rfl, h value (by simp [formulas])]
  | .group items => by
    have ih := freshAll_congr (f := f) (g := g) false items
    intro h
    rw [fresh, fresh, ih h]
  | .element name attributes children => by
    have ih_attributes := freshAll_congr (f := f) (g := g) (keepsText name) attributes
    have ih_children := freshAll_congr (f := f) (g := g) false children
    intro h
    rw [fresh, fresh]
    split
    · rfl
    · rename_i h_name
      rw [formulas, if_neg h_name, List.forall_mem_append] at h
      rw [ih_attributes h.1, ih_children h.2]

theorem freshAll_congr {f g : String → List Bounds} (raw : Bool) : (nodes : List Node) →
    (∀ inner ∈ formulasAll raw nodes, f inner = g inner) →
      freshAll f raw nodes = freshAll g raw nodes
  | [] => fun _ => rfl
  | node :: nodes => by
    have ih_node := fresh_congr (f := f) (g := g) raw node
    have ih_nodes := freshAll_congr (f := f) (g := g) raw nodes
    intro h
    rw [formulasAll, List.forall_mem_append] at h
    rw [freshAll, freshAll, ih_node h.1, ih_nodes h.2]

end

theorem freshInFormula_descends :
    Descends (fun formula raw => freshAll formula false (Document.parse raw)) freshToDepth where
  empty := by
    intro formula raw h_empty
    rw [freshToDepth, h_empty, freshAll]
  deeper := fun _ _ => rfl
  congr := fun _ _ _ h => freshAll_congr false _ h

/-- The fresh dice of a formula are those of the document that its text is read as. -/
theorem freshInFormula_eq (raw : String) :
    freshInFormula raw = freshAll freshInFormula false (Document.parse raw) :=
  freshInFormula_descends.eq_step raw

/-- Pieces that were collected without a tag among them are texts, and hold no dice. -/
theorem freshAll_of_collected (formula : String → List Bounds) {nodes : List Node}
    (h : Collected nodes) (h_none : nodes.any isElement = false) :
    freshAll formula false nodes = [] := by
  induction nodes with
  | nil => rfl
  | cons node nodes ih =>
    rw [List.any_cons, Bool.or_eq_false_iff] at h_none
    cases node with
    | text value => rw [freshAll, fresh, if_neg (by decide), ih h.tail h_none.2, List.append_nil]
    | group items => exact absurd List.mem_cons_self (h.ungrouped items)
    | element name as cs => exact absurd h_none.1 (by simp [isElement])

end Node

open Node (fresh freshAll freshOf freshInFormula)

/-- The bounds of the fresh dice of a document, in the order of the text. -/
def Document.fresh (document : Document) : List Bounds :=
  freshAll freshInFormula false document

/-! ## Evaluations that ask -/

section Asking

variable {σ α β : Type}

/-- Wherever it starts, the evaluation asks for dice with these bounds, in this order. -/
def Asks (x : StateM (σ × List Call) α) (found : List Bounds) : Prop :=
  ∀ s, (x s).2.2.map Call.bounds = found.reverse ++ s.2.map Call.bounds

/-- Wherever it starts, the evaluation asks for some of these dice, in this order. Which ones may
    depend on the answers. -/
def AsksWithin (x : StateM (σ × List Call) α) (listed : List Bounds) : Prop :=
  ∀ s, ∃ found : List Bounds, found.Sublist listed ∧
    (x s).2.2.map Call.bounds = found.reverse ++ s.2.map Call.bounds

namespace Asks

theorem pure (a : α) : Asks (Pure.pure a : StateM (σ × List Call) α) [] :=
  fun _ => rfl

theorem bind {x : StateM (σ × List Call) α} {f : α → StateM (σ × List Call) β}
    {found others : List Bounds} (h : Asks x found) (h_next : ∀ a, Asks (f a) others) :
    Asks (x >>= f) (found ++ others) := by
  intro s
  show (f (x s).1 (x s).2).2.2.map Call.bounds = _
  rw [h_next, h, List.reverse_append, List.append_assoc]

/-- What comes after asks for nothing. -/
theorem andReturn {x : StateM (σ × List Call) α} {f : α → StateM (σ × List Call) β}
    {found : List Bounds} (h : Asks x found) (h_next : ∀ a, Asks (f a) []) :
    Asks (x >>= f) found := by
  have h_all := h.bind h_next
  rwa [List.append_nil] at h_all

theorem within {x : StateM (σ × List Call) α} {found : List Bounds} (h : Asks x found) :
    AsksWithin x found :=
  fun s => ⟨found, .refl found, h s⟩

/-- A dice is rolled with one question. -/
theorem roll (source : Source σ) (min max : Int64) :
    Asks (Dice.roll source.traced min max) [(min, max)] :=
  fun _ => rfl

end Asks

namespace AsksWithin

theorem mono {x : StateM (σ × List Call) α} {listed others : List Bounds} (h : AsksWithin x listed)
    (h_sub : listed.Sublist others) : AsksWithin x others := by
  intro s
  obtain ⟨found, h_found, h_calls⟩ := h s
  exact ⟨found, h_found.trans h_sub, h_calls⟩

theorem pure (a : α) (listed : List Bounds) :
    AsksWithin (Pure.pure a : StateM (σ × List Call) α) listed :=
  (Asks.pure a).within.mono (List.nil_sublist listed)

theorem bind {x : StateM (σ × List Call) α} {f : α → StateM (σ × List Call) β}
    {listed others : List Bounds} (h : AsksWithin x listed)
    (h_next : ∀ a, AsksWithin (f a) others) :
    AsksWithin (x >>= f) (listed ++ others) := by
  intro s
  obtain ⟨found, h_found, h_calls⟩ := h s
  obtain ⟨found', h_found', h_calls'⟩ := h_next (x s).1 (x s).2
  refine ⟨found ++ found', h_found.append h_found', ?_⟩
  show (f (x s).1 (x s).2).2.2.map Call.bounds = _
  rw [h_calls', h_calls, List.reverse_append, List.append_assoc]

/-- What comes after asks for nothing. -/
theorem bindReturn {x : StateM (σ × List Call) α} {f : α → StateM (σ × List Call) β}
    {listed : List Bounds} (h : AsksWithin x listed) (h_next : ∀ a, AsksWithin (f a) []) :
    AsksWithin (x >>= f) listed := by
  have h_all := h.bind h_next
  rwa [List.append_nil] at h_all

theorem throw (error : EvalError) (listed : List Bounds) :
    AsksWithin (MonadExcept.throw error : Eval (σ × List Call) α).run listed :=
  AsksWithin.pure _ listed

theorem lift (outcome : Except EvalError α) (listed : List Bounds) :
    AsksWithin (liftExcept outcome : Eval (σ × List Call) α).run listed := by
  cases outcome with
  | ok a => exact AsksWithin.pure _ listed
  | error error => exact throw error listed

/-- An evaluation that stops at an error asks for nothing that would come after it. -/
theorem andThen {x : Eval (σ × List Call) α} {f : α → Eval (σ × List Call) β}
    {listed others : List Bounds} (h : AsksWithin x.run listed)
    (h_next : ∀ a, AsksWithin (f a).run others) : AsksWithin (x >>= f).run (listed ++ others) := by
  rw [ExceptT.run_bind]
  apply h.bind
  intro outcome
  cases outcome with
  -- The dice that come after an error are listed, but are not asked for.
  | ok a => exact h_next a
  | error error => exact AsksWithin.pure _ others

/-- What comes after asks for nothing. -/
theorem andReturn {x : Eval (σ × List Call) α} {f : α → Eval (σ × List Call) β}
    {listed : List Bounds} (h : AsksWithin x.run listed) (h_next : ∀ a, AsksWithin (f a).run []) :
    AsksWithin (x >>= f).run listed := by
  have h_all := h.andThen h_next
  rwa [List.append_nil] at h_all

theorem map {x : Eval (σ × List Call) α} {listed : List Bounds} (f : α → β)
    (h : AsksWithin x.run listed) : AsksWithin (f <$> x).run listed := by
  rw [map_eq_pure_bind]
  exact h.andReturn fun a => AsksWithin.pure _ []

end AsksWithin

end Asking

variable {σ : Type} (source : Source σ)

/-! ## Baking -/

namespace Baking

/-- A fresh dice is asked for, and no other one. -/
theorem dice_asks (name : String) (attributes children : List Node) :
    Asks (dice source.traced name attributes children) (freshOf attributes children) := by
  unfold dice freshOf
  cases Dice.classify attributes children with
  | error error => exact Asks.pure _
  | ok state =>
    cases state with
    | stored roll => exact Asks.pure _
    | fresh min max => exact (Asks.roll source min max).andReturn fun roll => Asks.pure _

mutual

/-- A piece is baked by asking for its fresh dice, if its formulas are. -/
theorem piece_asks (raw : Bool) : (node : Node) →
    (∀ inner ∈ formulas raw node, Asks (formula source.traced inner) (freshInFormula inner)) →
      Asks (piece source.traced (formula source.traced) raw node) (fresh freshInFormula raw node)
  | .text value => by
    intro h_formulas
    rw [piece, fresh]
    cases raw with
    | false => exact Asks.pure _
    | true => exact (h_formulas value (by simp [formulas])).andReturn fun _ => Asks.pure _
  | .group items => by
    have ih := pieces_ask false items
    intro h_formulas
    rw [piece, fresh]
    exact (ih h_formulas).andReturn fun _ => Asks.pure _
  | .element name attributes children => by
    have ih_attributes := pieces_ask (keepsText name) attributes
    have ih_children := pieces_ask false children
    intro h_formulas
    rw [piece, fresh]
    split
    · exact dice_asks source name attributes children
    · rename_i h_name
      rw [formulas, if_neg h_name, List.forall_mem_append] at h_formulas
      -- The attributes come first, as in the text.
      apply (ih_attributes h_formulas.1).bind
      intro _
      exact (ih_children h_formulas.2).andReturn fun _ => Asks.pure _

theorem pieces_ask (raw : Bool) : (nodes : List Node) →
    (∀ inner ∈ formulasAll raw nodes, Asks (formula source.traced inner) (freshInFormula inner)) →
      Asks (pieces source.traced (formula source.traced) raw nodes)
        (freshAll freshInFormula raw nodes)
  | [] => fun _ => Asks.pure _
  | node :: nodes => by
    have ih_node := piece_asks raw node
    have ih_nodes := pieces_ask raw nodes
    intro h_formulas
    rw [formulasAll, List.forall_mem_append] at h_formulas
    rw [pieces, freshAll]
    apply (ih_node h_formulas.1).bind
    intro _
    exact (ih_nodes h_formulas.2).andReturn fun _ => Asks.pure _

end

/-- The text of a formula is baked by asking for the fresh dice in it. -/
theorem formula_asks (raw : String) : Asks (formula source.traced raw) (freshInFormula raw) := by
  induction raw using Document.formula_induction with
  | _ raw ih =>
    rw [formula_eq, Node.freshInFormula_eq]
    split
    · apply Asks.andReturn
      · exact pieces_ask source false _ ih
      · exact fun _ => Asks.pure _
    · rename_i h_none
      -- A formula without a tag is not baked, and there is no dice in it.
      rw [Bool.not_eq_true] at h_none
      rw [Node.freshAll_of_collected _ (Document.collected raw) h_none]
      exact Asks.pure _

end Baking

/-! ## Views -/

theorem resolve_asks (attributes children : List Node) :
    AsksWithin (Dice.resolve (some source.traced) attributes children).run
      (freshOf attributes children) := by
  unfold Dice.resolve freshOf
  cases Dice.classify attributes children with
  | error error => exact AsksWithin.throw error []
  | ok state =>
    cases state with
    | stored roll => exact AsksWithin.pure _ []
    | fresh min max =>
      show AsksWithin (liftM (Dice.roll source.traced min max) : Eval _ Roll).run [(min, max)]
      exact ((Asks.roll source min max).andReturn fun roll => Asks.pure _).within

/-- A dice is no formula, whose text would be read. -/
theorem fresh_dice (formula : String → List Bounds) (raw : Bool) (attributes children : List Node) :
    fresh formula raw (.element Tag.dice.name attributes children) =
      freshOf attributes children := by
  rw [fresh, if_pos rfl]

namespace Formula.Prefix

mutual

theorem group_asks : (items : List Node) →
    AsksWithin (group (some source.traced) items).run (freshAll freshInFormula false items)
  | [] => AsksWithin.throw _ _
  | .element .. :: _ => AsksWithin.throw _ _
  | .group _ :: _ => AsksWithin.throw _ _
  | .text written :: arguments => by
    have ih := operands_ask arguments
    rw [group, freshAll, fresh, if_neg (by decide), List.nil_append]
    cases Operator.ofText? written with
    | none => exact AsksWithin.throw _ _
    | some operator => exact ih.andReturn fun terms => AsksWithin.lift _ []

theorem operands_ask : (arguments : List Node) →
    AsksWithin (operands (some source.traced) arguments).run
      (freshAll freshInFormula false arguments)
  | [] => AsksWithin.pure _ _
  | argument :: arguments => by
    have ih_argument := operand_asks argument
    have ih_arguments := operands_ask arguments
    rw [operands, freshAll]
    apply ih_argument.andThen
    intro term
    exact ih_arguments.andReturn fun terms => AsksWithin.pure _ []

theorem operand_asks : (argument : Node) →
    AsksWithin (operand (some source.traced) argument).run (fresh freshInFormula false argument)
  | .text written => by
    rw [operand]
    cases readNumber? written with
    | none => exact AsksWithin.throw _ _
    | some value => exact AsksWithin.pure _ _
  | .group items => by
    have ih := group_asks items
    rw [operand, fresh]
    exact ih.andReturn fun inner => AsksWithin.pure _ []
  | .element name attributes children => by
    rw [operand]
    split
    · rename_i h_name
      obtain rfl := Tag.ofName?_eq_some_iff.1 h_name
      rw [fresh_dice]
      exact (resolve_asks source attributes children).andReturn fun roll => AsksWithin.pure _ []
    · exact AsksWithin.throw _ _

end

theorem evaluate_asks (attributes : List Node) :
    AsksWithin (evaluate (some source.traced) attributes).run
      (freshAll freshInFormula false attributes) := by
  unfold evaluate
  split
  · rename_i items
    rw [freshAll, freshAll, List.append_nil, fresh]
    exact group_asks source items
  · exact AsksWithin.throw _ _

end Formula.Prefix

namespace Formula.Infix

theorem gather_asks (nodes : List Node) :
    AsksWithin (gather (some source.traced) nodes).run (freshAll freshInFormula false nodes) := by
  induction nodes with
  | nil => exact AsksWithin.pure _ _
  | cons node nodes ih =>
    rw [freshAll]
    cases node with
    | text written =>
      rw [gather]
      -- A text asks for nothing, but may end the formula with an error.
      apply (AsksWithin.lift (tokenize written) _).andThen
      intro words
      exact ih.andReturn fun others => AsksWithin.pure _ []
    | group items => exact AsksWithin.throw _ _
    | element name attributes children =>
      rw [gather]
      split
      · rename_i h_name
        obtain rfl := Tag.ofName?_eq_some_iff.1 h_name
        rw [fresh_dice]
        apply (resolve_asks source attributes children).andThen
        intro roll
        exact ih.andReturn fun others => AsksWithin.pure _ []
      · exact AsksWithin.throw _ _

theorem evaluate_asks (attributes : List Node) :
    AsksWithin (evaluate (some source.traced) attributes).run
      (freshAll freshInFormula true attributes) := by
  unfold evaluate
  split
  · rename_i raw
    rw [freshAll, freshAll, List.append_nil, fresh, if_pos rfl, Node.freshInFormula_eq]
    apply (gather_asks source (Document.parse raw)).andReturn
    intro gathered
    exact (AsksWithin.lift _ []).andReturn fun value => AsksWithin.pure _ []
  · exact AsksWithin.throw _ _

end Formula.Infix

namespace View

theorem valueOf_asks {tag : Tag} {piece : Node} {evaluation : Eval (σ × List Call) View}
    {listed : List Bounds} (h : AsksWithin evaluation.run listed) :
    AsksWithin (valueOf tag piece evaluation) listed := by
  apply h.bindReturn
  intro outcome
  cases outcome with
  | ok value => exact AsksWithin.pure _ []
  | error error => exact AsksWithin.pure _ []

/-- A dice or a formula is evaluated with dice that are its own. -/
theorem evaluation?_asks {name : String} {attributes children : List Node} {tag : Tag}
    {evaluation : Eval (σ × List Call) View}
    (h : evaluation? (some source.traced) name attributes children = some (tag, evaluation)) :
    AsksWithin evaluation.run (fresh freshInFormula false (.element name attributes children)) := by
  obtain ⟨rfl, ⟨rfl, rfl⟩ | ⟨rfl, rfl⟩ | ⟨rfl, rfl⟩⟩ := evaluation?_eq_some h
  · rw [fresh_dice]
    exact (resolve_asks source attributes children).map _
  · rw [fresh, if_neg (by decide)]
    -- The children of a formula are not evaluated.
    apply AsksWithin.mono _ (List.sublist_append_left _ _)
    exact (Formula.Prefix.evaluate_asks source attributes).map _
  · rw [fresh, if_neg (by decide)]
    apply AsksWithin.mono _ (List.sublist_append_left _ _)
    exact (Formula.Infix.evaluate_asks source attributes).map _

/-- What has no evaluation is neither a dice nor an infix formula. -/
theorem name_of_evaluation?_eq_none {source : Option (Source σ)} {name : String}
    {attributes children : List Node} (h : evaluation? source name attributes children = none) :
    name ≠ Tag.dice.name ∧ keepsText name = false := by
  obtain ⟨h_dice, -, h_infix⟩ := not_evaluated h
  exact ⟨h_dice, keepsText_eq_false_iff.2 fun h_name => h_infix (Tag.ofName?_eq_some_iff.1 h_name)⟩

mutual

/-- A piece is shown by asking for some of its fresh dice. -/
theorem ofNode_asks : (piece : Node) →
    AsksWithin (ofNode (some source.traced) piece) (fresh freshInFormula false piece)
  | .text value => AsksWithin.pure _ _
  | .group items => by
    have ih := ofNodes_ask items
    rw [ofNode, fresh]
    exact ih.bindReturn fun shown => AsksWithin.pure _ []
  | .element name attributes children => by
    have ih_attributes := ofNodes_ask attributes
    have ih_children := ofNodes_ask children
    rw [ofNode]
    split
    · rename_i tag evaluation h_some
      exact valueOf_asks (evaluation?_asks source h_some)
    · rename_i h_none
      obtain ⟨h_name, h_keeps⟩ := name_of_evaluation?_eq_none h_none
      rw [fresh, if_neg h_name, h_keeps]
      apply ih_attributes.bind
      intro shown
      exact ih_children.bindReturn fun others => AsksWithin.pure _ []

theorem ofNodes_ask : (pieces : List Node) →
    AsksWithin (ofNodes (some source.traced) pieces) (freshAll freshInFormula false pieces)
  | [] => AsksWithin.pure _ _
  | piece :: pieces => by
    have ih_piece := ofNode_asks piece
    have ih_pieces := ofNodes_ask pieces
    rw [ofNodes, freshAll]
    apply ih_piece.bind
    intro shown
    exact ih_pieces.bindReturn fun others => AsksWithin.pure _ []

end

end View

/-! ## Documents -/

/-- The calls that a run from this state makes, the first one first. -/
def Rolling.Source.calls {α : Type} (run : StateM (σ × List Call) α) (start : σ) : List Call :=
  (run (start, [])).2.2.reverse

theorem Asks.calls_eq {α : Type} {run : StateM (σ × List Call) α} {found : List Bounds}
    (h : Asks run found) (start : σ) : (Source.calls run start).map Call.bounds = found := by
  rw [Source.calls, List.map_reverse, h, List.map_nil, List.append_nil, List.reverse_reverse]

theorem AsksWithin.calls_sublist {α : Type} {run : StateM (σ × List Call) α} {listed : List Bounds}
    (h : AsksWithin run listed) (start : σ) :
    ((Source.calls run start).map Call.bounds).Sublist listed := by
  obtain ⟨found, h_found, h_calls⟩ := h (start, [])
  rw [Source.calls, List.map_reverse, h_calls, List.map_nil, List.append_nil, List.reverse_reverse]
  exact h_found

/-- Baking asks for the fresh dice of a document, each once and in the order of the text, and a view
    asks for some of them in the same order. -/
theorem Document.calls_fresh (document : Document) (start : σ) :
    (Source.calls (document.bake source.traced) start).map Call.bounds = document.fresh ∧
      ((Source.calls (document.view (some source.traced)) start).map Call.bounds).Sublist
        document.fresh := by
  have h_bake : Asks (document.bake source.traced) document.fresh := by
    rw [Document.bake, Baking.nodes_eq]
    exact Baking.pieces_ask source false document fun inner _ => Baking.formula_asks source inner
  have h_view : AsksWithin (document.view (some source.traced)) document.fresh :=
    View.ofNodes_ask source document
  exact ⟨h_bake.calls_eq start, h_view.calls_sublist start⟩

end DiceMarkup
