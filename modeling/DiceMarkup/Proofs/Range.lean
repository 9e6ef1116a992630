/-
  DiceMarkup.Proofs.Range

  Dice stay within their bounds, whatever a source answers. A source is asked
  with bounds that are in order, since a dice with other bounds is never rolled;
  so the answer can be brought into them. What is shown of a dice is a result
  within its bounds, on each of its ways there: rolled now, or read from the
  text. And a dice that was baked holds the answer that it was given.

  Pieces:
  * `Document.fresh_ordered` — the bounds that a source is asked with are in order
  * `View.rolls`, `View.Shows.inRange` — the results of dice in a view
  * `Bakes`, `BakesAll` — what becomes of each piece, from a state to a state
  * `Baking.formula_bakes`, `Baking.pieces_bake` — baking
  * `Document.dice_inRange` — whole documents
-/
import DiceMarkup.Proofs.Bounds
import DiceMarkup.Proofs.Calls
import DiceMarkup.Proofs.Shown

namespace DiceMarkup

open Node (formulas formulasAll freshAll freshInFormula freshOf isElement keepsText)
open Rolling (Call Source)

/-! ## The bounds that a source is asked with -/

/-- A dice whose bounds are not in order is no fresh dice. -/
theorem Dice.ordered_of_fresh {attributes children : List Node} {min max : Int64}
    (h : classify attributes children = .ok (.fresh min max)) : min ≤ max := by
  obtain ⟨h_bounds, -⟩ := classify_eq_fresh h
  obtain ⟨-, -, -, -, -, h_order⟩ := bounds_eq_ok h_bounds
  exact h_order

/-- The lower bound is the first one. -/
def Bounds.Ordered (bounds : Bounds) : Prop :=
  bounds.1 ≤ bounds.2

namespace Node

theorem freshOf_ordered (attributes children : List Node) :
    ∀ bounds ∈ freshOf attributes children, bounds.Ordered := by
  intro bounds h_mem
  unfold freshOf at h_mem
  split at h_mem
  · rename_i min max h_fresh
    rw [List.mem_singleton.1 h_mem]
    exact Dice.ordered_of_fresh h_fresh
  · exact absurd h_mem (by simp)

mutual

/-- The bounds of fresh dice are in order, if those of the dice in formulas are. -/
theorem fresh_ordered {f : String → List Bounds} (raw : Bool) : (node : Node) →
    (∀ inner ∈ formulas raw node, ∀ bounds ∈ f inner, bounds.Ordered) →
      ∀ bounds ∈ fresh f raw node, bounds.Ordered
  | .text value => by
    intro h_formulas bounds h_mem
    rw [fresh] at h_mem
    cases raw with
    | false => exact absurd h_mem (by simp)
    | true => exact h_formulas value (by simp [formulas]) bounds h_mem
  | .group items => by
    have ih := freshAll_ordered (f := f) false items
    intro h_formulas
    rw [fresh]
    exact ih h_formulas
  | .element name attributes children => by
    have ih_attributes := freshAll_ordered (f := f) (keepsText name) attributes
    have ih_children := freshAll_ordered (f := f) false children
    intro h_formulas
    rw [fresh]
    split
    · exact freshOf_ordered attributes children
    · rename_i h_name
      rw [formulas, if_neg h_name] at h_formulas
      obtain ⟨h_attributes, h_children⟩ := List.forall_mem_append.1 h_formulas
      exact List.forall_mem_append.2 ⟨ih_attributes h_attributes, ih_children h_children⟩

theorem freshAll_ordered {f : String → List Bounds} (raw : Bool) : (nodes : List Node) →
    (∀ inner ∈ formulasAll raw nodes, ∀ bounds ∈ f inner, bounds.Ordered) →
      ∀ bounds ∈ freshAll f raw nodes, bounds.Ordered
  | [] => fun _ _ h_mem => absurd h_mem (by simp [freshAll])
  | node :: nodes => by
    have ih_node := fresh_ordered (f := f) raw node
    have ih_nodes := freshAll_ordered (f := f) raw nodes
    intro h_formulas
    rw [formulasAll] at h_formulas
    rw [freshAll]
    obtain ⟨h_node, h_nodes⟩ := List.forall_mem_append.1 h_formulas
    exact List.forall_mem_append.2 ⟨ih_node h_node, ih_nodes h_nodes⟩

end

theorem freshInFormula_ordered (raw : String) :
    ∀ bounds ∈ freshInFormula raw, bounds.Ordered := by
  induction raw using Document.formula_induction with
  | _ raw ih =>
    rw [freshInFormula_eq]
    exact freshAll_ordered false _ ih

end Node

/-- The bounds of the fresh dice of a document are in order. -/
theorem Document.fresh_ordered (document : Document) :
    ∀ bounds ∈ document.fresh, bounds.Ordered :=
  Node.freshAll_ordered false document fun inner _ => Node.freshInFormula_ordered inner

/-- Calls for dice with bounds in order have their bounds in order. -/
theorem ordered_of_calls {calls : List Call} {listed : List Bounds}
    (h_listed : ∀ bounds ∈ listed, bounds.Ordered)
    (h_calls : (calls.map Call.bounds).Sublist listed) : ∀ call ∈ calls, call.min ≤ call.max :=
  fun _ h_mem => h_listed _ (h_calls.subset (List.mem_map_of_mem h_mem))

/-! ## Results -/

/-- The result is within the bounds. -/
def Roll.InRange (roll : Roll) : Prop :=
  roll.min ≤ roll.result ∧ roll.result ≤ roll.max

namespace Dice

/-- What a dice holds has been compared with its bounds. -/
theorem inRange_of_classify {attributes children : List Node} {roll : Roll}
    (h : classify attributes children = .ok (.stored roll)) : roll.InRange := by
  obtain ⟨min, max, -, ⟨-, h_state⟩ | ⟨_, result, -, -, h_inside, h_state⟩⟩ := classify_eq_ok h
  · exact absurd h_state (by simp)
  · obtain rfl := State.stored.inj h_state
    -- A result beyond the bounds would have been an error.
    simp only [Int64.lt_iff_toInt_lt] at h_inside
    rw [Roll.InRange, Int64.le_iff_toInt_le, Int64.le_iff_toInt_le]
    dsimp only
    omega

/-- A dice is worked out to a result within its bounds, stored or rolled now. -/
theorem resolve_inRange {σ : Type} {reader : Option (Source σ)} {attributes children : List Node}
    {roll : Roll} {s s' : σ}
    (h : (resolve reader attributes children).run s = (.ok roll, s')) : roll.InRange := by
  rcases resolve_run_eq_ok h with ⟨h_stored, -⟩ | ⟨source, min, max, -, h_fresh, rfl, -⟩
  · exact inRange_of_classify h_stored
  · have h_order := ordered_of_fresh h_fresh
    exact ⟨le_clamp h_order _, clamp_le h_order _⟩

end Dice

/-! ## Views -/

namespace View

mutual

/-- The results of dice that are shown; those in formulas are part of a text. -/
def rolls : View → List Roll
  | .text _ => []
  | .element _ attributes children => rollsAll attributes ++ rollsAll children
  | .group items => rollsAll items
  | .dice roll => [roll]
  | .formula _ => []

def rollsAll : List View → List Roll
  | [] => []
  | view :: views => rolls view ++ rollsAll views

end

section Results

variable {σ : Type} {reader : Option (Source σ)}

mutual

/-- The results of dice that are shown of a piece are within their bounds. -/
theorem Shows.inRange {s s' : σ} {piece : Node} {shown : View} {reports : List Diagnostic} :
    Shows reader s piece shown reports s' → ∀ roll ∈ shown.rolls, roll.InRange
  | .text value => fun _ h_mem => absurd h_mem (by simp [rolls])
  | .group h_items => by
    have ih := h_items.inRange
    rw [rolls]
    exact ih
  | .element _ _ _ h_attributes h_children => by
    have ih_attributes := h_attributes.inRange
    have ih_children := h_children.inRange
    rw [rolls]
    exact List.forall_mem_append.2 ⟨ih_attributes, ih_children⟩
  | .dice h_roll => by
    rw [rolls]
    exact List.forall_mem_singleton.2 (Dice.resolve_inRange h_roll)
  | .formula _ => fun _ h_mem => absurd h_mem (by simp [rolls])
  | .infixFormula _ => fun _ h_mem => absurd h_mem (by simp [rolls])
  | .fallback _ _ _ _ => fun _ h_mem => absurd h_mem (by simp [rolls])

theorem ShowsAll.inRange {s s' : σ} {pieces : List Node} {shown : List View}
    {reports : List Diagnostic} :
    ShowsAll reader s pieces shown reports s' → ∀ roll ∈ rollsAll shown, roll.InRange
  | .nil => fun _ h_mem => absurd h_mem (by simp [rollsAll])
  | .cons h_node h_nodes => by
    have ih_node := h_node.inRange
    have ih_nodes := h_nodes.inRange
    rw [rollsAll]
    exact List.forall_mem_append.2 ⟨ih_node, ih_nodes⟩

end

end Results

end View

/-! ## What becomes of a piece -/

section Baked

variable {σ : Type} (source : Source σ)

mutual

/-- A piece, what is baked of it from a state of the source, and the state after it; the flag tells
    that a text is the text of a formula. -/
inductive Bakes : σ → Bool → Node → Node → σ → Prop
  | text {s : σ} (value : String) : Bakes s false (.text value) (.text value) s
  /-- A formula without a tag is kept as it stands. -/
  | plainFormula {s : σ} {raw : String} (h_plain : (Document.parse raw).any isElement = false) :
      Bakes s true (.text raw) (.text raw) s
  | formula {s s' : σ} {raw : String} {baked : List Node}
      (h_baked : BakesAll s false (Document.parse raw) baked s') :
      Bakes s true (.text raw) (.text (Document.toText baked)) s'
  | group {s s' : σ} {raw : Bool} {items baked : List Node}
      (h_items : BakesAll s false items baked s') : Bakes s raw (.group items) (.group baked) s'
  | element {s s' s'' : σ} {raw : Bool} {name : String} {as bs cs ds : List Node}
      (h_name : name ≠ Tag.dice.name) (h_attributes : BakesAll s (keepsText name) as bs s')
      (h_children : BakesAll s' false cs ds s'') :
      Bakes s raw (.element name as cs) (.element name bs ds) s''
  | stored {s : σ} {raw : Bool} {as cs : List Node} {roll : Roll}
      (h_dice : Dice.classify as cs = .ok (.stored roll)) :
      Bakes s raw (.element Tag.dice.name as cs) (.element Tag.dice.name as cs) s
  /-- A fresh dice is asked for once, and from then on holds the answer, brought into its bounds. -/
  | rolled {s : σ} {raw : Bool} {as cs ds : List Node} {min max : Int64}
      (h_fresh : Dice.classify as cs = .ok (.fresh min max)) (h_order : min ≤ max)
      (h_stored : Dice.classify as ds =
        .ok (.stored ⟨min, max, Dice.clamp min max (source.roll s min max).1⟩)) :
      Bakes s raw (.element Tag.dice.name as cs) (.element Tag.dice.name as ds)
        (source.roll s min max).2
  | failed {s : σ} {raw : Bool} {as cs : List Node} {error : EvalError}
      (h_dice : Dice.classify as cs = .error error) :
      Bakes s raw (.element Tag.dice.name as cs)
        (.text (Node.element Tag.dice.name as cs).toText) s

/-- The same for pieces one after the other. -/
inductive BakesAll : σ → Bool → List Node → List Node → σ → Prop
  | nil {s : σ} {raw : Bool} : BakesAll s raw [] [] s
  | cons {s s' s'' : σ} {raw : Bool} {node baked : Node} {nodes others : List Node}
      (h_node : Bakes s raw node baked s') (h_nodes : BakesAll s' raw nodes others s'') :
      BakesAll s raw (node :: nodes) (baked :: others) s''

end

namespace Baking

theorem dice_bakes (raw : Bool) (attributes children : List Node) (s : σ) :
    let run := dice source Tag.dice.name attributes children s
    Bakes source s raw (.element Tag.dice.name attributes children) run.1.1 run.2 := by
  unfold dice
  cases h_dice : Dice.classify attributes children with
  | error error => exact .failed h_dice
  | ok state =>
    cases state with
    | stored roll => exact .stored h_dice
    | fresh min max =>
      -- The answer is written as the result, and the dice is read with it.
      obtain ⟨h_bounds, -⟩ := Dice.classify_eq_fresh h_dice
      exact .rolled h_dice (Dice.ordered_of_fresh h_dice) (Dice.classify_rolled h_bounds _)

/-- The text of a formula is baked to this, wherever the source stands. -/
def FormulaBakes (raw : String) : Prop :=
  ∀ s, Bakes source s true (.text raw) (.text (formula source raw s).1.1) (formula source raw s).2

mutual

/-- A piece is baked as what it is, if its formulas are. -/
theorem piece_bakes (raw : Bool) : (node : Node) →
    (∀ inner ∈ formulas raw node, FormulaBakes source inner) →
      ∀ s, Bakes source s raw node (piece source (formula source) raw node s).1.1
        (piece source (formula source) raw node s).2
  | .text value => by
    intro h_formulas s
    rw [piece]
    cases raw with
    | false => exact .text value
    | true => exact h_formulas value (by simp [formulas]) s
  | .group items => by
    have ih := pieces_bake false items
    intro h_formulas s
    rw [piece]
    exact .group (ih h_formulas s)
  | .element name attributes children => by
    have ih_attributes := pieces_bake (keepsText name) attributes
    have ih_children := pieces_bake false children
    intro h_formulas s
    rw [piece]
    split
    · rename_i h_name
      subst h_name
      exact dice_bakes source raw attributes children s
    · rename_i h_name
      rw [formulas, if_neg h_name] at h_formulas
      obtain ⟨h_attributes, h_children⟩ := List.forall_mem_append.1 h_formulas
      -- The children are baked from the state that the attributes leave.
      exact .element h_name (ih_attributes h_attributes s) (ih_children h_children _)

theorem pieces_bake (raw : Bool) : (nodes : List Node) →
    (∀ inner ∈ formulasAll raw nodes, FormulaBakes source inner) →
      ∀ s, BakesAll source s raw nodes (pieces source (formula source) raw nodes s).1.1
        (pieces source (formula source) raw nodes s).2
  | [] => fun _ _ => .nil
  | node :: nodes => by
    have ih_node := piece_bakes raw node
    have ih_nodes := pieces_bake raw nodes
    intro h_formulas s
    rw [formulasAll] at h_formulas
    obtain ⟨h_node, h_nodes⟩ := List.forall_mem_append.1 h_formulas
    rw [pieces]
    exact .cons (ih_node h_node s) (ih_nodes h_nodes _)

end

/-- The text of a formula is read, baked and written. -/
theorem formula_bakes (raw : String) : FormulaBakes source raw := by
  induction raw using Document.formula_induction with
  | _ raw ih =>
    intro s
    rw [formula_eq]
    split
    · apply Bakes.formula
      exact pieces_bake source false _ ih s
    · rename_i h_none
      exact .plainFormula (Bool.not_eq_true _ ▸ h_none)

end Baking

end Baked

/-! ## Documents -/

/-- Whatever a source answers, it is asked with bounds that are in order, what is shown of a dice is
    within its bounds, and a dice that was baked holds the answer to its own question, brought into
    its bounds. -/
theorem Document.dice_inRange {σ : Type} (source : Source σ) (reader : Option (Source σ))
    (document : Document) (start : σ) :
    (∀ call ∈ Source.calls (document.bake source.traced) start, call.min ≤ call.max) ∧
      (∀ call ∈ Source.calls (document.view (some source.traced)) start, call.min ≤ call.max) ∧
      (∀ roll ∈ View.rollsAll (document.view reader start).1.1,
        roll.min ≤ roll.result ∧ roll.result ≤ roll.max) ∧
      BakesAll source start false document (document.bake source start).1.1
        (document.bake source start).2 := by
  have h_bake : Asks (document.bake source.traced) document.fresh := by
    rw [Document.bake, Baking.nodes_eq]
    exact Baking.pieces_ask source false document fun inner _ => Baking.formula_asks source inner
  have h_view : AsksWithin (document.view (some source.traced)) document.fresh :=
    View.ofNodes_ask source document
  refine ⟨ordered_of_calls document.fresh_ordered (h_bake.within.calls_sublist start),
    ordered_of_calls document.fresh_ordered (h_view.calls_sublist start),
    (View.ofNodes_shows document start).inRange, ?_⟩
  rw [Document.bake, Baking.nodes_eq]
  exact Baking.pieces_bake source false document (fun inner _ => Baking.formula_bakes source inner)
    start

/-- A source that answers beyond the bounds is asked once, and the dice gets its upper bound. -/
theorem Document.dice_inRange_beyond :
    let source := Source.ofFunction fun _ max => max + 5
    let document : Document := [.element "bld" [] [.element "dice" [.text "-2", .text "6"] []]]
    let asked : Call := ⟨-2, 6, 11⟩
    let roll : Roll := ⟨-2, 6, 6⟩
    Source.calls (document.bake source.traced) () = [asked] ∧ asked.min ≤ asked.max ∧
      View.rollsAll (document.view (some source) ()).1.1 = [roll] ∧ roll.InRange := by
  intro source document asked roll
  have h_calls : Source.calls (document.bake source.traced) () = [asked] := by cbv
  have h_rolls : View.rollsAll (document.view (some source) ()).1.1 = [roll] := by cbv
  obtain ⟨h_bake, -, h_view, -⟩ := Document.dice_inRange source (some source) document ()
  exact ⟨h_calls, h_bake asked (by rw [h_calls]; exact List.mem_singleton_self _), h_rolls,
    h_view roll (by rw [h_rolls]; exact List.mem_singleton_self _)⟩

end DiceMarkup
