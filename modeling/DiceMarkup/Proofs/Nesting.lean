/-
  DiceMarkup.Proofs.Nesting

  Formulas within formulas. The text of an infix formula is read as a text of
  its own, from the first level of nesting again, so that the nesting limit
  does not bound how many formulas stand in one another. What bounds them is
  the text: a formula stands behind the opener of its tag, which takes seven
  characters, and the `]` of that opener follows it. So completing and baking
  end on every tree, and the levels that they are given are always enough.

  Pieces:
  * `Node.formulasWithin` — the formulas of a tree, at any level
  * `Encloses`, `EnclosesAll` — formulas and the openers that they stand in
  * `Spells.enclosesAll` — the formulas of a tree stand in its spelling, one behind the other
  * `Document.formula_induction` — from the formulas of a text to the text
  * `Descends` — a recursion over formulas in formulas, whose levels do not count
  * `Submission.formula_eq`, `Baking.formula_eq` — completing and baking, without levels
  * `Document.Nests` — formulas that are read one within the other
  * `NestsWithin.completes`, `NestsWithin.bakes` — as many levels as such formulas are enough
-/
import DiceMarkup.Proofs.Passes
import DiceMarkup.Proofs.Rereading
import DiceMarkup.Proofs.Spelling
import DiceMarkup.Proofs.WellFormed

namespace DiceMarkup

open DiceMarkup.Bracket (rawText)
open Node (formulas formulasAll keepsText)
open Rolling (Source)
open Text (isBlank)

/-! ## The formulas of a tree -/

namespace Node

/-- The characters of a text. -/
def text? : Node → Option String
  | .text value => some value
  | _ => none

/-- The texts among the attributes, if the piece is an infix formula. -/
def ownFormulas : Node → List String
  | .element name attributes _ =>
    if name = Tag.infixFormula.name then attributes.filterMap text? else []
  | _ => []

/-- The texts of the infix formulas that stand anywhere in these pieces, those among the attributes
    of a dice included. -/
def formulasWithin (nodes : List Node) : List String :=
  (subtreesAll nodes).flatMap ownFormulas

@[simp] theorem formulasWithin_nil : formulasWithin [] = [] := rfl

theorem formulasWithin_cons (node : Node) (nodes : List Node) :
    formulasWithin (node :: nodes) = node.subtrees.flatMap ownFormulas ++ formulasWithin nodes := by
  rw [formulasWithin, subtreesAll, List.flatMap_append, formulasWithin]

theorem formulasWithin_append (as bs : List Node) :
    formulasWithin (as ++ bs) = formulasWithin as ++ formulasWithin bs := by
  induction as with
  | nil => rfl
  | cons a as ih =>
    rw [List.cons_append, formulasWithin_cons, ih, formulasWithin_cons, List.append_assoc]

/-- The formulas among the attributes of a tag: the texts, if the tag keeps its text, and the
    formulas inside of the attributes. -/
def formulasListed (raw : Bool) (attributes : List Node) : List String :=
  (if raw then attributes.filterMap text? else []) ++ formulasWithin attributes

@[simp] theorem formulasListed_false (nodes : List Node) :
    formulasListed false nodes = formulasWithin nodes := rfl

theorem formulasWithin_group (items : List Node) :
    (subtrees (.group items)).flatMap ownFormulas = formulasWithin items := rfl

theorem formulasWithin_element (name : String) (attributes children : List Node) :
    (subtrees (.element name attributes children)).flatMap ownFormulas =
      formulasListed (keepsText name) attributes ++ formulasWithin children := by
  rw [subtrees, List.flatMap_cons, List.flatMap_append, ownFormulas, formulasListed]
  simp only [keepsText_iff, List.append_assoc, formulasWithin]

/-- Texts are no formulas of a tag that lists its attributes. -/
theorem formulasListed_texts {raw : Bool} {words : List String} (h : raw = true → words = [])
    (attributes : List Node) :
    formulasListed raw (words.map .text ++ attributes) = formulasListed raw attributes := by
  have h_none : ∀ words : List String, formulasWithin (words.map .text) = [] := by
    intro words
    induction words with
    | nil => rfl
    | cons word words ih => rw [List.map_cons, formulasWithin_cons, ih]; rfl
  cases raw with
  | false =>
    rw [formulasListed_false, formulasListed_false, formulasWithin_append, h_none, List.nil_append]
  | true => rw [h rfl, List.map_nil, List.nil_append]

theorem mem_formulasListed_cons {raw : Bool} {node : Node} {nodes : List Node} {value : String}
    (h : value ∈ formulasListed raw [node] ∨ value ∈ formulasListed raw nodes) :
    value ∈ formulasListed raw (node :: nodes) := by
  have h_texts : (node :: nodes).filterMap text? =
      [node].filterMap text? ++ nodes.filterMap text? :=
    List.filterMap_append (l := [node])
  have h_within : formulasWithin (node :: nodes) = formulasWithin [node] ++ formulasWithin nodes :=
    formulasWithin_append [node] nodes
  cases raw with
  | false =>
    rw [formulasListed_false, h_within]
    exact List.mem_append.2 h
  | true =>
    simp only [formulasListed, if_true, h_texts, h_within, List.mem_append] at h ⊢
    tauto

mutual

theorem formulas_subset (raw : Bool) : (node : Node) →
    formulas raw node ⊆ formulasListed raw [node]
  | .text value => by cases raw <;> simp [formulas, formulasListed, text?]
  | .group items => by
    have ih := formulasAll_subset false items
    intro value h_mem
    refine List.mem_append_right _ ?_
    rw [formulasWithin_cons, formulasWithin_group]
    exact List.mem_append_left _ (ih h_mem)
  | .element name attributes children => by
    have ih_attributes := formulasAll_subset (keepsText name) attributes
    have ih_children := formulasAll_subset false children
    intro value h_mem
    rw [formulas] at h_mem
    split at h_mem
    · -- A dice is left as a whole.
      exact absurd h_mem (by simp)
    refine List.mem_append_right _ ?_
    rw [formulasWithin_cons, formulasWithin_element]
    refine List.mem_append_left _ ?_
    rcases List.mem_append.1 h_mem with h_attribute | h_child
    · exact List.mem_append_left _ (ih_attributes h_attribute)
    · exact List.mem_append_right _ (ih_children h_child)

/-- The formulas that are completed and baked are formulas of the tree. -/
theorem formulasAll_subset (raw : Bool) : (nodes : List Node) →
    formulasAll raw nodes ⊆ formulasListed raw nodes
  | [] => List.nil_subset _
  | node :: nodes => by
    have ih_node := formulas_subset raw node
    have ih_nodes := formulasAll_subset raw nodes
    intro value h_mem
    rw [formulasAll] at h_mem
    exact mem_formulasListed_cons ((List.mem_append.1 h_mem).imp (@ih_node value) (@ih_nodes value))

end

end Node

open Node (formulasWithin)

/-! ## Where formulas stand -/

/-- The formula stands in the text, in an opener of infix formulas. -/
def Encloses (text : List Char) (raw : String) : Prop :=
  ∃ before name space behind, isBlank space = true ∧
    name.map Char.toLower = Tag.infixFormula.name.toList ∧
      text = before ++ '[' :: (name ++ space :: (raw.toList ++ ']' :: behind))

namespace Encloses

variable {text : List Char} {raw : String}

theorem append_right (h : Encloses text raw) (before : List Char) :
    Encloses (before ++ text) raw := by
  obtain ⟨left, name, space, right, h_space, h_name, rfl⟩ := h
  exact ⟨before ++ left, name, space, right, h_space, h_name, (List.append_assoc ..).symm⟩

/-- A formula is shorter than the text that it stands in. -/
theorem length_lt (h : Encloses text raw) : raw.length < text.length := by
  obtain ⟨before, name, space, behind, -, -, rfl⟩ := h
  rw [← String.length_toList]
  simp only [List.length_append, List.length_cons]
  omega

/-- The characters of the formula are a part of the text. -/
theorem isInfix (h : Encloses text raw) : raw.toList <:+: text := by
  obtain ⟨before, name, space, behind, -, -, rfl⟩ := h
  exact ⟨before ++ '[' :: (name ++ [space]), ']' :: behind, by simp⟩

end Encloses

/-- The formulas stand in the text one behind the other, each in an opener of infix formulas of its
    own. -/
inductive EnclosesAll : List Char → List String → Prop
  | nil (text : List Char) : EnclosesAll text []
  | cons {name rest : List Char} {space : Char} {raw : String} {raws : List String}
      (before : List Char) (h_space : isBlank space = true)
      (h_name : name.map Char.toLower = Tag.infixFormula.name.toList)
      (h_rest : EnclosesAll rest raws) :
      EnclosesAll (before ++ '[' :: (name ++ space :: (raw.toList ++ ']' :: rest))) (raw :: raws)

namespace EnclosesAll

variable {text text' : List Char} {raws raws' : List String}

theorem append_right (h : EnclosesAll text raws) (before : List Char) :
    EnclosesAll (before ++ text) raws := by
  cases h with
  | nil => exact .nil _
  | cons between h_space h_name h_rest =>
    rw [← List.append_assoc]
    exact .cons (before ++ between) h_space h_name h_rest

theorem append (h : EnclosesAll text raws) (h' : EnclosesAll text' raws') :
    EnclosesAll (text ++ text') (raws ++ raws') := by
  induction h with
  | nil text => exact h'.append_right text
  | @cons name rest space raw raws before h_space h_name _ ih =>
    have h_all : before ++ '[' :: (name ++ space :: (raw.toList ++ ']' :: rest)) ++ text' =
        before ++ '[' :: (name ++ space :: (raw.toList ++ ']' :: (rest ++ text'))) := by simp
    rw [h_all]
    exact .cons before h_space h_name ih

theorem append_left (h : EnclosesAll text raws) (behind : List Char) :
    EnclosesAll (text ++ behind) raws := by
  have h_append := h.append (.nil behind)
  rwa [List.append_nil] at h_append

theorem prepend (h : EnclosesAll text raws) (c : Char) : EnclosesAll (c :: text) raws :=
  h.append_right [c]

/-- Each of them is enclosed. -/
theorem encloses (h : EnclosesAll text raws) : ∀ raw ∈ raws, Encloses text raw := by
  induction h with
  | nil => exact fun _ h_mem => absurd h_mem (by simp)
  | @cons name rest space raw raws before h_space h_name _ ih =>
    rw [List.forall_mem_cons]
    refine ⟨⟨before, name, space, rest, h_space, h_name, rfl⟩, fun other h_mem => ?_⟩
    have h_other := (ih other h_mem).append_right
      (before ++ '[' :: (name ++ space :: (raw.toList ++ [']'])))
    simpa using h_other

end EnclosesAll

/-- The tag with raw attribute text has no older name. -/
theorem foldCase_of_rawAttribute {name : String} {meaning : Tag.Resolved}
    (h : Tag.resolve? name = some meaning) (h_raw : meaning.tag.rawAttribute = true) :
    Tag.foldCase name = Tag.infixFormula.name := by
  unfold Tag.resolve? at h
  dsimp only at h
  split at h
  · rename_i tag h_tag
    obtain rfl := Option.some.inj h
    rw [Tag.ofName?_eq_some_iff.1 h_tag]
    cases tag <;> first | exact absurd h_raw (by decide) | rfl
  · obtain ⟨entry, h_entry, rfl⟩ := Option.map_eq_some_iff.1 h
    -- No older name stands for a tag that keeps its text.
    have h_table : ∀ entry ∈ Tag.aliases, entry.meaning.tag.rawAttribute = false := by decide
    rw [h_table entry (List.mem_of_find?_eq_some h_entry)] at h_raw
    exact absurd h_raw (by decide)

theorem map_toLower_of_rawAttribute {name : String} {meaning : Tag.Resolved}
    (h : Tag.resolve? name = some meaning) (h_raw : meaning.tag.rawAttribute = true) :
    name.toList.map Char.toLower = Tag.infixFormula.name.toList := by
  rw [← foldCase_of_rawAttribute h h_raw, Tag.foldCase, String.toList_ofList]

mutual

/-- The formulas of a node stand in its spelling, one behind the other. -/
theorem Spells.enclosesAll {opened : List Tag} {node : Node} {text rest : List Char} :
    Spells opened node text rest → EnclosesAll text (node.subtrees.flatMap Node.ownFormulas)
  | .text value => .nil _
  | .group h_items => (h_items.enclosesAll.append_left [')']).prepend '('
  | @Spells.element _ name meaning written children header body _ _ h_name h_header h_body => by
    have ih_header := h_header.enclosesAll name.toList (map_toLower_of_rawAttribute h_name)
    have ih_body := h_body.enclosesAll
    have h_text : '[' :: (name.toList ++ (header ++ ']' :: body)) =
        '[' :: (name.toList ++ (header ++ [']'])) ++ body := by simp
    -- What the name implies is not spelled, and holds no formula.
    rw [h_text, Node.formulasWithin_element, Rules.keepsText_name,
      Node.formulasListed_texts (Rules.implied_words h_name).1]
    exact ih_header.append ih_body

/-- The formula of a tag that keeps its text stands between the name and the `]`. -/
theorem SpellsHeader.enclosesAll {opened : List Tag} {tag : Tag} {written : List Node}
    {header rest : List Char} :
    SpellsHeader opened tag written header rest → ∀ name : List Char,
      (tag.rawAttribute = true → name.map Char.toLower = Tag.infixFormula.name.toList) →
        EnclosesAll ('[' :: (name ++ (header ++ [']'])))
          (Node.formulasListed tag.rawAttribute written)
  | .listed h_raw h_written => by
    have ih := h_written.enclosesAll
    intro name _
    rw [h_raw]
    exact ((ih.append_left [']']).append_right name).prepend '['
  | .bare _ => by
    intro name _
    rw [Node.formulasListed, List.filterMap_nil, ite_self]
    exact .nil _
  | @SpellsHeader.raw _ _ space inside _ h_raw h_space => by
    intro name h_name
    -- An empty text is no attribute, and so no formula.
    rw [h_raw, rawText]
    split
    · exact .nil _
    · have h_formula : EnclosesAll
          ([] ++ '[' :: (name ++ space :: ((String.ofList inside).toList ++ [']'])))
          [String.ofList inside] := .cons [] h_space (h_name h_raw) (.nil [])
      rwa [String.toList_ofList, List.nil_append] at h_formula

theorem SpellsBody.enclosesAll {opened : List Tag} {tag : Tag} {children : List Node}
    {body rest : List Char} :
    SpellsBody opened tag children body rest → EnclosesAll body (formulasWithin children)
  | .empty _ => .nil _
  | .stored _ _ _ _ => .nil _
  | .inside _ h_children _ => h_children.enclosesAll.append_left _

theorem SpellsListed.enclosesAll {opened : List Tag} {nodes : List Node} {text rest : List Char} :
    SpellsListed opened nodes text rest → EnclosesAll text (formulasWithin nodes)
  | .nil _ => .nil _
  | .cons _ h_node h_nodes => by
    have ih_node := h_node.enclosesAll
    have ih_nodes := h_nodes.enclosesAll
    rw [Node.formulasWithin_cons]
    exact (ih_node.append ih_nodes).append_right _

theorem SpellsAll.enclosesAll {opened : List Tag} {nodes : List Node} {text rest : List Char} :
    SpellsAll opened nodes text rest → EnclosesAll text (formulasWithin nodes)
  | .nil => .nil _
  | .cons h_node h_nodes => by
    have ih_node := h_node.enclosesAll
    have ih_nodes := h_nodes.enclosesAll
    rw [Node.formulasWithin_cons]
    exact ih_node.append ih_nodes

end

/-- The formulas of a document stand in its text, one behind the other. -/
theorem Document.enclosesAll (source : String) :
    EnclosesAll source.toList (formulasWithin (Document.parse source)) :=
  (Reader.run_spells .remembering source.toList).enclosesAll

theorem Document.encloses_of_mem {source raw : String}
    (h : raw ∈ formulasAll false (Document.parse source)) : Encloses source.toList raw :=
  (Document.enclosesAll source).encloses raw (Node.formulasAll_subset false _ h)

/-- A formula of a document is shorter than the text of the document. -/
theorem Document.length_lt_of_mem {source raw : String}
    (h : raw ∈ formulasAll false (Document.parse source)) : raw.length < source.length := by
  have h_length := (Document.encloses_of_mem h).length_lt
  rwa [String.length_toList] at h_length

/-! ## Enough levels -/

/-- An empty text is an empty document. -/
theorem Document.parse_of_length {raw : String} (h : raw.length = 0) : Document.parse raw = [] := by
  have h_empty : raw = "" := String.length_eq_zero_iff.1 h
  rw [h_empty]
  cbv

/-- What is true of every text that has it true of its formulas, is true of every text, as formulas
    are shorter than the text that they stand in. -/
theorem Document.formula_induction {motive : String → Prop}
    (h_step : ∀ raw, (∀ inner ∈ formulasAll false (parse raw), motive inner) → motive raw)
    (raw : String) : motive raw := by
  -- The tree of a formula is no part of the tree around it, so the induction is on the length.
  generalize h_length : raw.length = length
  induction length using Nat.strong_induction_on generalizing raw with
  | _ length ih =>
    refine h_step raw fun inner h_mem => ?_
    have h_less := Document.length_lt_of_mem h_mem
    exact ih inner.length (by omega) inner rfl

/-- The recursion to so many levels goes on with `step` from a text into its formulas. -/
structure Descends {β : Type} (step : (String → β) → String → β) (toDepth : Nat → String → β) :
    Prop where
  /-- Without a level left, nothing is wanting in a text without pieces. -/
  empty : ∀ formula raw, Document.parse raw = [] → toDepth 0 raw = step formula raw
  deeper : ∀ levels raw, toDepth (levels + 1) raw = step (toDepth levels) raw
  /-- A step asks for no text but the formulas of its own. -/
  congr : ∀ f g raw, (∀ inner ∈ formulasAll false (Document.parse raw), f inner = g inner) →
    step f raw = step g raw

namespace Descends

variable {β : Type} {step : (String → β) → String → β} {toDepth : Nat → String → β}

/-- More levels than a formula has characters change nothing. -/
theorem toDepth_eq (h : Descends step toDepth) {levels levels' : Nat} {raw : String}
    (h_levels : raw.length ≤ levels) (h_levels' : raw.length ≤ levels') :
    toDepth levels raw = toDepth levels' raw := by
  induction levels generalizing levels' raw with
  | zero =>
    -- A text without characters has no formulas, so that no level is used.
    have h_empty := Document.parse_of_length (Nat.le_zero.1 h_levels)
    cases levels' with
    | zero => rfl
    | succ levels' => rw [h.deeper, h.empty _ raw h_empty]
  | succ levels ih =>
    cases levels' with
    | zero =>
      have h_empty := Document.parse_of_length (Nat.le_zero.1 h_levels')
      rw [h.deeper, h.empty _ raw h_empty]
    | succ levels' =>
      rw [h.deeper, h.deeper]
      -- A formula within this one is shorter, so that one level less is enough for it.
      refine h.congr _ _ raw fun inner h_mem => ?_
      have h_less := Document.length_lt_of_mem h_mem
      exact ih (by omega) (by omega)

/-- With as many levels as it has characters, a text is gone through as if there were no levels. -/
theorem eq_step (h : Descends step toDepth) (raw : String) :
    toDepth raw.length raw = step (fun inner => toDepth inner.length inner) raw := by
  rw [h.toDepth_eq (Nat.le_refl _) (Nat.le_succ _), h.deeper]
  refine h.congr _ _ raw fun inner h_mem => ?_
  have h_less := Document.length_lt_of_mem h_mem
  exact h.toDepth_eq (by omega) (by omega)

end Descends

namespace Submission

theorem formula_descends : Descends (fun formula raw =>
    if (Document.parse raw).any Node.isElement then
      Document.toText (pieces formula false (Document.parse raw)) else raw) formulaToDepth where
  empty := by
    intro formula raw h_empty
    rw [h_empty]
    rfl
  deeper := by
    intro levels raw
    rw [formulaToDepth, nodes_eq]
  congr := by
    intro f g raw h
    rw [pieces_congr false _ h]

/-- A formula with a tag in it is completed as a document. -/
theorem formula_eq (raw : String) :
    formula raw = if (Document.parse raw).any Node.isElement then
      Document.toText (pieces formula false (Document.parse raw)) else raw :=
  formula_descends.eq_step raw

end Submission

namespace Baking

variable {σ : Type} (source : Source σ)

theorem formula_descends : Descends (fun formula raw =>
    if (Document.parse raw).any Node.isElement then do
      let (baked, reports) ← pieces source formula false (Document.parse raw)
      return (Document.toText baked, reports) else return (raw, [])) (formulaToDepth source) where
  empty := by
    intro formula raw h_empty
    rw [h_empty]
    rfl
  deeper := by
    intro levels raw
    rw [formulaToDepth, nodes_eq]
  congr := by
    intro f g raw h
    dsimp only
    rw [pieces_congr false _ h]

/-- A formula with a tag in it is baked as a document. -/
theorem formula_eq (raw : String) :
    formula source raw = if (Document.parse raw).any Node.isElement then do
      let (baked, reports) ← pieces source (formula source) false (Document.parse raw)
      return (Document.toText baked, reports) else return (raw, []) :=
  (formula_descends source).eq_step raw

end Baking

/-! ## Formulas that are read one within the other -/

namespace Document

/-- The first text is a formula of the document, and each one after it is a formula of the text
    before it. -/
inductive Nests : Document → List String → Prop
  | nil {document : Document} : Nests document []
  | cons {document : Document} {raw : String} {inner : List String}
      (h_mem : raw ∈ formulasAll false document) (h_inner : Nests (parse raw) inner) :
      Nests document (raw :: inner)

/-- Each formula stands in the one before it. -/
theorem Nests.isChain {document : Document} {chain : List String} (h : Nests document chain) :
    chain.IsChain fun outer inner => inner.toList <:+: outer.toList := by
  induction h with
  | nil => exact .nil
  | cons h_mem h_inner ih =>
    cases h_inner with
    | nil => exact .singleton _
    | cons h_next h_others => exact .cons_cons (encloses_of_mem h_next).isInfix ih

/-- No more formulas than this are read one within the other. -/
def NestsWithin (levels : Nat) (document : Document) : Prop :=
  ∀ chain, Nests document chain → chain.length ≤ levels

theorem NestsWithin.zero {document : Document} (h : NestsWithin 0 document) :
    formulasAll false document = [] := by
  rw [List.eq_nil_iff_forall_not_mem]
  intro raw h_mem
  have h_length := h [raw] (.cons h_mem .nil)
  exact absurd h_length (by simp)

theorem NestsWithin.inner {levels : Nat} {document : Document} {raw : String}
    (h : NestsWithin (levels + 1) document) (h_mem : raw ∈ formulasAll false document) :
    NestsWithin levels (parse raw) := by
  intro chain h_chain
  exact Nat.le_of_succ_le_succ (h (raw :: chain) (.cons h_mem h_chain))

/-- Completing needs one level for each formula that is read within others. -/
theorem NestsWithin.completes {levels : Nat} {document : Document}
    (h : NestsWithin levels document) :
    Submission.pieces (Submission.formulaToDepth levels) false document =
      Submission.pieces Submission.formula false document := by
  induction levels generalizing document with
  | zero =>
    refine Submission.pieces_congr false document ?_
    rw [h.zero]
    exact fun _ h_mem => absurd h_mem (by simp)
  | succ levels ih =>
    refine Submission.pieces_congr false document fun raw h_mem => ?_
    -- One level is for the formula itself, the others are for those within it.
    rw [Submission.formula_eq, Submission.formulaToDepth]
    rw [Submission.nodes_eq, ih (h.inner h_mem)]

/-- Baking does, too. -/
theorem NestsWithin.bakes {σ : Type} (source : Source σ) {levels : Nat} {document : Document}
    (h : NestsWithin levels document) :
    Baking.pieces source (Baking.formulaToDepth source levels) false document =
      Baking.pieces source (Baking.formula source) false document := by
  induction levels generalizing document with
  | zero =>
    refine Baking.pieces_congr false document ?_
    rw [h.zero]
    exact fun _ h_mem => absurd h_mem (by simp)
  | succ levels ih =>
    refine Baking.pieces_congr false document fun raw h_mem => ?_
    rw [Baking.formula_eq, Baking.formulaToDepth]
    dsimp only
    rw [Baking.nodes_eq, ih (h.inner h_mem)]

end Document

end DiceMarkup
