/-
  DiceMarkup.Proofs.Termination

  Completing and baking come to an end on every tree, one that was built by hand
  too. Both go on into the texts of infix formulas, which are read as texts of
  their own, so that no tree bounds them. What is read gets shorter: formulas
  stand in their text one behind the other, and each has the seven characters
  of its opener before it and a `]` behind it.

  Both are the same pass but for what they make of a dice. The course of such a
  pass is given by rules here, without a bound on its levels; a derivation by
  these rules is finite.

  Pieces:
  * `EnclosesAll.sum_le` — formulas fit into the text that they stand in
  * `Course`, `CourseAll` — a pass over a tree, by rules
  * `Document.exists_course` — every pass comes through every tree
  * `Submission.courseAll_iff`, `Baking.courseAll_iff` — completing and baking are such passes
  * `Document.rereading_ends` — formulas get shorter, and the passes end
-/
import DiceMarkup.Proofs.Nesting
import DiceMarkup.Proofs.Positions

namespace DiceMarkup

open Node (formulas formulasAll formulasWithin isElement keepsText)
open Rolling (Source)
open Text (byteLength)

/-! ## Formulas get shorter -/

/-- Together with the seven characters before each of them and the `]` behind it, formulas are no
    more than the text that they stand in. -/
theorem EnclosesAll.sum_le {text : List Char} {raws : List String} (h : EnclosesAll text raws)
    {size : List Char → Nat}
    (h_append : ∀ cs ds, size (cs ++ ds) = size cs + size ds)
    (h_length : ∀ cs, cs.length ≤ size cs) :
    (raws.map fun raw => size raw.toList + 8).sum ≤ size text := by
  induction h with
  | nil => exact Nat.zero_le _
  | @cons name rest space raw raws before _ h_name _ ih =>
    have h_letters : name.length = 5 := by
      rw [← List.length_map Char.toLower, h_name]
      rfl
    -- The bracket, five letters and a blank, and the `]` behind the formula.
    have h_opener := h_length ('[' :: (name ++ [space]))
    have h_close := h_length [']']
    have h_all : before ++ '[' :: (name ++ space :: (raw.toList ++ ']' :: rest)) =
        before ++ ('[' :: (name ++ [space]) ++ (raw.toList ++ ([']'] ++ rest))) := by simp
    rw [h_all, h_append, h_append, h_append, h_append, List.map_cons, List.sum_cons]
    simp only [List.length_cons, List.length_append, List.length_nil] at h_opener h_close
    omega

/-- In a measure that adds up and counts every character, a formula of a document is less than the
    text of the document by eight or more, and all formulas together are less than the text. -/
theorem Document.formulas_shrink {size : List Char → Nat}
    (h_append : ∀ cs ds, size (cs ++ ds) = size cs + size ds) (h_length : ∀ cs, cs.length ≤ size cs)
    (source : String) :
    (∀ raw ∈ formulasWithin (parse source), size raw.toList + 8 ≤ size source.toList) ∧
      (formulasWithin (parse source) ≠ [] →
        ((formulasWithin (parse source)).map fun raw => size raw.toList).sum <
          size source.toList) := by
  -- One formula is no more than all of them, with eight characters counted for each.
  have h_fit := (enclosesAll source).sum_le h_append h_length
  constructor
  · intro raw h_mem
    exact (List.le_sum_of_mem (List.mem_map_of_mem h_mem)).trans h_fit
  · intro h_some
    exact (List.sum_lt_sum_of_ne_nil h_some _ _ fun raw _ => by omega).trans_le h_fit

theorem Text.length_le_byteLength (cs : List Char) : cs.length ≤ byteLength cs := by
  induction cs with
  | nil => exact Nat.le_refl 0
  | cons c cs ih =>
    have h_size := c.utf8Size_pos
    rw [List.length_cons, Text.byteLength_cons]
    omega

/-! ## The course of a pass -/

section Course

variable {σ : Type} (dice : List Node → List Node → StateM σ (Reported Node))

mutual

/-- A pass comes through this piece, from a state to a state, with what it makes of the piece and
    what it reports; the flag tells that a text is the text of a formula. A formula with a tag is
    read, passed over and written, however deep in other formulas it stands. -/
inductive Course : σ → Bool → Node → Node → List Diagnostic → σ → Prop
  | text {s : σ} (value : String) : Course s false (.text value) (.text value) [] s
  | plainFormula {s : σ} {raw : String} (h_plain : (Document.parse raw).any isElement = false) :
      Course s true (.text raw) (.text raw) [] s
  | formula {s s' : σ} {raw : String} {made : List Node} {reports : List Diagnostic}
      (h_tag : (Document.parse raw).any isElement = true)
      (h_inside : CourseAll s false (Document.parse raw) made reports s') :
      Course s true (.text raw) (.text (Document.toText made)) reports s'
  | group {s s' : σ} {raw : Bool} {items made : List Node} {reports : List Diagnostic}
      (h_items : CourseAll s false items made reports s') :
      Course s raw (.group items) (.group made) reports s'
  | dice {s s' : σ} {raw : Bool} {attributes children : List Node} {made : Node}
      {reports : List Diagnostic} (h_dice : dice attributes children s = ((made, reports), s')) :
      Course s raw (.element Tag.dice.name attributes children) made reports s'
  | element {s s' s'' : σ} {raw : Bool} {name : String} {as bs cs ds : List Node}
      {reports others : List Diagnostic} (h_name : name ≠ Tag.dice.name)
      (h_attributes : CourseAll s (keepsText name) as bs reports s')
      (h_children : CourseAll s' false cs ds others s'') :
      Course s raw (.element name as cs) (.element name bs ds) (reports ++ others) s''

/-- The same for pieces one after the other. -/
inductive CourseAll : σ → Bool → List Node → List Node → List Diagnostic → σ → Prop
  | nil {s : σ} {raw : Bool} : CourseAll s raw [] [] [] s
  | cons {s s' s'' : σ} {raw : Bool} {node made : Node} {nodes others : List Node}
      {reports reports' : List Diagnostic} (h_node : Course s raw node made reports s')
      (h_nodes : CourseAll s' raw nodes others reports' s'') :
      CourseAll s raw (node :: nodes) (made :: others) (reports ++ reports') s''

end

/-- From every state, a pass comes through the piece. -/
def Finishes (raw : Bool) (node : Node) : Prop :=
  ∀ s, ∃ made reports s', Course dice s raw node made reports s'

variable {dice}

mutual

/-- A pass comes through a piece if it comes through the formulas of the piece. -/
theorem finishes_of_formulas (raw : Bool) : (node : Node) →
    (∀ inner ∈ formulas raw node, Finishes dice true (.text inner)) → Finishes dice raw node
  | .text value => by
    intro h_formulas s
    cases raw with
    | false => exact ⟨_, _, _, .text value⟩
    | true => exact h_formulas value (by simp [formulas]) s
  | .group items => by
    have ih := exists_courseAll false items
    intro h_formulas s
    obtain ⟨made, reports, s', h_items⟩ := ih h_formulas s
    exact ⟨_, _, _, .group h_items⟩
  | .element name attributes children => by
    have ih_attributes := exists_courseAll (keepsText name) attributes
    have ih_children := exists_courseAll false children
    intro h_formulas s
    by_cases h_name : name = Tag.dice.name
    · -- A pass does not go into a dice.
      subst h_name
      exact ⟨_, _, _, .dice rfl⟩
    · rw [formulas, if_neg h_name] at h_formulas
      obtain ⟨h_attributes, h_children⟩ := List.forall_mem_append.1 h_formulas
      obtain ⟨as, reports, s', h_as⟩ := ih_attributes h_attributes s
      obtain ⟨cs, others, s'', h_cs⟩ := ih_children h_children s'
      exact ⟨_, _, _, .element h_name h_as h_cs⟩

theorem exists_courseAll (raw : Bool) : (nodes : List Node) →
    (∀ inner ∈ formulasAll raw nodes, Finishes dice true (.text inner)) →
      ∀ s, ∃ made reports s', CourseAll dice s raw nodes made reports s'
  | [] => fun _ _ => ⟨_, _, _, .nil⟩
  | node :: nodes => by
    have ih_node := finishes_of_formulas raw node
    have ih_nodes := exists_courseAll raw nodes
    intro h_formulas s
    rw [formulasAll] at h_formulas
    obtain ⟨h_node, h_nodes⟩ := List.forall_mem_append.1 h_formulas
    obtain ⟨made, reports, s', h_first⟩ := ih_node h_node s
    obtain ⟨others, reports', s'', h_others⟩ := ih_nodes h_nodes s'
    exact ⟨_, _, _, .cons h_first h_others⟩

end

/-- A pass comes through every formula. The induction is on the length of the formula, as those
    within it are shorter. -/
theorem finishes_formula (raw : String) : Finishes dice true (.text raw) := by
  induction raw using Document.formula_induction with
  | _ raw ih =>
    intro s
    cases h_tag : (Document.parse raw).any isElement with
    | false => exact ⟨_, _, _, .plainFormula h_tag⟩
    | true =>
      obtain ⟨made, reports, s', h_inside⟩ := exists_courseAll false _ ih s
      exact ⟨_, _, _, .formula h_tag h_inside⟩

variable (dice)

/-- A pass comes through every tree, whatever it makes of a dice. -/
theorem Document.exists_course (document : Document) (s : σ) :
    ∃ made reports s', CourseAll dice s false document made reports s' :=
  exists_courseAll false document (fun inner _ => finishes_formula inner) s

end Course

/-! ### Completing -/

namespace Submission

/-- What completing makes of a dice. It needs no state and reports nothing. -/
def passDice (attributes _children : List Node) : StateM Unit (Reported Node) :=
  return (.element Tag.dice.name (fullBounds attributes) [], [])

mutual

/-- What comes out of a course is the completed piece. -/
theorem piece_of_course {s s' : Unit} {raw : Bool} {node made : Node} {reports : List Diagnostic} :
    Course passDice s raw node made reports s' → made = piece formula raw node ∧ reports = []
  | .text value => ⟨by rw [piece, if_neg Bool.false_ne_true], rfl⟩
  | .plainFormula h_plain => by
    rw [piece, if_pos rfl, formula_eq, if_neg (by rw [h_plain]; exact Bool.false_ne_true)]
    exact ⟨rfl, rfl⟩
  | .formula h_tag h_inside => by
    obtain ⟨rfl, rfl⟩ := pieces_of_course h_inside
    rw [piece, if_pos rfl, formula_eq, if_pos h_tag]
    exact ⟨rfl, rfl⟩
  | .group h_items => by
    obtain ⟨rfl, rfl⟩ := pieces_of_course h_items
    rw [piece]
    exact ⟨rfl, rfl⟩
  | .dice h_dice => by
    obtain ⟨rfl, rfl⟩ := Prod.mk.inj (Prod.mk.inj h_dice).1
    rw [piece, if_pos rfl]
    exact ⟨rfl, rfl⟩
  | .element h_name h_attributes h_children => by
    obtain ⟨rfl, rfl⟩ := pieces_of_course h_attributes
    obtain ⟨rfl, rfl⟩ := pieces_of_course h_children
    rw [piece, if_neg h_name]
    exact ⟨rfl, rfl⟩

theorem pieces_of_course {s s' : Unit} {raw : Bool} {nodes made : List Node}
    {reports : List Diagnostic} :
    CourseAll passDice s raw nodes made reports s' → made = pieces formula raw nodes ∧ reports = []
  | .nil => ⟨rfl, rfl⟩
  | .cons h_node h_nodes => by
    obtain ⟨rfl, rfl⟩ := piece_of_course h_node
    obtain ⟨rfl, rfl⟩ := pieces_of_course h_nodes
    rw [pieces]
    exact ⟨rfl, rfl⟩

end

/-- Completing a document is a pass that comes to its end. -/
theorem courseAll_iff {document made : List Node} {reports : List Diagnostic} :
    CourseAll passDice () false document made reports () ↔
      made = nodes formula document ∧ reports = [] := by
  rw [nodes_eq]
  constructor
  · exact pieces_of_course
  · rintro ⟨rfl, rfl⟩
    obtain ⟨made, reports, s', h_course⟩ := Document.exists_course passDice document ()
    obtain ⟨rfl, rfl⟩ := pieces_of_course h_course
    exact h_course

end Submission

/-! ### Baking -/

namespace Baking

variable {σ : Type} (source : Source σ)

/-- A formula is baked as a document, if there is a tag in it. -/
theorem formula_run (raw : String) (s : σ) :
    formula source raw s = if (Document.parse raw).any isElement then
      let inside := pieces source (formula source) false (Document.parse raw) s
      ((Document.toText inside.1.1, inside.1.2), inside.2) else ((raw, []), s) := by
  rw [formula_eq]
  split <;> rfl

mutual

/-- What comes out of a course is the baked piece, with its reports. -/
theorem piece_of_course {s s' : σ} {raw : Bool} {node made : Node} {reports : List Diagnostic} :
    Course (dice source Tag.dice.name) s raw node made reports s' →
      piece source (formula source) raw node s = ((made, reports), s')
  | .text value => by
    rw [piece]
    rfl
  | .plainFormula h_plain => by
    rw [piece_formula_run, formula_run, h_plain]
    rfl
  | .formula h_tag h_inside => by
    have ih := pieces_of_course h_inside
    rw [piece_formula_run, formula_run, if_pos h_tag, ih]
  | .group h_items => by
    have ih := pieces_of_course h_items
    rw [piece_group_run, ih]
  | .dice h_dice => by
    rw [piece, if_pos rfl, h_dice]
  | .element h_name h_attributes h_children => by
    have ih_attributes := pieces_of_course h_attributes
    have ih_children := pieces_of_course h_children
    rw [piece_element_run _ _ _ h_name, ih_attributes]
    dsimp only
    rw [ih_children]

theorem pieces_of_course {s s' : σ} {raw : Bool} {nodes made : List Node}
    {reports : List Diagnostic} :
    CourseAll (dice source Tag.dice.name) s raw nodes made reports s' →
      pieces source (formula source) raw nodes s = ((made, reports), s')
  | .nil => by
    rw [pieces]
    rfl
  | .cons h_node h_nodes => by
    have ih_node := piece_of_course h_node
    have ih_nodes := pieces_of_course h_nodes
    rw [pieces_cons_run, ih_node]
    dsimp only
    rw [ih_nodes]

end

/-- Baking a document is a pass that comes to its end. -/
theorem courseAll_iff {document made : List Node} {reports : List Diagnostic} {s s' : σ} :
    CourseAll (dice source Tag.dice.name) s false document made reports s' ↔
      Document.bake source document s = ((made, reports), s') := by
  rw [Document.bake, nodes_eq]
  constructor
  · exact pieces_of_course source
  · intro h_baked
    -- There is some course, and nothing but the baked document comes out of it.
    obtain ⟨made', reports', t, h_course⟩ :=
      Document.exists_course (dice source Tag.dice.name) document s
    obtain ⟨h_found, rfl⟩ := Prod.mk.inj ((pieces_of_course source h_course).symm.trans h_baked)
    obtain ⟨rfl, rfl⟩ := Prod.mk.inj h_found
    exact h_course

end Baking

/-! ## Documents -/

namespace Document

/-- A formula that stands anywhere in the tree of a text is shorter than the text by eight
    characters or more, and the formulas of the tree, each where it stands, are together shorter
    than the text. Hence completing and baking come to an end: from every tree and in every state of
    the source their rules have a course, which is finite, and it has one outcome. -/
theorem rereading_ends {σ : Type} (random : Source σ) :
    (∀ source : String,
      (∀ raw ∈ formulasWithin (parse source),
        raw.length + 8 ≤ source.length ∧ raw.utf8ByteSize + 8 ≤ source.utf8ByteSize) ∧
      (formulasWithin (parse source) ≠ [] →
        ((formulasWithin (parse source)).map String.length).sum < source.length ∧
          ((formulasWithin (parse source)).map String.utf8ByteSize).sum < source.utf8ByteSize)) ∧
      (∀ document made reports,
        CourseAll Submission.passDice () false document made reports () ↔
          made = Submission.nodes Submission.formula document ∧ reports = []) ∧
      ∀ document s made reports s',
        CourseAll (Baking.dice random Tag.dice.name) s false document made reports s' ↔
          bake random document s = ((made, reports), s') := by
  refine ⟨fun source => ?_, fun _ _ _ => Submission.courseAll_iff,
    fun _ _ _ _ _ => Baking.courseAll_iff random⟩
  have h_chars := formulas_shrink (fun _ _ => List.length_append) (fun _ => Nat.le_refl _) source
  have h_bytes := formulas_shrink Text.byteLength_append Text.length_le_byteLength source
  simp only [String.length_toList] at h_chars
  simp only [Text.byteLength_toList] at h_bytes
  exact ⟨fun raw h_mem => ⟨h_chars.1 raw h_mem, h_bytes.1 raw h_mem⟩,
    fun h_some => ⟨h_chars.2 h_some, h_bytes.2 h_some⟩⟩

/-- A formula among the attributes of a dice, and one with a formula in it, in capitals and without
    its closer; and a tree that no text stands for, with two texts in one formula. -/
theorem rereading_ends_nested :
    let source := "[dice [calcn 4][/calcn]][CALCN 1+[calcn 2*[dice 6]]]"
    let built (first : String) : Document :=
      [.element "calcn" [.text first, .text "1 + 1"] [.group []]]
    (formulasWithin (parse source) = ["4", "1+[calcn 2*[dice 6]]"] ∧
      "1+[calcn 2*[dice 6]]".length + 8 ≤ source.length ∧ 1 + 20 < source.length) ∧
      CourseAll Submission.passDice () false (built "2*[dice 6]") (built "2*[dice 1 6]") [] () := by
  intro source built
  obtain ⟨h_shrink, h_completes, -⟩ := rereading_ends (Source.ofFunction fun min _ => min)
  obtain ⟨h_each, h_all⟩ := h_shrink source
  have h_formulas : formulasWithin (parse source) = ["4", "1+[calcn 2*[dice 6]]"] := by cbv
  rw [h_formulas] at h_each h_all
  refine ⟨⟨h_formulas, (h_each _ (by simp)).1, (h_all (by simp)).1⟩,
    (h_completes _ _ _).2 ⟨?_, rfl⟩⟩
  -- The levels of a formula are left aside first, so that it is read only once.
  have h_tag : Submission.formula "2*[dice 6]" = "2*[dice 1 6]" := by
    have h_parse : parse "2*[dice 6]" = [.text "2*", .element "dice" [.text "6"] []] := by cbv
    rw [Submission.formula_eq, h_parse]
    cbv
  have h_plain : Submission.formula "1 + 1" = "1 + 1" := by
    have h_parse : parse "1 + 1" = [.text "1 + 1"] := by cbv
    rw [Submission.formula_eq, h_parse]
    rfl
  have h_nodes : ∀ formula : String → String, Submission.nodes formula (built "2*[dice 6]") =
      [.element "calcn" [.text (formula "2*[dice 6]"), .text (formula "1 + 1")] [.group []]] := by
    intro formula
    cbv
  rw [h_nodes, h_tag, h_plain]

end Document

end DiceMarkup
