/-
  DiceMarkup.Proofs.Stored

  What is stored, and what it is read as. A submitted text is baked, written and
  read again by everybody who sees it. The tree that is read holds the rolls that
  were made, in order, and no others; no dice of it is left to be rolled, so that
  all readers see the same. A dice that cannot be rolled is baked to a text, and
  read as a dice again, so the tree that is read is not the baked one; but both
  are written alike.

  Pieces:
  * `Ledger` — the rolls made between two states of a source, as far as they can be told
  * `SettlesAll` — pieces whose baked form is read as a revision that holds the rolls
  * `pieces_settle` — submitted pieces do, if their formulas do
  * `Document.Regular.settles` — the formulas of a text in order do
  * `Document.stored_replays`, `Document.storedRolls_stored` — whole documents
-/
import DiceMarkup.Baking
import DiceMarkup.Proofs.Completion
import DiceMarkup.Proofs.Replay

namespace DiceMarkup

open Node (formulas formulasAll keepsText isElement isRolled isUnrolled isRollable fenced fencedAll
  Holds HoldsAll write writeAll writeAll_eq write_element_congr write_group_congr)
open Rolling (Call Source)
open Rules (Alike Revises RevisesAll)
open Submission (Keeps)

/-! ## Rolls and states -/

/-- What can be told, from the states of a source, of the rolls made between them. -/
structure Ledger {σ : Type} (source : Source σ) where
  /-- These rolls may have been made, in this order, between the two states. -/
  Records : σ → List Roll → σ → Prop
  refl (state : σ) : Records state [] state
  trans {start middle stop : σ} {found others : List Roll} :
    Records start found middle → Records middle others stop → Records start (found ++ others) stop
  roll (min max : Int64) (state : σ) :
    Records state [(Dice.roll source min max state).1] (Dice.roll source min max state).2

namespace Ledger

variable {σ : Type} (source : Source σ)

/-- Of a source without a record, nothing. -/
def blank : Ledger source where
  Records _ _ _ := True
  refl _ := trivial
  trans _ _ := trivial
  roll _ _ _ := trivial

/-- Of a source with a record, the rolls that the calls come to; the last call comes first. -/
def ofCalls : Ledger source.traced where
  Records start found stop := stop.2.map Call.roll = found.reverse ++ start.2.map Call.roll
  refl _ := rfl
  trans h h_others := by rw [h_others, h, List.reverse_append, List.append_assoc]
  roll _ _ _ := rfl

end Ledger

/-! ## Pieces that are read as they were baked -/

section Settles

variable {σ : Type} {source : Source σ} (ledger : Ledger source)

/-- Wherever it starts, the baking makes a piece that is written like a revision of this one. The
    revision holds the rolls that were made, and is a dice without a result only if it cannot be
    rolled. -/
def Settles (raw : Bool) (node : Node) (baking : StateM σ (Reported Node)) : Prop :=
  ∀ state, ∃ kept found, write (baking state).1.1 = write kept ∧ Revises raw node kept ∧
    Holds raw kept found ∧ ledger.Records state found (baking state).2 ∧
      (isRolled node = true → isUnrolled kept = true → isRollable node = false)

/-- The same for pieces one after the other. -/
def SettlesAll (raw : Bool) (nodes : List Node)
    (baking : StateM σ (Reported (List Node))) : Prop :=
  ∀ state, ∃ kept found, (baking state).1.1.map write = kept.map write ∧ RevisesAll raw nodes kept ∧
    HoldsAll raw kept found ∧ ledger.Records state found (baking state).2

/-- The same for the text of a formula, which is read as pieces. -/
def SettlesFormula (raw : String) (baking : StateM σ (Reported String)) : Prop :=
  ∀ state, ∃ found, Keeps raw (baking state).1.1 ∧
    HoldsAll false (Document.parse (baking state).1.1) found ∧
      ledger.Records state found (baking state).2

/-- A submitted dice is rolled, or kept as it is if its bounds are not in order. -/
theorem dice_settles (raw : Bool) (attributes children : List Node) :
    Settles ledger raw (.element Tag.dice.name attributes children)
      (Baking.dice source Tag.dice.name (Submission.fullBounds attributes) []) := by
  intro state
  have h_bounds := Submission.fullBounds_revises attributes
  rw [Baking.dice]
  cases h_dice : Dice.bounds (Submission.fullBounds attributes) with
  | error error =>
    have h_classify := Dice.classify_of_error h_dice []
    rw [h_classify]
    -- The baked piece is a text, and what is kept is the dice; only what is written is the same.
    refine ⟨.element Tag.dice.name (Submission.fullBounds attributes) [], [], ?_,
      .dice h_bounds (.inl rfl), .invalid h_classify, ledger.refl state, ?_⟩
    · exact String.toList_ofList
    · intro _ _
      rw [isRollable, h_dice]
      simp [Except.toBool]
  | ok found =>
    obtain ⟨min, max⟩ := found
    rw [Dice.classify_of_ok h_dice]
    refine ⟨.element Tag.dice.name (Submission.fullBounds attributes)
      [.text (Numeral.writeInt64 (Dice.roll source min max state).1.result)], _, rfl,
      .dice h_bounds (.inr ⟨_, Numeral.isResult_writeInt64 _, rfl⟩),
      .stored (Dice.classify_rolled h_dice _), ledger.roll min max state, ?_⟩
    intro _ h_unrolled
    exact absurd h_unrolled (by simp [isUnrolled])

mutual

/-- A submitted piece settles, if its formulas do. -/
theorem piece_settles (inFormula raw : Bool) : (node : Node) →
    (∀ inner ∈ formulas raw node,
      SettlesFormula ledger inner (Baking.formula source (Submission.formula inner))) →
      fenced inFormula node = true →
        Settles ledger raw node (Baking.piece source (Baking.formula source) raw
          (Submission.piece Submission.formula raw node))
  | .text value => by
    intro h_formulas _ state
    rw [Submission.piece, Baking.piece]
    cases raw with
    | false => exact ⟨.text value, [], rfl, .text value, .text value, ledger.refl state, nofun⟩
    | true =>
      rw [if_pos rfl, if_pos rfl]
      have h_settles := h_formulas value (by simp [formulas])
      generalize Baking.formula source (Submission.formula value) = baking at h_settles ⊢
      obtain ⟨found, h_keeps, h_holds, h_records⟩ := h_settles state
      exact ⟨_, found, rfl, .formula h_keeps.alike h_keeps.nonempty,
        .formula h_holds, h_records, nofun⟩
  | .group items => by
    have ih := pieces_settle inFormula false items
    intro h_formulas h_fenced state
    rw [formulas] at h_formulas
    rw [fenced] at h_fenced
    rw [Submission.piece, Baking.piece]
    obtain ⟨kept, found, h_written, h_revises, h_holds, h_records⟩ := ih h_formulas h_fenced state
    exact ⟨.group kept, found, write_group_congr h_written, .group h_revises,
      .group h_holds, h_records, nofun⟩
  | .element name attributes children => by
    have ih_attributes := pieces_settle inFormula (keepsText name) attributes
    have ih_children := pieces_settle inFormula false children
    intro h_formulas h_fenced
    rw [formulas] at h_formulas
    rw [fenced, Bool.and_eq_true] at h_fenced
    rw [Submission.piece]
    split
    · rename_i h_name
      rw [h_name, Baking.piece, if_pos rfl]
      exact dice_settles ledger raw attributes children
    · rename_i h_name
      rw [if_neg h_name, List.forall_mem_append] at h_formulas
      rw [Baking.piece, if_neg h_name]
      -- The children are baked from the state that the attributes leave.
      intro state
      obtain ⟨kept, found, h_written, h_revises, h_holds, h_records⟩ :=
        ih_attributes h_formulas.1 h_fenced.1 state
      obtain ⟨kept', found', h_written', h_revises', h_holds', h_records'⟩ :=
        ih_children h_formulas.2 h_fenced.2 _
      refine ⟨.element name kept kept', found ++ found',
        write_element_congr name h_written h_written',
        .element h_revises h_revises', .element h_name h_holds h_holds',
        ledger.trans h_records h_records', ?_⟩
      intro h_rolled _
      cases children with
      | nil => exact absurd h_rolled (by simp [isRolled])
      | cons child children => exact absurd h_rolled (by simp [isRolled, h_name])

/-- Submitted pieces settle, if their formulas do. -/
theorem pieces_settle (inFormula raw : Bool) : (nodes : List Node) →
    (∀ inner ∈ formulasAll raw nodes,
      SettlesFormula ledger inner (Baking.formula source (Submission.formula inner))) →
      fencedAll inFormula nodes = true →
        SettlesAll ledger raw nodes (Baking.pieces source (Baking.formula source) raw
          (Submission.pieces Submission.formula raw nodes))
  | [] => fun _ _ state => ⟨[], [], rfl, .nil, .nil, ledger.refl state⟩
  | node :: nodes => by
    have ih_node := piece_settles inFormula raw node
    have ih_nodes := pieces_settle inFormula raw nodes
    intro h_formulas h_fenced state
    rw [formulasAll, List.forall_mem_append] at h_formulas
    rw [fencedAll, Bool.and_eq_true, Bool.and_eq_true] at h_fenced
    obtain ⟨⟨h_kept, h_node⟩, h_nodes⟩ := h_fenced
    rw [Submission.pieces, Baking.pieces]
    obtain ⟨kept, found, h_written, h_revises, h_holds, h_records, h_rollable⟩ :=
      ih_node h_formulas.1 h_node state
    obtain ⟨kept', found', h_written', h_revises', h_holds', h_records'⟩ :=
      ih_nodes h_formulas.2 h_nodes _
    refine ⟨kept :: kept', found ++ found', ?_, .cons h_revises h_revises' ?_,
      .cons h_holds h_holds', ledger.trans h_records h_records'⟩
    · rw [List.map_cons, ← h_written, ← h_written']
      rfl
    -- Only a dice that loses its result for good asks for what comes after it.
    · intro h_rolled h_unrolled
      simpa [Node.losesResult, h_rolled, h_rollable h_rolled h_unrolled] using h_kept

end

/-! ## Formulas in order -/

namespace Document

/-- A formula in order is completed to one that is alike. -/
theorem Regular.keeps {raw : String} (h : Regular true raw) :
    Keeps raw (Submission.formula raw) := by
  generalize h_formula : true = inFormula at h
  induction h with
  | intro h_limit h_tidy h_fenced _ ih =>
    subst h_formula
    exact (Submission.parse_formula h_limit h_tidy h_fenced fun inner h_mem => ih inner h_mem rfl).1

/-- A revision has a tag where the pieces have one. -/
theorem any_isElement_revises {raw : Bool} {nodes nodes' : List Node}
    (h : RevisesAll raw nodes nodes') : nodes'.any isElement = nodes.any isElement := by
  induction nodes generalizing nodes' with
  | nil =>
    cases h
    rfl
  | cons node nodes ih =>
    cases h with
    | cons h_node h_nodes =>
      rw [List.any_cons, List.any_cons, ih h_nodes]
      cases h_node <;> rfl

theorem toText_congr {document document' : Document}
    (h : document.map write = document'.map write) :
    toText document = toText document' := by
  rw [toText, writeAll_eq, h, ← writeAll_eq, ← toText]

/-- Texts hold no rolls. -/
theorem holdsAll_of_collected {nodes : List Node} (h : Node.Collected nodes)
    (h_none : nodes.any isElement = false) : HoldsAll false nodes [] := by
  induction nodes with
  | nil => exact .nil
  | cons node nodes ih =>
    rw [List.any_cons, Bool.or_eq_false_iff] at h_none
    cases node with
    | text value => exact .cons (.text value) (ih h.tail h_none.2)
    | group items => exact absurd List.mem_cons_self (h.ungrouped items)
    | element name as cs => exact absurd h_none.1 (by simp [isElement])

/-- A formula in order is read, once it has been submitted, baked and written, as it was baked. -/
theorem Regular.settles {raw : String} (h : Regular true raw) :
    SettlesFormula ledger raw (Baking.formula source (Submission.formula raw)) := by
  generalize h_formula : true = inFormula at h
  induction h with
  | @intro _ raw h_limit h_tidy h_fenced h_formulas ih =>
    subst h_formula
    obtain ⟨h_keeps, h_parse⟩ := Submission.parse_formula h_limit h_tidy h_fenced
      fun inner h_mem => (h_formulas inner h_mem).keeps
    intro state
    rw [Baking.formula_eq]
    -- A formula without a tag is kept as it is by both passes.
    cases h_any : (parse raw).any isElement with
    | false =>
      have h_same : Submission.formula raw = raw := by
        rw [Submission.formula_eq, if_neg (by rw [h_any]; decide)]
      rw [h_same, if_neg (by rw [h_any]; decide)]
      exact ⟨[], .refl raw, holdsAll_of_collected (collected raw) h_any, ledger.refl state⟩
    | true =>
      rw [h_parse h_any, if_pos (by rw [Submission.any_isElement_pieces, h_any])]
      obtain ⟨kept, found, h_written, h_revises, h_holds, h_records⟩ :=
        pieces_settle ledger true false
        (parse raw) (fun inner h_mem => ih inner h_mem rfl) h_fenced state
      obtain ⟨h_read, -, h_alike⟩ := parse_toText_of_revises h_limit h_tidy h_revises
      have h_some : (toText kept).toList ≠ [] :=
        toText_ne_nil (by rw [any_isElement_revises h_revises, h_any])
      refine ⟨found, ?_, ?_, h_records⟩
      · show Keeps raw (toText _)
        rw [toText_congr h_written]
        exact ⟨h_alike, fun _ => h_some⟩
      · show HoldsAll false (parse (toText _)) found
        rw [toText_congr h_written, h_read]
        exact h_holds

/-- The stored form of a text: submitted, baked and written. -/
def stored (source : Source σ) (submitted : String) (state : σ) : String :=
  toText ((ofSubmission submitted).bake source state).1.1

/-- What is stored is read as a document that holds the rolls made, and no fresh dice. -/
theorem Regular.holds_stored {submitted : String} (h : Regular false submitted)
    (state : σ) :
    ∃ found, HoldsAll false (parse (stored source submitted state)) found ∧
      ledger.Records state found ((ofSubmission submitted).bake source state).2 := by
  cases h with
  | intro h_limit h_tidy h_fenced h_formulas =>
    obtain ⟨kept, found, h_written, h_revises, h_holds, h_records⟩ :=
      pieces_settle ledger false false
      (parse submitted) (fun inner h_mem => (h_formulas inner h_mem).settles ledger) h_fenced state
    obtain ⟨h_read, -, -⟩ := parse_toText_of_revises h_limit h_tidy h_revises
    rw [stored, bake, ofSubmission, Submission.nodes_eq, Baking.nodes_eq, toText_congr h_written,
      h_read]
    exact ⟨found, h_holds, h_records⟩

end Document

end Settles

namespace Document

/-- A dice with a typed result is in order, in a text and in a formula. -/
theorem regular_loaded :
    Regular false "[b]a [dice 6]9[/dice][/b] [calcn 2*[dice 1 4]7[/dice]]" := by
  have h_formulas : Node.formulasAll false
      (parse "[b]a [dice 6]9[/dice][/b] [calcn 2*[dice 1 4]7[/dice]]") =
        ["2*[dice 1 4]7[/dice]"] := by cbv
  have h_none : Node.formulasAll false (parse "2*[dice 1 4]7[/dice]") = [] := by cbv
  refine .intro (withinLimit_of_openings (by decide +kernel)) (by cbv) (by cbv) fun raw h_mem => ?_
  rw [h_formulas, List.mem_singleton] at h_mem
  subst h_mem
  refine .intro (withinLimit_of_openings (by decide +kernel)) (by cbv) (by cbv) fun raw h_mem => ?_
  rw [h_none] at h_mem
  exact absurd h_mem (by simp)

/-- Whoever reads what is stored sees the same: no reader asks for a roll, and none could see
    anything else by having a source. -/
theorem stored_replays {submitted : String} (h : Regular false submitted) {σ τ : Type}
    (rolling : Source σ) (state : σ) (reading : Source τ) (start : τ) :
    let read := parse (stored rolling submitted state)
    read.view (some reading.traced) (start, []) = (read.viewStored, (start, [])) := by
  obtain ⟨found, h_holds, -⟩ := h.holds_stored (.blank rolling) state
  exact view_of_holds reading.traced h_holds (start, [])

/-- Typed results are thrown away, and the dice rolled anew are not rolled again on reading. -/
theorem stored_replays_loaded :
    let submitted := "[b]a [dice 6]9[/dice][/b] [calcn 2*[dice 1 4]7[/dice]]"
    let read := parse (stored (Source.cycle [5, 3]) submitted [])
    stored (Source.cycle [5, 3]) submitted [] =
        "[bld]a [dice 1 6]5[/dice][/bld] [calcn 2*[dice 1 4]3[/dice]][/calcn]" ∧
      read.view (some (Source.cycle [2]).traced) ([], []) = (read.viewStored, ([], [])) :=
  ⟨by cbv, stored_replays regular_loaded (Source.cycle [5, 3]) [] (Source.cycle [2]) []⟩

/-- Of a text that is not tidy, a dice comes to life: the outer dice cannot be rolled and is baked
    to a text, the writer drops the space before its last bracket, and what is left is read as the
    text `[dice `, the inner dice and a closer. -/
theorem stored_replays_untidy :
    let read := parse (stored (Source.ofFunction fun min _ => min) "[dice [dice 1 6] [/b ]" ())
    read.view (some (Source.ofFunction fun _ max => max).traced) ((), []) ≠
      (read.viewStored, ((), [])) := by
  have h_submission : ofSubmission "[dice [dice 1 6] [/b ]" =
      [.element "dice" [.element "dice" [.text "1", .text "6"] [], .text "[/b"] []] := by
    cbv
  have h_stored : stored (Source.ofFunction fun min _ => min) "[dice [dice 1 6] [/b ]" () =
      "[dice [dice 1 6] [/b]" := by
    rw [stored, h_submission]
    decide +kernel
  have h_read : parse "[dice [dice 1 6] [/b]" =
      [.text "[dice ", .element "dice" [.text "1", .text "6"] [], .text " [/b]"] := by
    cbv
  intro read h_replays
  have h_calls : (read.view (some (Source.ofFunction fun _ max => max).traced) ((), [])).2.2 =
      [⟨1, 6, 6⟩] := by
    rw [show read = _ from (congrArg parse h_stored).trans h_read]
    cbv
  rw [h_replays] at h_calls
  exact absurd h_calls (by simp)

/-- The rolls that are stored are those that were made, in order, each answer brought into the
    bounds of its dice. No result that the author has typed is among them. -/
theorem storedRolls_stored {submitted : String} (h : Regular false submitted) {σ : Type}
    (source : Source σ) (state : σ) :
    (parse (stored source.traced submitted (state, []))).storedRolls =
      ((ofSubmission submitted).bake source.traced (state, [])).2.2.reverse.map Call.roll := by
  obtain ⟨found, h_holds, h_records⟩ := h.holds_stored (.ofCalls source) (state, [])
  have h_calls : ((ofSubmission submitted).bake source.traced (state, [])).2.2.map Call.roll =
      found.reverse ++ [] := h_records
  rw [h_holds.storedRolls_eq, List.map_reverse, h_calls, List.append_nil, List.reverse_reverse]

/-- The rolls of a text and of its formula, in order, in place of the typed results. -/
theorem storedRolls_stored_loaded :
    let source := (Source.cycle [9, 3]).traced
    let submitted := "[b]a [dice 6]9[/dice][/b] [calcn 2*[dice 1 4]7[/dice]]"
    (parse (stored source submitted ([], []))).storedRolls =
        (((ofSubmission submitted).bake source ([], [])).2.2.reverse.map Call.roll) ∧
      ((ofSubmission submitted).bake source ([], [])).2.2 = [⟨1, 4, 3⟩, ⟨1, 6, 9⟩] :=
  ⟨storedRolls_stored regular_loaded (Source.cycle [9, 3]) [], by cbv⟩

/-- A second typed result behind a dice of a formula takes the place of the first one, which is
    thrown away: the formula is read again, and nothing is rolled. -/
theorem storedRolls_stored_unfenced :
    let source := (Source.ofFunction fun min _ => min).traced
    let submitted := "[calcn [dice 1 6]4[/dice]3[/dice]][/calcn]"
    (parse (stored source submitted ((), []))).storedRolls ≠
      ((ofSubmission submitted).bake source ((), [])).2.2.reverse.map Call.roll := by
  intro source submitted h_stored
  have h_rolls : (parse (stored source submitted ((), []))).storedRolls = [⟨1, 6, 3⟩] := by cbv
  have h_calls : ((ofSubmission submitted).bake source ((), [])).2.2 = [] := by cbv
  rw [h_rolls, h_calls] at h_stored
  exact absurd h_stored (by simp)

end Document

end DiceMarkup
