/-
  DiceMarkup.Proofs.Completion

  The submission of a text as a revision of its tree. A single bound becomes
  two, results are dropped, and the texts of formulas are completed. So a
  completed formula is read again as it was written, if the text of the formula
  is in order.

  Pieces:
  * `Submission.Keeps` — a formula is completed to one that is alike
  * `Submission.pieces_revises` — the completed pieces are a revision
  * `Submission.parse_formula` — a completed formula, read again
-/
import DiceMarkup.Proofs.Bounds
import DiceMarkup.Proofs.Nesting
import DiceMarkup.Proofs.Regular
import DiceMarkup.Proofs.Shape

namespace DiceMarkup

open Node (formulas formulasAll keepsText isElement fenced fencedAll)
open Rules (Alike Revises RevisesAll)

namespace Submission

variable {formula : String → String}

/-- The second text may be written for the first one, as the text of a formula. -/
structure Keeps (raw raw' : String) : Prop where
  alike : Alike raw.toList raw'.toList
  nonempty : raw.toList ≠ [] → raw'.toList ≠ []

theorem Keeps.refl (raw : String) : Keeps raw raw :=
  ⟨.refl _, id⟩

/-- Bounds are kept or completed. -/
theorem fullBounds_revises (attributes : List Node) :
    Rules.RevisesBounds attributes (fullBounds attributes) := by
  rcases fullBounds_eq attributes with h_same | ⟨value, sides, h_single, h_read, h_full⟩
  · exact .inl h_same
  · exact .inr ⟨value, _, h_single, Rules.noBracket_of_isWord (Numeral.isWord_of_readInt64? h_read),
      h_full, isWord_fullBounds sides⟩

mutual

/-- A completed piece is a revision of the piece. -/
theorem piece_revises (raw : Bool) : (node : Node) →
    (∀ inner ∈ formulas raw node, Keeps inner (formula inner)) → fenced true node = true →
      Revises raw node (piece formula raw node)
  | .text value => by
    intro h_formulas _
    rw [piece]
    cases raw with
    | false => exact .text value
    | true =>
      have h_keeps := h_formulas value (by simp [formulas])
      exact .formula h_keeps.alike h_keeps.nonempty
  | .group items => by
    have ih := pieces_revises false items
    intro h_formulas h_fenced
    rw [formulas] at h_formulas
    rw [fenced] at h_fenced
    rw [piece]
    exact .group (ih h_formulas h_fenced)
  | .element name attributes children => by
    have ih_attributes := pieces_revises (keepsText name) attributes
    have ih_children := pieces_revises false children
    intro h_formulas h_fenced
    rw [formulas] at h_formulas
    rw [fenced, Bool.and_eq_true] at h_fenced
    rw [piece]
    split
    · rename_i h_name
      rw [h_name]
      exact .dice (fullBounds_revises attributes) (.inl rfl)
    · rename_i h_name
      rw [if_neg h_name, List.forall_mem_append] at h_formulas
      exact .element (ih_attributes h_formulas.1 h_fenced.1) (ih_children h_formulas.2 h_fenced.2)

theorem pieces_revises (raw : Bool) : (nodes : List Node) →
    (∀ inner ∈ formulasAll raw nodes, Keeps inner (formula inner)) → fencedAll true nodes = true →
      RevisesAll raw nodes (pieces formula raw nodes)
  | [] => fun _ _ => .nil
  | node :: nodes => by
    have ih_node := piece_revises raw node
    have ih_nodes := pieces_revises raw nodes
    intro h_formulas h_fenced
    rw [formulasAll, List.forall_mem_append] at h_formulas
    rw [fencedAll, Bool.and_eq_true, Bool.and_eq_true] at h_fenced
    obtain ⟨⟨h_kept, h_node⟩, h_nodes⟩ := h_fenced
    rw [pieces]
    refine .cons (ih_node h_formulas.1 h_node) (ih_nodes h_formulas.2 h_nodes) ?_
    -- A dice that loses its result has no text behind it that would be read as one.
    intro h_rolled _
    simpa [Node.losesResult, h_rolled] using h_kept

end

theorem isElement_piece (raw : Bool) (node : Node) :
    isElement (piece formula raw node) = isElement node := by
  cases node with
  | text value => rw [piece]; rfl
  | group items => rw [piece]; rfl
  | element name attributes children =>
    rw [piece]
    split <;> rfl

/-- A document has a tag if its completed pieces have one. -/
theorem any_isElement_pieces (raw : Bool) (nodes : List Node) :
    (pieces formula raw nodes).any isElement = nodes.any isElement := by
  induction nodes with
  | nil => rfl
  | cons node nodes ih => rw [pieces, List.any_cons, List.any_cons, isElement_piece, ih]

end Submission

namespace Document

/-- A document with a tag is written with a character at least. -/
theorem toText_ne_nil {document : Document} (h : document.any isElement = true) :
    (toText document).toList ≠ [] := by
  rw [toText, String.toList_ofList]
  induction document with
  | nil => exact absurd h (by decide)
  | cons node document ih =>
    rw [Node.writeAll]
    cases node with
    | element name as cs => simp [Node.write, Node.opener]
    | text | group =>
      have h_rest : document.any isElement = true := by simpa [isElement] using h
      simp [ih h_rest]

end Document

/-- A completed formula is alike, and is read again as it was written. -/
theorem Submission.parse_formula {raw : String} (h_limit : Document.WithinLimit raw)
    (h_tidy : (Document.parse raw).tidy = true)
    (h_fenced : fencedAll true (Document.parse raw) = true)
    (h_formulas : ∀ inner ∈ formulasAll false (Document.parse raw), Keeps inner (formula inner)) :
    Keeps raw (formula raw) ∧ ((Document.parse raw).any isElement = true →
      Document.parse (formula raw) = pieces formula false (Document.parse raw)) := by
  rw [formula_eq]
  split
  · rename_i h_any
    have h_revises := pieces_revises false (Document.parse raw) h_formulas h_fenced
    obtain ⟨h_parse, -, h_alike⟩ := Document.parse_toText_of_revises h_limit h_tidy h_revises
    refine ⟨⟨h_alike, fun _ => Document.toText_ne_nil ?_⟩, fun _ => h_parse⟩
    rw [any_isElement_pieces, h_any]
  · rename_i h_none
    exact ⟨.refl raw, fun h_any => absurd h_any h_none⟩

end DiceMarkup
