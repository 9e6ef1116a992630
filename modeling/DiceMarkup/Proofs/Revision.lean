/-
  DiceMarkup.Proofs.Revision

  What may be done to a tree between its reading and its writing. A revision
  keeps the tags and their order; it may complete the bounds of a dice, give the
  dice a result or take it away, and replace the text of an infix formula by
  one that is alike.

  Pieces:
  * `Node.tidy` — no attribute would turn into a tag or a closer when written
  * `Node.isRolled`, `startsWithResult` — results of dice, and texts like them
  * `Revises`, `RevisesAll` — the changes that reading undoes
  * `RevisesPieces` — the same on pieces, before characters are joined
-/
import DiceMarkup.Proofs.Alike
import DiceMarkup.Proofs.Canonical

namespace DiceMarkup

open Text (Cursor)

/-! ## Tidy trees -/

namespace Place

/-- A bracket and a name: an opener, if a space or a `]` follows. -/
def isOpenerWord : List Char → Bool
  | '[' :: cs => !cs.isEmpty && cs.all Char.isAlpha
  | _ => false

/-- A bracket, a slash and a name: a closer, if a `]` follows. -/
def isCloserWord : List Char → Bool
  | '[' :: '/' :: cs => !cs.isEmpty && cs.all Char.isAlpha
  | _ => false

end Place

namespace Node

/-- The attributes of a tag with this name are kept as they stand. -/
def keepsText (name : String) : Bool :=
  (Tag.ofName? name).any Tag.rawAttribute

/-- The last attribute is a closer but for the `]` that is written after it. -/
def endsInCloser (attributes : List Node) : Bool :=
  match attributes.getLast? with
  | some (.text value) => Place.isCloserWord value.toList
  | _ => false

mutual

/-- No attribute is a tag or a closer as soon as it is written with one space before it and nothing
    after it. -/
def tidy (place : Place) : Node → Bool
  | .text value => place == .child || !Place.isOpenerWord value.toList
  | .group items => tidyAll .grouped items
  | .element name attributes children =>
    (keepsText name || tidyAll .listed attributes && !endsInCloser attributes) &&
      tidyAll .child children

def tidyAll (place : Place) : List Node → Bool
  | [] => true
  | node :: nodes => tidy place node && tidyAll place nodes

end

/-- A dice that has a result. -/
def isRolled : Node → Bool
  | .element name _ (_ :: _) => name == Tag.dice.name
  | _ => false

/-- A dice without a result. -/
def isUnrolled : Node → Bool
  | .element name _ [] => name == Tag.dice.name
  | _ => false

/-- A text comes first that a dice before it would take for its result. -/
def startsWithResult : List Node → Bool
  | .text value :: _ => (Bracket.storedResult? .dice (Cursor.ofList value.toList)).isSome
  | _ => false

theorem tidyAll_append (place : Place) (as bs : List Node) :
    tidyAll place (as ++ bs) = (tidyAll place as && tidyAll place bs) := by
  induction as with
  | nil => simp [tidyAll]
  | cons a as ih => rw [List.cons_append, tidyAll, tidyAll, ih, Bool.and_assoc]

/-- The last attribute is the last one of all that stand after others. -/
theorem endsInCloser_append {as bs : List Node} (h : bs ≠ []) :
    endsInCloser (as ++ bs) = endsInCloser bs := by
  unfold endsInCloser
  rw [List.getLast?_append]
  obtain ⟨last, h_last⟩ := Option.isSome_iff_exists.1 (List.getLast?_isSome.2 h)
  rw [h_last, Option.some_or]

theorem endsInCloser_cons {a b : Node} {bs : List Node} :
    endsInCloser (a :: b :: bs) = endsInCloser (b :: bs) :=
  have h : endsInCloser ([a] ++ b :: bs) = endsInCloser (b :: bs) := endsInCloser_append (by simp)
  h

end Node

/-! ## Revisions -/

namespace Rules

open Node (isRolled isUnrolled startsWithResult keepsText write writeAll)

/-- The attributes of a dice may be kept, or a single bound may be completed. -/
def RevisesBounds (as as' : List Node) : Prop :=
  as' = as ∨ ∃ (value : String) (words : List String), as = [.text value] ∧
    NoBracket value.toList ∧
    as' = words.map .text ∧ ∀ word ∈ words, Place.isWord false word.toList = true

/-- A dice may be given a result, or its result may be taken away. -/
def RevisesResult (cs' : List Node) : Prop :=
  cs' = [] ∨ ∃ value : String, Bracket.IsResult value.toList ∧ cs' = [.text value]

mutual

/-- The second piece may be written for the first one; `raw` tells that a text is the text of a
    formula. -/
inductive Revises : Bool → Node → Node → Prop
  | text {raw : Bool} (value : String) : Revises raw (.text value) (.text value)
  | formula {value value' : String} (h_alike : Alike value.toList value'.toList)
      (h_nonempty : value.toList ≠ [] → value'.toList ≠ []) :
      Revises true (.text value) (.text value')
  | group {raw : Bool} {items items' : List Node} (h_items : RevisesAll false items items') :
      Revises raw (.group items) (.group items')
  | element {raw : Bool} {name : String} {as as' cs cs' : List Node}
      (h_attributes : RevisesAll (keepsText name) as as') (h_children : RevisesAll false cs cs') :
      Revises raw (.element name as cs) (.element name as' cs')
  | dice {raw : Bool} {as as' cs cs' : List Node} (h_bounds : RevisesBounds as as')
      (h_result : RevisesResult cs') :
      Revises raw (.element Tag.dice.name as cs) (.element Tag.dice.name as' cs')

/-- Piece by piece. Where a result is taken away, there is no other one to take its place. -/
inductive RevisesAll : Bool → List Node → List Node → Prop
  | nil {raw : Bool} : RevisesAll raw [] []
  | cons {raw : Bool} {node node' : Node} {nodes nodes' : List Node}
      (h_node : Revises raw node node') (h_nodes : RevisesAll raw nodes nodes')
      (h_dropped : isRolled node = true → isUnrolled node' = true →
        startsWithResult nodes = false) :
      RevisesAll raw (node :: nodes) (node' :: nodes')

end

/-- A dice with a result is not one without. -/
theorem not_isUnrolled {node : Node} (h : isRolled node = true) : isUnrolled node = false := by
  cases node with
  | text | group => rfl
  | element name as cs =>
    cases cs with
    | nil => exact absurd h (by simp [isRolled])
    | cons c cs => rfl

mutual

/-- A tree may be kept as it is. -/
theorem Revises.refl (raw : Bool) : (node : Node) → Revises raw node node
  | .text value => .text value
  | .group items => .group (RevisesAll.refl false items)
  | .element name as cs => .element (RevisesAll.refl (keepsText name) as) (RevisesAll.refl false cs)

theorem RevisesAll.refl (raw : Bool) : (nodes : List Node) → RevisesAll raw nodes nodes
  | [] => .nil
  | node :: nodes =>
    -- A piece that is kept keeps its result, so that none is dropped.
    .cons (Revises.refl raw node) (RevisesAll.refl raw nodes) fun h_rolled h_unrolled => by
      rw [not_isUnrolled h_rolled] at h_unrolled
      exact absurd h_unrolled (by decide)

end

/-- A tag stays the same tag. -/
theorem Revises.of_element {raw : Bool} {name : String} {as cs : List Node} {node' : Node}
    (h : Revises raw (.element name as cs) node') :
    ∃ as' cs', node' = .element name as' cs' ∧
      ((RevisesAll (keepsText name) as as' ∧ RevisesAll false cs cs') ∨
        (name = Tag.dice.name ∧ RevisesBounds as as' ∧ RevisesResult cs')) := by
  cases h with
  | element h_attributes h_children => exact ⟨_, _, rfl, .inl ⟨h_attributes, h_children⟩⟩
  | dice h_bounds h_result => exact ⟨_, _, rfl, .inr ⟨rfl, h_bounds, h_result⟩⟩

/-- A dice without a result was one before, or has lost its result. -/
theorem Revises.isRolled_or {raw : Bool} {node node' : Node} (h : Revises raw node node')
    (h_unrolled : isUnrolled node' = true) : isRolled node = true ∨ isUnrolled node = true := by
  cases h with
  | text | formula | group => exact absurd h_unrolled (by simp [isUnrolled])
  | element _ h_children =>
    cases h_children with
    | nil => exact .inr h_unrolled
    | cons => exact absurd h_unrolled (by simp [isUnrolled])
  -- Whatever becomes of its result, a dice has had one or not.
  | @dice _ _ _ cs =>
    cases cs with
    | nil => exact .inr (by simp [isUnrolled])
    | cons => exact .inl (by simp [isRolled])

/-- Texts that are no formulas stay. -/
theorem RevisesAll.of_text {value : String} {nodes' : List Node}
    (h : RevisesAll false [.text value] nodes') : nodes' = [.text value] := by
  cases h with
  | cons h_node h_nodes =>
    cases h_node
    cases h_nodes
    rfl

theorem RevisesAll.of_texts {words : List String} {nodes nodes' : List Node}
    (h : RevisesAll false (words.map .text ++ nodes) nodes') :
    ∃ rest, nodes' = words.map .text ++ rest ∧ RevisesAll false nodes rest := by
  induction words generalizing nodes' with
  | nil => exact ⟨nodes', rfl, h⟩
  | cons word words ih =>
    cases h with
    | cons h_node h_nodes =>
      cases h_node
      obtain ⟨rest, rfl, h_rest⟩ := ih h_nodes
      exact ⟨rest, rfl, h_rest⟩

/-! ## Revisions of pieces -/

/-- The same for the pieces of a text. -/
inductive RevisesPieces : List Piece → List Piece → Prop
  | nil : RevisesPieces [] []
  | plain {c : Char} {ps ps' : List Piece} (h_rest : RevisesPieces ps ps') :
      RevisesPieces (.plain c :: ps) (.plain c :: ps')
  | node {node node' : Node} {ps ps' : List Piece} (h_node : Revises false node node')
      (h_rest : RevisesPieces ps ps')
      (h_dropped : isRolled node = true → isUnrolled node' = true →
        startsWithResult (assemble [] ps) = false) :
      RevisesPieces (.node node :: ps) (.node node' :: ps')

/-- The characters that pieces are written with. -/
def writePieces : List Piece → List Char
  | [] => []
  | .plain c :: ps => c :: writePieces ps
  | .node n :: ps => write n ++ writePieces ps

theorem writeAll_flush (pending : List Char) : writeAll (flush pending) = pending := by
  unfold flush
  split
  · rename_i h_nil
    rw [h_nil, writeAll]
  · rw [writeAll, write, String.toList_ofList, writeAll, List.append_nil]

theorem writeAll_assemble (pending : List Char) (ps : List Piece) :
    writeAll (assemble pending ps) = pending ++ writePieces ps := by
  induction ps generalizing pending with
  | nil => rw [assemble, writePieces, writeAll_flush, List.append_nil]
  | cons p ps ih =>
    cases p with
    | plain c =>
      rw [assemble, ih, writePieces, List.append_assoc]
      rfl
    | node n =>
      rw [assemble, Node.writeAll_append, writeAll_flush, writeAll, ih, writePieces,
        List.nil_append]

theorem revisesAll_flush {pending : List Char} {nodes nodes' : List Node}
    (h : RevisesAll false (flush pending ++ nodes) nodes') :
    ∃ rest, nodes' = flush pending ++ rest ∧ RevisesAll false nodes rest := by
  unfold flush at *
  split at h
  · rename_i h_nil
    rw [if_pos h_nil]
    exact ⟨nodes', rfl, h⟩
  · rename_i h_some
    rw [if_neg h_some]
    obtain ⟨rest, h_rest⟩ := RevisesAll.of_texts (show RevisesAll false
      ([String.ofList pending].map .text ++ nodes) nodes' from h)
    exact ⟨rest, h_rest⟩

/-- A revision of the nodes that pieces make is a revision of the pieces. -/
theorem RevisesAll.pieces {pending : List Char} {ps : List Piece} {nodes' : List Node}
    (h : RevisesAll false (assemble pending ps) nodes') :
    ∃ ps', RevisesPieces ps ps' ∧ nodes' = assemble pending ps' := by
  -- Characters are held back up to the next node or the end, where they make one text; the
  -- induction is for whatever is held back so far.
  induction ps generalizing pending nodes' with
  | nil =>
    rw [assemble, ← List.append_nil (flush pending)] at h
    obtain ⟨rest, rfl, h_rest⟩ := revisesAll_flush h
    cases h_rest
    exact ⟨[], .nil, by rw [assemble, List.append_nil]⟩
  | cons p ps ih =>
    cases p with
    | plain c =>
      obtain ⟨ps', h_pieces, h_nodes⟩ := ih h
      exact ⟨.plain c :: ps', .plain h_pieces, h_nodes⟩
    | node n =>
      rw [assemble] at h
      obtain ⟨rest, rfl, h_rest⟩ := revisesAll_flush h
      cases h_rest with
      | @cons _ _ node' _ _ h_node h_nodes h_dropped =>
        obtain ⟨ps', h_pieces, rfl⟩ := ih h_nodes
        exact ⟨.node node' :: ps', .node h_node h_pieces h_dropped, rfl⟩

end Rules

end DiceMarkup
