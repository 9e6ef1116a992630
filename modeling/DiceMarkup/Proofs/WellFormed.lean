/-
  DiceMarkup.Proofs.WellFormed

  The form that every tree has that is read from a text, however the text is
  broken: names are those of the table, groups stand among attributes alone, no
  text is empty, a tag has the attributes and children that its kind takes, and
  tags and groups keep to the nesting limit.

  A tag, a group and the children of a tag each go one level down in their own
  way. Here a level has one meaning: what opens with so many levels still free
  is no higher than that.

  Pieces:
  * `Node.wellFormed`, `Document.wellFormed` — the form, as a check
  * `Node.Fits` — well formed in a place, with so many levels
  * `Node.subtrees` — what stands inside of a piece, at any level
  * `items_forall`, `siblings_forall` — the loops keep what holds of each piece
  * `openers_fit` — what is read at a level fits it
  * `Document.parse_wellFormed` — whole texts
-/
import DiceMarkup.Proofs.Canonical
import DiceMarkup.Proofs.Spelling

namespace DiceMarkup

open DiceMarkup.Bracket (Opening RawOpening rawText wordTail)
open Text (Cursor isBlank)

/-! ## Well-formed trees -/

/-- Whether a text may be read in a place. Among attributes it is a word, or starts with the bracket
    of a tag that is none. -/
def Place.receives (place : Place) (cs : List Char) : Bool :=
  !cs.isEmpty && (place == .child || cs.head? == some '[' ||
    cs.all fun c => !isBlank c && c != '[' && c != ']')

namespace Node

mutual

/-- A piece that is well formed where it stands. -/
def wellFormed (place : Place) : Node → Bool
  | .text value => place.receives value.toList
  | .group items => place != .child && wellFormedAll .grouped items
  | .element name attributes children =>
    match Tag.ofName? name with
    | none => false
    | some tag =>
      (if tag.rawAttribute then isRaw attributes else wellFormedAll .listed attributes) &&
        match tag.kind with
        | .container => wellFormedAll .child children
        | .selfClosing => children.isEmpty || tag.storesResult && isStored children

def wellFormedAll (place : Place) : List Node → Bool
  | [] => true
  | node :: nodes => wellFormed place node && wellFormedAll place nodes

end

theorem wellFormedAll_iff {place : Place} {nodes : List Node} :
    wellFormedAll place nodes = true ↔ ∀ node ∈ nodes, node.wellFormed place = true := by
  induction nodes with
  | nil => simp [wellFormedAll]
  | cons node nodes ih => rw [wellFormedAll, Bool.and_eq_true, ih, List.forall_mem_cons]

theorem heightAll_le_iff {levels : Nat} {nodes : List Node} :
    heightAll nodes ≤ levels ↔ ∀ node ∈ nodes, node.height ≤ levels := by
  induction nodes with
  | nil => simp [heightAll]
  | cons node nodes ih => rw [heightAll, Nat.max_le, ih, List.forall_mem_cons]

/-! ### Pieces inside of others -/

mutual

/-- A piece and all pieces that stand inside of it, at any level. -/
def subtrees : Node → List Node
  | .text value => [.text value]
  | .element name attributes children =>
    .element name attributes children :: (subtreesAll attributes ++ subtreesAll children)
  | .group items => .group items :: subtreesAll items

def subtreesAll : List Node → List Node
  | [] => []
  | node :: nodes => subtrees node ++ subtreesAll nodes

end

mutual

/-- What stands inside of a piece takes no more levels than the piece. -/
theorem height_le_of_mem_subtrees : (node : Node) → ∀ piece ∈ subtrees node,
    piece.height ≤ node.height
  | .text value => by
    intro piece h_mem
    rw [subtrees, List.mem_singleton] at h_mem
    exact h_mem ▸ le_rfl
  | .element name as cs => by
    have ih_attributes := height_le_of_mem_subtreesAll as
    have ih_children := height_le_of_mem_subtreesAll cs
    intro piece h_mem
    rw [subtrees, List.mem_cons, List.mem_append] at h_mem
    rcases h_mem with rfl | h_inside | h_inside
    · exact le_rfl
    · have := ih_attributes piece h_inside
      rw [height]
      omega
    · have := ih_children piece h_inside
      rw [height]
      omega
  | .group items => by
    have ih := height_le_of_mem_subtreesAll items
    intro piece h_mem
    rw [subtrees, List.mem_cons] at h_mem
    rcases h_mem with rfl | h_inside
    · exact le_rfl
    · have := ih piece h_inside
      rw [height]
      omega

theorem height_le_of_mem_subtreesAll : (nodes : List Node) → ∀ piece ∈ subtreesAll nodes,
    piece.height ≤ heightAll nodes
  | [] => List.forall_mem_nil _
  | node :: nodes => by
    have ih_node := height_le_of_mem_subtrees node
    have ih_nodes := height_le_of_mem_subtreesAll nodes
    intro piece h_mem
    rw [subtreesAll, List.mem_append] at h_mem
    rw [heightAll]
    rcases h_mem with h_first | h_rest
    · have := ih_node piece h_first
      omega
    · have := ih_nodes piece h_rest
      omega

end

/-! ### Levels -/

/-- The piece is well formed in this place, and takes no more levels than these. -/
structure Fits (place : Place) (levels : Nat) (node : Node) : Prop where
  formed : node.wellFormed place = true
  low : node.height ≤ levels

/-- A text takes no level. -/
theorem fits_text {place : Place} {value : String} (h : place.receives value.toList = true)
    (levels : Nat) : Fits place levels (.text value) where
  formed := by rw [wellFormed, h]
  low := by rw [height]; exact Nat.zero_le levels

/-- A group takes one level more than what is in it. -/
theorem fits_group {levels : Nat} {items : List Node}
    (h_items : ∀ item ∈ items, Fits .grouped levels item) {place : Place}
    (h_place : place ≠ .child) :
    Fits place (levels + 1) (.group items) where
  formed := by
    rw [wellFormed, Bool.and_eq_true, bne_iff_ne]
    exact ⟨h_place, wellFormedAll_iff.2 fun item h_mem => (h_items item h_mem).formed⟩
  low := by
    have h_height : heightAll items ≤ levels :=
      heightAll_le_iff.2 fun item h_mem => (h_items item h_mem).low
    rw [height]
    omega

end Node

/-- A document whose pieces are well formed and that keeps to the nesting limit. -/
def Document.wellFormed (document : Document) : Bool :=
  Node.wellFormedAll .child document && decide (Node.heightAll document ≤ nestingLimit)

open Node (Fits height heightAll isRaw isStored wellFormed wellFormedAll)

/-! ## Words and raw text -/

/-- A text that has some character may be read outside of tags. -/
theorem receives_child {cs : List Char} (h : cs ≠ []) : Place.receives .child cs = true := by
  simp [Place.receives, h]

/-- What starts with a bracket may be read everywhere. -/
theorem receives_bracket (place : Place) (cs : List Char) : place.receives ('[' :: cs) = true := by
  simp [Place.receives]

/-- So may a run of characters none of which ends a word. -/
theorem receives_word (place : Place) {cs : List Char} (h_some : cs ≠ [])
    (h_word : ∀ c ∈ cs, isBlank c = false ∧ c ≠ '[' ∧ c ≠ ']') : place.receives cs = true := by
  have h_all : (cs.all fun c => !isBlank c && c != '[' && c != ']') = true := by
    rw [List.all_eq_true]
    intro c hc
    obtain ⟨h_blank, h_open, h_close⟩ := h_word c hc
    simp [h_blank, h_open, h_close]
  rw [Place.receives, h_all]
  simp [h_some]

theorem not_ends_of_endsWord {inGroup : Bool} {c : Char} (h : Bracket.endsWord inGroup c = false) :
    isBlank c = false ∧ c ≠ '[' ∧ c ≠ ']' := by
  unfold Bracket.endsWord at h
  simp only [Bool.or_eq_false_iff, beq_eq_false_iff_ne] at h
  exact ⟨h.1.1.1, h.1.2, h.1.1.2⟩

/-- The word at a character that is neither white space nor a `]`. Where it starts with a bracket,
    nothing is asked of the characters after it. -/
theorem receives_wordAt (place : Place) (inGroup : Bool) {x : Char} (h_blank : isBlank x = false)
    (h_close : x ≠ ']') (text : List Char) :
    place.receives (x :: wordTail inGroup text) = true := by
  by_cases h_open : x = '['
  · subst h_open
    exact receives_bracket place _
  · apply receives_word place (by simp)
    intro c hc
    rcases List.mem_cons.1 hc with rfl | h_tail
    · exact ⟨h_blank, h_open, h_close⟩
    · exact not_ends_of_endsWord (Bracket.endsWord_of_mem_wordTail c h_tail)

/-- Words that a name implies are words wherever they stand. -/
theorem fits_implied {name : String} {meaning : Tag.Resolved}
    (h_name : Tag.resolve? name = some meaning) (place : Place) (levels : Nat) :
    ∀ node ∈ meaning.implied.map Node.text, Fits place levels node := by
  intro node h_mem
  obtain ⟨word, h_word, rfl⟩ := List.mem_map.1 h_mem
  obtain ⟨h_some, -, h_chars⟩ := isWord_iff.1 ((Rules.implied_words h_name).2 word h_word)
  apply Node.fits_text
  exact receives_word place h_some fun c hc => not_ends_of_endsWord (h_chars c hc)

/-- Brackets that close one another are counted evenly, from any depth on. -/
theorem counts_of_openAfter {depth stop : Nat} {cs : List Char}
    (h : Bracket.openAfter depth cs = some stop) :
    cs.count ']' + stop = cs.count '[' + depth := by
  induction cs generalizing depth with
  | nil =>
    rw [Bracket.openAfter_nil] at h
    have h_same : depth = stop := Option.some.inj h
    simp [h_same]
  | cons c cs ih =>
    by_cases h_open : c = '['
    · subst h_open
      rw [Bracket.openAfter_open] at h
      have h_rest := ih h
      simp
      omega
    by_cases h_close : c = ']'
    · subst h_close
      cases depth with
      | zero => simp at h
      | succ depth =>
        rw [Bracket.openAfter_close_succ] at h
        have h_rest := ih h
        simp
        omega
    · rw [Bracket.openAfter_other h_open h_close] at h
      simpa [List.count_cons, h_open, h_close] using ih h

/-- A text up to the bracket that closes the bracket of its tag is balanced. -/
theorem isBalanced_of_openAfter {cs : List Char} (h : Bracket.openAfter 0 cs = some 0) :
    isBalanced cs = true := by
  have h_total := counts_of_openAfter h
  unfold isBalanced
  rw [Bool.and_eq_true, List.all_eq_true, beq_iff_eq]
  refine ⟨fun start h_start => ?_, by omega⟩
  -- The depth after a beginning of the text is what the beginning has left open.
  obtain ⟨rest, rfl⟩ := (List.mem_inits start cs).1 h_start
  rw [Bracket.openAfter_append] at h
  obtain ⟨depth, h_depth, -⟩ := Option.bind_eq_some_iff.1 h
  have h_counts := counts_of_openAfter h_depth
  rw [decide_eq_true_eq]
  omega

/-- Raw attribute text is one balanced text, or none. -/
theorem isRaw_of_rawOpening {text raw rest : List Char} (h : RawOpening text raw rest) :
    isRaw (rawText raw) = true := by
  cases h with
  | bare => rfl
  | spaced h_space h_balanced =>
    unfold rawText
    split
    · rfl
    · rename_i h_some
      simp [isRaw, h_some, isBalanced_of_openAfter h_balanced]

namespace Reader

/-! ## The loops -/

/-- What holds of every item that can be read holds of all items of a list. -/
theorem items_forall {P : Node → Prop} {closing : Char}
    {read : Cursor → Notes → Option (Node × Cursor) × Notes}
    (h_read : ∀ (x : Char) (text : List Char) (notes notes' : Notes) (node : Node) (next : Cursor),
      isBlank x = false → x ≠ ']' →
        read (Cursor.ofList (x :: text)) notes = (some (node, next), notes') → P node)
    (found : List Node) (c : Cursor) (notes : Notes) (h_found : ∀ node ∈ found, P node) :
    ∀ (nodes : List Node) (stop : Cursor) (notes' : Notes),
      items closing read found c notes = (some (nodes, stop), notes') → ∀ node ∈ nodes, P node := by
  fun_induction items closing read found c notes with
  -- The list does not come to its end.
  | case1 | case3 | case4 | case6 => exact fun _ _ _ h => absurd h (by simp)
  | case2 found c notes after h_next =>
    intro nodes stop notes' h node h_mem
    obtain ⟨h_nodes, -⟩ := Prod.mk.inj h
    obtain ⟨rfl, -⟩ := Prod.mk.inj (Option.some.inj h_nodes)
    exact h_found node (List.mem_reverse.1 h_mem)
  | case5 found c notes x after h_next _ h_close node next notes₁ h_item _ ih =>
    apply ih
    intro other h_mem
    rcases List.mem_cons.1 h_mem with rfl | h_before
    · -- White space has been passed, so the item starts with another character.
      have h_rest : c.skipBlank.rest = x :: after.rest := Cursor.next?_eq_some_iff.1 h_next
      have h_blank : isBlank x = false := by
        rw [Cursor.skipBlank, Cursor.rest_drop, Bracket.drop_length_takeWhile] at h_rest
        have h_head := List.head?_dropWhile_not isBlank c.rest
        rw [h_rest] at h_head
        simpa using h_head
      rw [← Cursor.ofList_rest c.skipBlank, h_rest] at h_item
      exact h_read x after.rest _ _ _ _ h_blank h_close h_item
    · exact h_found other h_before

/-- What holds of texts and of every tag that can be read holds of all pieces. -/
theorem siblings_forall {P : Node → Prop} {tag : Attempt} (opened : List Tag)
    (h_text : ∀ value : String, value.toList ≠ [] → P (.text value))
    (h_tag : ∀ (text : List Char) (notes notes' : Notes) (node : Node) (next : Cursor),
      tag opened (Cursor.ofList ('[' :: text)) notes = (some (node, next), notes') → P node)
    (found : List Node) (plain : List Char) (c : Cursor) (notes : Notes)
    (h_found : ∀ node ∈ found, P node) :
    ∀ node ∈ (siblings tag opened found plain c notes).nodes, P node := by
  -- Pending characters are a text that is not empty.
  have h_plain : ∀ {found : List Node} (plain : List Char), (∀ node ∈ found, P node) →
      ∀ node ∈ withPlain found plain, P node := by
    intro found plain h_found
    unfold withPlain
    split
    · exact h_found
    · rename_i h_some
      rw [List.forall_mem_cons]
      exact ⟨h_text _ (by simpa using h_some), h_found⟩
  fun_induction siblings tag opened found plain c notes with
  | case1 | case2 | case3 | case6 =>
    intro node h_mem
    exact h_plain _ h_found node (List.mem_reverse.1 h_mem)
  | case4 found plain c notes after _ notes' _ h_next _ ih => exact ih h_found
  | case7 found plain c notes x after h_next _ _ ih => exact ih h_found
  | case5 found plain c notes after _ node next notes' h_some _ h_next _ ih =>
    apply ih
    rw [List.forall_mem_cons]
    rw [← Cursor.ofList_rest c, Cursor.next?_eq_some_iff.1 h_next] at h_some
    exact ⟨h_tag _ _ _ _ _ h_some, h_plain plain h_found⟩

/-! ## Attempts -/

/-- What the attempt reads at this character fits every such place, with so many levels. -/
def Fitting (start : Char) (admitted : Place → Prop) (levels : Nat) (attempt : Attempt) : Prop :=
  ∀ (opened : List Tag) (text : List Char) (notes notes' : Notes) (node : Node) (stop : Cursor),
    attempt opened (Cursor.ofList (start :: text)) notes = (some (node, stop), notes') →
      ∀ place, admitted place → node.Fits place levels

/-- Tags fit every place, and groups fit among attributes. -/
structure Openers.Fitting (levels : Nat) (openers : Openers) : Prop where
  tag : Reader.Fitting '[' (fun _ => True) levels openers.tag
  group : ∀ group ∈ openers.group, Reader.Fitting '(' (· ≠ .child) levels group

section Level

variable {inner : Openers} {levels : Nat} {opened : List Tag}

theorem item_fits (h_inner : inner.Fitting levels) {inGroup : Bool} {x : Char} {text : List Char}
    {notes notes' : Notes} {node : Node} {stop : Cursor} (h_blank : isBlank x = false)
    (h_close : x ≠ ']')
    (h : item inner inGroup opened (Cursor.ofList (x :: text)) notes = (some (node, stop), notes'))
    {place : Place} (h_place : place ≠ .child) : node.Fits place levels := by
  rcases item_eq_some h with ⟨rest, group, h_text, h_group, h_read⟩ | ⟨rest, h_text, h_read⟩ |
    ⟨h_word, -⟩
  · obtain ⟨rfl, rfl⟩ := List.cons.inj h_text
    exact h_inner.group group h_group _ _ _ _ _ _ h_read place h_place
  · obtain ⟨rfl, rfl⟩ := List.cons.inj h_text
    exact h_inner.tag _ _ _ _ _ _ h_read place trivial
  · rw [Bracket.word_ofList_cons] at h_word
    obtain ⟨rfl, -⟩ := Prod.mk.inj h_word
    apply Node.fits_text
    rw [String.toList_ofList]
    exact receives_wordAt place inGroup h_blank h_close text

/-- A group goes one level down. -/
theorem group_fitting (h_inner : inner.Fitting levels) :
    Fitting '(' (· ≠ .child) (levels + 1) (group inner) := by
  intro opened text notes notes' node stop h place h_place
  obtain ⟨members, rfl, h_items⟩ := group_eq_some h
  apply Node.fits_group _ h_place
  exact items_forall (fun _ _ _ _ _ _ h_blank h_close h_item =>
    item_fits h_inner h_blank h_close h_item (by decide)) [] _ _ (by simp) _ _ _ h_items

/-- Attributes fit as they are listed, or are the raw text that the tag takes. -/
theorem header_fits (h_inner : inner.Fitting levels) {raw : Bool} {text : List Char}
    {notes notes' : Notes} {written : List Node} {openEnd : Cursor}
    (h : header inner raw opened (Cursor.ofList text) notes = (some (written, openEnd), notes')) :
    if raw then isRaw written = true ∧ heightAll written = 0
    else ∀ node ∈ written, node.Fits .listed levels := by
  unfold header at h
  split at h
  · rename_i h_raw
    obtain ⟨raw, rfl, h_opening⟩ := Bracket.rawAttribute?_eq_some (Prod.mk.inj h).1
    rw [if_pos h_raw]
    refine ⟨isRaw_of_rawOpening h_opening, ?_⟩
    unfold rawText
    split <;> simp [heightAll, height]
  · rename_i h_raw
    rw [if_neg h_raw]
    exact items_forall (fun _ _ _ _ _ _ h_blank h_close h_item =>
      item_fits h_inner h_blank h_close h_item (by decide)) [] _ _ (by simp) _ _ _ h

/-- The children that a tag takes, and none that it does not. -/
theorem body_fits (h_inner : inner.Fitting levels) {name : String} {tag : Tag}
    {attributes : List Node} {c : Cursor} {openEnd : List Char} {notes notes' : Notes} {node : Node}
    {stop : Cursor}
    (h : body inner opened name tag attributes c (Cursor.ofList openEnd) notes =
      ((node, stop), notes')) :
    ∃ children, node = .element tag.name attributes children ∧ heightAll children ≤ levels ∧
      match tag.kind with
      | .container => wellFormedAll .child children = true
      | .selfClosing => (children.isEmpty || tag.storesResult && isStored children) = true := by
  cases h_kind : tag.kind with
  | selfClosing =>
    obtain ⟨-, ⟨value, h_stores, ⟨_, _, h_value, _⟩, rfl⟩ | ⟨rfl, -⟩⟩ :=
      body_eq_selfClosing h_kind h
    · refine ⟨[.text value], rfl, by simp [heightAll, height], ?_⟩
      simp [h_stores, isStored, isResult_iff.2 h_value]
    · exact ⟨[], rfl, Nat.zero_le levels, rfl⟩
  | container =>
    rw [body_inside h_kind rfl] at h
    obtain ⟨h_found, -⟩ := Prod.mk.inj h
    obtain ⟨rfl, -⟩ := Prod.mk.inj h_found
    have h_children : ∀ child ∈ (siblings inner.tag (tag :: opened) [] [] (Cursor.ofList openEnd)
        notes).nodes, child.Fits .child levels :=
      siblings_forall (tag :: opened)
        (fun value h_some => Node.fits_text (receives_child h_some) levels)
        (fun _ _ _ _ _ h_tag => h_inner.tag _ _ _ _ _ _ h_tag .child trivial)
        [] [] _ notes (by simp)
    exact ⟨_, rfl, Node.heightAll_le_iff.2 fun child h_mem => (h_children child h_mem).low,
      Node.wellFormedAll_iff.2 fun child h_mem => (h_children child h_mem).formed⟩

/-- A tag of the table goes one level down. -/
theorem knownTag_fits (h_inner : inner.Fitting levels) {name : String} {meaning : Tag.Resolved}
    {c : Cursor} {after : List Char} {notes notes' : Notes} {node : Node} {stop : Cursor}
    (h_name : Tag.resolve? name = some meaning)
    (h : knownTag inner opened name meaning c (Cursor.ofList after) notes =
      (some (node, stop), notes'))
    (place : Place) : node.Fits place (levels + 1) := by
  obtain ⟨written, openEnd, _, h_header, h_body⟩ := knownTag_eq_some h
  obtain ⟨children, rfl, h_height, h_children⟩ := body_fits h_inner h_body
  have h_written := header_fits h_inner h_header
  -- What the name implies stands before what is written; raw text has nothing before it.
  have h_attributes : heightAll (meaning.implied.map .text ++ written) ≤ levels ∧
      (if meaning.tag.rawAttribute then isRaw (meaning.implied.map .text ++ written)
        else wellFormedAll .listed (meaning.implied.map .text ++ written)) = true := by
    split at h_written
    · rename_i h_raw
      rw [if_pos h_raw, (Rules.implied_words h_name).1 h_raw]
      exact ⟨by simp [h_written.2], h_written.1⟩
    · rename_i h_raw
      have h_all : ∀ node ∈ meaning.implied.map .text ++ written, node.Fits .listed levels := by
        rw [List.forall_mem_append]
        exact ⟨fits_implied h_name .listed levels, h_written⟩
      rw [if_neg h_raw]
      exact ⟨Node.heightAll_le_iff.2 fun node h_mem => (h_all node h_mem).low,
        Node.wellFormedAll_iff.2 fun node h_mem => (h_all node h_mem).formed⟩
  constructor
  · rw [wellFormed, Tag.ofName?_name]
    refine Bool.and_eq_true_iff.2 ⟨h_attributes.2, ?_⟩
    cases h_kind : meaning.tag.kind with
    | container => rwa [h_kind] at h_children
    | selfClosing => rwa [h_kind] at h_children
  · rw [height]
    have h_max := Nat.max_le.2 ⟨h_attributes.1, h_height⟩
    omega

/-- A tag goes one level down; an unknown one is a text that starts with its bracket. -/
theorem tag_fitting (h_inner : inner.Fitting levels) (h_faithful : inner.Faithful) :
    Fitting '[' (fun _ => True) (levels + 1) (tag inner) := by
  intro opened text notes notes' node stop h place _
  have h_spelled := tag_faithful h_faithful opened text notes notes' node stop h
  obtain ⟨name, after, h_open, ⟨meaning, h_name, h_known⟩ | h_unknown⟩ := tag_eq_some h
  · exact knownTag_fits h_inner h_name h_known place
  · obtain ⟨value, rfl⟩ := unknownTag_eq_some h_unknown
    -- The text is spelled by itself, so it starts where the tag does.
    obtain ⟨taken, -, h_text⟩ := h_spelled
    apply Node.fits_text
    rw [← h_text.text_eq]
    exact receives_bracket place taken

end Level

/-- Where no level is left, no tag is read. -/
theorem tagTooDeep_fitting : Fitting '[' (fun _ => True) 0 tagTooDeep := by
  intro opened text notes notes' node stop h
  unfold tagTooDeep at h
  split at h
  · exact absurd h (by simp)
  · split at h <;> exact absurd h (by simp)

/-- What is read at a level fits it. -/
theorem openers_fit (levels : Nat) : (openers levels).Fitting levels := by
  induction levels with
  | zero => exact ⟨tagTooDeep_fitting, nofun⟩
  | succ levels ih =>
    exact ⟨tag_fitting ih (openers_faithful levels),
      fun _ h_group => Option.some.inj h_group ▸ group_fitting ih⟩

/-- From any notes, the pieces of a text keep to the nesting limit and are well formed. -/
theorem run_fits (start : Notes) (text : List Char) :
    ∀ node ∈ (run start text).nodes, node.Fits .child nestingLimit :=
  siblings_forall [] (fun value h_some => Node.fits_text (receives_child h_some) nestingLimit)
    (fun _ _ _ _ _ h_tag => (openers_fit nestingLimit).tag _ _ _ _ _ _ h_tag .child trivial)
    [] [] _ start (by simp)

end Reader

/-- No piece of a tree that is read, at whatever level it stands, takes more levels than the
    limit. -/
theorem Document.height_le_nestingLimit {source : String} {piece : Node}
    (h : piece ∈ Node.subtreesAll (Document.parse source)) : piece.height ≤ nestingLimit :=
  (Node.height_le_of_mem_subtreesAll _ _ h).trans (Node.heightAll_le_iff.2 fun node h_node =>
    (Reader.run_fits .remembering source.toList node h_node).low)

/-- Every tree that is read is well formed. -/
theorem Document.parse_wellFormed (source : String) :
    (Document.parse source).wellFormed = true := by
  have h_fits := Reader.run_fits .remembering source.toList
  rw [Document.wellFormed, Bool.and_eq_true, decide_eq_true_eq]
  constructor
  · exact Node.wellFormedAll_iff.2 fun node h_mem => (h_fits node h_mem).formed
  · exact Node.heightAll_le_iff.2 fun node h_mem => (h_fits node h_mem).low

end DiceMarkup
