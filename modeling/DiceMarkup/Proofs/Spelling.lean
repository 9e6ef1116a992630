/-
  DiceMarkup.Proofs.Spelling

  How a tree may be spelled. A tag may be spelled in any case and by an older
  name, with any white space between its attributes, and the closer of a
  container may be missing at the end of the text and before the closer of a
  tag around it. Main statement: a text is a spelling of the tree that is read
  from it, so that no character is lost, read twice or read out of order,
  however many brackets are tried in vain and at whatever depth.

  Pieces:
  * `Spells`, `SpellsHeader`, `SpellsBody`, `SpellsListed`, `SpellsAll` — the spellings
  * `Faithful` — what an attempt reads is spelled by the characters that it takes
  * `items_spells`, `siblings_readFrom` — the loops of the reader
  * `Document.parse_spells` — whole texts
-/
import DiceMarkup.Proofs.Steps

namespace DiceMarkup

open DiceMarkup.Bracket (IsResult Opening Closing RawOpening Stored rawText)
open Text (Cursor isBlank)

/-! ## Spellings -/

/-- The children of the innermost open tag end with its closer, and the text goes on with `rest`.
    The closer may be missing where the text ends, and before the closer of a tag further out. -/
inductive Ends : List Tag → List Char → List Char → Prop
  | closed {tag : Tag} {opened : List Tag} {closer rest : List Char}
      (h_closer : Closing closer tag []) : Ends (tag :: opened) closer rest
  | textEnd {opened : List Tag} : Ends opened [] []
  | outer {tag closed : Tag} {opened : List Tag} {rest after : List Char}
      (h_outer : closed ∈ opened)
      (h_other : closed ≠ tag) (h_closing : Closing rest closed after) :
      Ends (tag :: opened) [] rest

mutual

/-- These characters spell the node where the children of these tags are read, the innermost first,
    and where the text goes on with `rest`. -/
inductive Spells : List Tag → Node → List Char → List Char → Prop
  | text {opened : List Tag} {rest : List Char} (value : String) :
      Spells opened (.text value) value.toList rest
  | group {opened : List Tag} {items : List Node} {inside rest : List Char}
      (h_items : SpellsListed opened items inside (')' :: rest)) :
      Spells opened (.group items) ('(' :: (inside ++ [')'])) rest
  | element {opened : List Tag} {name : String} {meaning : Tag.Resolved}
      {written children : List Node}
      {header body rest : List Char} (h_letters : ∀ c ∈ name.toList, c.isAlpha = true)
      (h_name : Tag.resolve? name = some meaning)
      (h_header : SpellsHeader opened meaning.tag written header (']' :: (body ++ rest)))
      (h_body : SpellsBody opened meaning.tag children body rest) :
      Spells opened (.element meaning.tag.name (meaning.implied.map .text ++ written) children)
        ('[' :: (name.toList ++ (header ++ ']' :: body))) rest

/-- The characters between the name of a tag and the `]` of its opener. -/
inductive SpellsHeader : List Tag → Tag → List Node → List Char → List Char → Prop
  | listed {opened : List Tag} {tag : Tag} {written : List Node} {header rest : List Char}
      (h_raw : tag.rawAttribute = false) (h_written : SpellsListed opened written header rest) :
      SpellsHeader opened tag written header rest
  | bare {opened : List Tag} {tag : Tag} {rest : List Char} (h_raw : tag.rawAttribute = true) :
      SpellsHeader opened tag [] [] rest
  | raw {opened : List Tag} {tag : Tag} {space : Char} {raw rest : List Char}
      (h_raw : tag.rawAttribute = true) (h_space : isBlank space = true) :
      SpellsHeader opened tag (rawText raw) (space :: raw) rest

/-- The characters after the opener of a tag that belong to the tag. -/
inductive SpellsBody : List Tag → Tag → List Node → List Char → List Char → Prop
  | empty {opened : List Tag} {tag : Tag} {rest : List Char} (h_kind : tag.kind = .selfClosing) :
      SpellsBody opened tag [] [] rest
  | stored {opened : List Tag} {tag : Tag} {value : String} {closer rest : List Char}
      (h_kind : tag.kind = .selfClosing) (h_stores : tag.storesResult = true)
      (h_result : IsResult value.toList) (h_closer : Closing closer tag []) :
      SpellsBody opened tag [.text value] (value.toList ++ closer) rest
  | inside {opened : List Tag} {tag : Tag} {children : List Node} {inside ending rest : List Char}
      (h_kind : tag.kind = .container)
      (h_children : SpellsAll (tag :: opened) children inside (ending ++ rest))
      (h_ending : Ends (tag :: opened) ending rest) :
      SpellsBody opened tag children (inside ++ ending) rest

/-- Attributes or members of a group, with white space before, between and after them. -/
inductive SpellsListed : List Tag → List Node → List Char → List Char → Prop
  | nil {opened : List Tag} {blanks rest : List Char} (h_blanks : ∀ c ∈ blanks, isBlank c = true) :
      SpellsListed opened [] blanks rest
  | cons {opened : List Tag} {node : Node} {nodes : List Node}
      {blanks first others rest : List Char}
      (h_blanks : ∀ c ∈ blanks, isBlank c = true)
      (h_node : Spells opened node first (others ++ rest))
      (h_nodes : SpellsListed opened nodes others rest) :
      SpellsListed opened (node :: nodes) (blanks ++ (first ++ others)) rest

/-- Pieces one after the other. -/
inductive SpellsAll : List Tag → List Node → List Char → List Char → Prop
  | nil {opened : List Tag} {rest : List Char} : SpellsAll opened [] [] rest
  | cons {opened : List Tag} {node : Node} {nodes : List Node} {first others rest : List Char}
      (h_node : Spells opened node first (others ++ rest))
      (h_nodes : SpellsAll opened nodes others rest) :
      SpellsAll opened (node :: nodes) (first ++ others) rest

end

/-- A text is spelled by its own characters only. -/
theorem Spells.text_eq {opened : List Tag} {value : String} {spelled rest : List Char}
    (h : Spells opened (.text value) spelled rest) : spelled = value.toList := by
  cases h
  rfl

namespace Reader

/-! ## Words -/

/-- A word is spelled by its characters. -/
theorem word_spells (inGroup : Bool) (opened : List Tag) (text : List Char) :
    ∃ first, text = first ++ (Bracket.word inGroup (Cursor.ofList text)).2.rest ∧
      Spells opened (Bracket.word inGroup (Cursor.ofList text)).1 first
        (Bracket.word inGroup (Cursor.ofList text)).2.rest := by
  cases text with
  | nil => exact ⟨[], rfl, .text ""⟩
  | cons c text =>
    rw [Bracket.word_ofList_cons]
    refine ⟨c :: Bracket.wordTail inGroup text, ?_, ?_⟩
    · rw [Cursor.rest_ofList, List.cons_append, Bracket.wordTail_append_afterWord]
    · have h_text : Spells opened
          (.text (String.ofList (c :: Bracket.wordTail inGroup text)))
          (String.ofList (c :: Bracket.wordTail inGroup text)).toList
          (Bracket.afterWord inGroup text) := .text _
      rwa [String.toList_ofList] at h_text

/-- The raw text of a tag is spelled after one white space. -/
theorem rawOpening_spells {opened : List Tag} {tag : Tag} {raw after openEnd rest : List Char}
    (h_raw : tag.rawAttribute = true) (h_open : RawOpening after raw openEnd)
    (h_ends : ∃ c cs, after = c :: cs ∧ (c = ']' ∨ isBlank c = true)) :
    ∃ header, after = header ++ ']' :: openEnd ∧
      SpellsHeader opened tag (rawText raw) header rest := by
  cases h_open with
  | bare => exact ⟨[], rfl, .bare h_raw⟩
  | @spaced space raw h_space _ =>
    obtain ⟨c, cs, h_after, h_c⟩ := h_ends
    obtain ⟨rfl, -⟩ := List.cons.inj h_after
    exact ⟨space :: raw, rfl, .raw h_raw (h_c.resolve_left h_space)⟩

/-- A stored result is spelled by its characters and a closer. -/
theorem stored_spells (opened : List Tag) {tag : Tag} {text value stop : List Char}
    (h_kind : tag.kind = .selfClosing) (h_stores : tag.storesResult = true)
    (h : Stored text tag value stop) :
    ∃ body, text = body ++ stop ∧
      SpellsBody opened tag [.text (String.ofList value)] body stop := by
  obtain ⟨after, rfl, h_result, name, h_letters, rfl, h_name⟩ := h
  have h_closer : Closing ('[' :: '/' :: (name ++ [']'])) tag [] := ⟨name, h_letters, rfl, h_name⟩
  refine ⟨value ++ '[' :: '/' :: (name ++ [']']), by simp, ?_⟩
  have h_body : SpellsBody opened tag [.text (String.ofList value)]
      ((String.ofList value).toList ++ '[' :: '/' :: (name ++ [']'])) stop :=
    .stored h_kind h_stores (by rwa [String.toList_ofList]) h_closer
  rwa [String.toList_ofList] at h_body

/-! ## Attempts -/

/-- What the attempt reads at this character is spelled by the characters that it takes, this one
    and perhaps more. -/
def Faithful (start : Char) (attempt : Attempt) : Prop :=
  ∀ (opened : List Tag) (text : List Char) (notes notes' : Notes) (node : Node) (stop : Cursor),
    attempt opened (Cursor.ofList (start :: text)) notes = (some (node, stop), notes') →
      ∃ taken, text = taken ++ stop.rest ∧ Spells opened node (start :: taken) stop.rest

section Takes

variable {start : Char} {attempt : Attempt} {opened : List Tag} {c after next : Cursor}
  {notes notes' : Notes} {node : Node}

/-- A faithful attempt at its character takes this character, and perhaps more. -/
theorem Faithful.takes (h : Faithful start attempt) (h_next : c.next? = some (start, after))
    (h_some : attempt opened c notes = (some (node, next), notes')) :
    ∃ taken, c.rest = start :: taken ++ next.rest ∧
      Spells opened node (start :: taken) next.rest := by
  have h_rest := Cursor.next?_eq_some_iff.1 h_next
  rw [← Cursor.ofList_rest c, h_rest] at h_some
  obtain ⟨taken, h_taken, h_spells⟩ := h _ _ _ _ _ _ h_some
  exact ⟨taken, by rw [h_rest, h_taken]; rfl, h_spells⟩

theorem Faithful.left_lt (h : Faithful start attempt) (h_next : c.next? = some (start, after))
    (h_some : attempt opened c notes = (some (node, next), notes')) : next.left < c.left := by
  obtain ⟨taken, h_text, -⟩ := h.takes h_next h_some
  have h_start := start.utf8Size_pos
  rw [next.left_eq, c.left_eq, h_text, Text.byteLength_append, Text.byteLength_cons]
  omega

end Takes

/-- The tags and the groups that may open are read faithfully. -/
structure Openers.Faithful (openers : Openers) : Prop where
  tag : Reader.Faithful '[' openers.tag
  group : ∀ group ∈ openers.group, Reader.Faithful '(' group

section Level

variable {inner : Openers} {opened : List Tag}

theorem item_spells (h_inner : inner.Faithful) {inGroup : Bool} {text : List Char}
    {notes notes' : Notes} {node : Node} {stop : Cursor}
    (h : item inner inGroup opened (Cursor.ofList text) notes = (some (node, stop), notes')) :
    ∃ first, text = first ++ stop.rest ∧ Spells opened node first stop.rest := by
  rcases item_eq_some h with ⟨rest, group, rfl, h_group, h_read⟩ | ⟨rest, rfl, h_read⟩ | ⟨h_word, -⟩
  · obtain ⟨taken, rfl, h_spells⟩ := h_inner.group group h_group _ _ _ _ _ _ h_read
    exact ⟨'(' :: taken, rfl, h_spells⟩
  · obtain ⟨taken, rfl, h_spells⟩ := h_inner.tag _ _ _ _ _ _ h_read
    exact ⟨'[' :: taken, rfl, h_spells⟩
  -- A word is spelled by its characters, whatever was tried at the first one.
  · have h_spells := word_spells inGroup opened text
    rwa [h_word] at h_spells

/-- White space is passed before an item. -/
theorem exists_blanks (c : Cursor) :
    ∃ blanks, (∀ x ∈ blanks, isBlank x = true) ∧ c.rest = blanks ++ c.skipBlank.rest := by
  refine ⟨c.rest.takeWhile isBlank, fun x hx => List.mem_takeWhile_imp hx, ?_⟩
  rw [Cursor.skipBlank, Cursor.rest_drop, Bracket.drop_length_takeWhile,
    List.takeWhile_append_dropWhile]

/-- A list of items is spelled by the characters up to its closing character. -/
theorem items_spells {closing : Char} {read : Cursor → Notes → Option (Node × Cursor) × Notes}
    (h_read : ∀ (text : List Char) (notes notes' : Notes) (node : Node) (next : Cursor),
      read (Cursor.ofList text) notes = (some (node, next), notes') →
        ∃ first, text = first ++ next.rest ∧ Spells opened node first next.rest)
    (found : List Node) (c : Cursor) (notes : Notes) :
    ∀ (nodes : List Node) (stop : Cursor) (notes' : Notes),
      items closing read found c notes = (some (nodes, stop), notes') →
        ∃ written inside, nodes = found.reverse ++ written ∧
          c.rest = inside ++ closing :: stop.rest ∧
            SpellsListed opened written inside (closing :: stop.rest) := by
  fun_induction items closing read found c notes with
  -- The text ends too early, at a bracket, or at an item that is none: there is no list.
  | case1 | case3 | case4 | case6 => exact fun _ _ _ h => absurd h (by simp)
  | case2 found c notes after h_next =>
    intro nodes stop notes' h
    obtain ⟨blanks, h_blanks, h_rest⟩ := exists_blanks c
    obtain ⟨h_found, -⟩ := Prod.mk.inj h
    obtain ⟨rfl, rfl⟩ := Prod.mk.inj (Option.some.inj h_found)
    refine ⟨[], blanks, by simp, ?_, .nil h_blanks⟩
    rw [h_rest, Cursor.next?_eq_some_iff.1 h_next]
  | case5 found c notes x after _ _ _ node next notes₁ h_item _ ih =>
    intro nodes stop notes' h
    obtain ⟨blanks, h_blanks, h_rest⟩ := exists_blanks c
    rw [← Cursor.ofList_rest c.skipBlank] at h_item
    obtain ⟨first, h_first, h_node⟩ := h_read _ _ _ _ _ h_item
    obtain ⟨written, inside, rfl, h_inside, h_written⟩ := ih nodes stop notes' h
    rw [h_inside] at h_node h_first
    refine ⟨node :: written, blanks ++ (first ++ inside), by simp, ?_,
      .cons h_blanks h_node h_written⟩
    rw [h_rest, h_first]
    simp

theorem attributes_spells (h_inner : inner.Faithful) {after : List Char} {notes notes' : Notes}
    {nodes : List Node} {stop : Cursor}
    (h : attributes inner opened (Cursor.ofList after) notes = (some (nodes, stop), notes')) :
    ∃ header, after = header ++ ']' :: stop.rest ∧
      SpellsListed opened nodes header (']' :: stop.rest) := by
  obtain ⟨written, header, rfl, h_header, h_written⟩ :=
    items_spells (fun _ _ _ _ _ h_item => item_spells h_inner h_item) [] _ _ _ _ _ h
  exact ⟨header, h_header, h_written⟩

/-- A group is spelled from its `(` to its `)`. -/
theorem group_faithful (h_inner : inner.Faithful) : Faithful '(' (group inner) := by
  intro opened text notes notes' node stop h
  obtain ⟨members, rfl, h_items⟩ := group_eq_some h
  obtain ⟨written, inside, rfl, h_inside, h_written⟩ :=
    items_spells (fun _ _ _ _ _ h_item => item_spells h_inner h_item) [] _ _ _ _ _ h_items
  refine ⟨inside ++ [')'], ?_, .group h_written⟩
  rw [← Cursor.rest_ofList text, h_inside]
  simp

/-! ## Pieces -/

/-- The nodes were read from these characters, one after the other: a text from its own, and a node
    at a bracket in an attempt there. -/
inductive ReadFrom (tag : Attempt) (opened : List Tag) : List Node → List Char → List Char → Prop
  | nil {rest : List Char} : ReadFrom tag opened [] [] rest
  | text {nodes : List Node} {others rest : List Char} (value : String)
      (h_nodes : ReadFrom tag opened nodes others rest) :
      ReadFrom tag opened (.text value :: nodes) (value.toList ++ others) rest
  | tag {node : Node} {nodes : List Node} {taken others rest : List Char} {next : Cursor}
      {notes notes' : Notes}
      (h_tag : tag opened (Cursor.ofList ('[' :: (taken ++ (others ++ rest)))) notes =
        (some (node, next), notes'))
      (h_next : next.rest = others ++ rest) (h_nodes : ReadFrom tag opened nodes others rest) :
      ReadFrom tag opened (node :: nodes) ('[' :: (taken ++ others)) rest

/-- What is read faithfully is spelled by the characters that it is read from. -/
theorem ReadFrom.spells {tag : Attempt} (h_tag : Faithful '[' tag) {nodes : List Node}
    {inside rest : List Char} (h : ReadFrom tag opened nodes inside rest) :
    SpellsAll opened nodes inside rest := by
  induction h with
  | nil => exact .nil
  | text value _ ih => exact .cons (.text value) ih
  | tag h_some h_next _ ih =>
    obtain ⟨taken', h_taken, h_node⟩ := h_tag _ _ _ _ _ _ h_some
    rw [h_next] at h_taken h_node
    obtain rfl := List.append_cancel_right h_taken
    exact .cons h_node ih

/-- Pending plain characters are a text of their own. -/
theorem ReadFrom.flush {tag : Attempt} {nodes : List Node} {others rest : List Char}
    (plain : List Char) (h : ReadFrom tag opened nodes others rest) :
    ReadFrom tag opened (Rules.flush plain ++ nodes) (plain ++ others) rest := by
  unfold Rules.flush
  split
  · rename_i h_none
    rw [h_none]
    exact h
  · have h_text := ReadFrom.text (String.ofList plain) h
    rwa [String.toList_ofList] at h_text

theorem ending_own {c stop : Cursor} (h : ending opened c = .own stop) :
    ∃ closer, c.rest = closer ++ stop.rest ∧ ∀ rest, Ends opened closer rest := by
  unfold ending at h
  split at h
  · exact absurd h (by simp)
  rename_i tag after h_closer
  split at h
  · rename_i h_own
    obtain rfl := Ending.own.inj h
    rw [← Cursor.ofList_rest c] at h_closer
    obtain ⟨name, h_letters, h_rest, h_name⟩ := Bracket.closer?_eq_some_iff.1 h_closer
    obtain ⟨outer, rfl⟩ := List.head?_eq_some_iff.1 h_own
    refine ⟨'[' :: '/' :: (name ++ [']']), by rw [h_rest]; simp, fun rest => .closed ?_⟩
    exact ⟨name, h_letters, rfl, h_name⟩
  · split at h
    · exact absurd h (by simp)
    · exact absurd h (by simp)

theorem ending_outer {c : Cursor} (h : ending opened c = .outer) : Ends opened [] c.rest := by
  unfold ending at h
  split at h
  · exact absurd h (by simp)
  rename_i tag after h_closer
  rw [← Cursor.ofList_rest c] at h_closer
  split at h
  · exact absurd h (by simp)
  rename_i h_own
  split at h
  · rename_i h_outer
    cases opened with
    | nil => exact absurd h_outer (by simp)
    | cons innermost outer =>
      have h_other : tag ≠ innermost := fun h_eq => h_own (by rw [h_eq]; rfl)
      exact .outer ((List.mem_cons.1 h_outer).resolve_left h_other) h_other
        (Bracket.closer?_eq_some_iff.1 h_closer)
  · exact absurd h (by simp)

/-- The pieces that were read after those already found come from the pending characters and the
    text, up to where the children of the innermost tag end. -/
def Siblings.ReadFrom (siblings : Siblings) (tag : Attempt) (opened : List Tag) (found : List Node)
    (plain text : List Char) : Prop :=
  ∃ nodes inside ending, siblings.nodes = found.reverse ++ nodes ∧
    plain.reverse ++ text = inside ++ (ending ++ siblings.stop.rest) ∧
      Reader.ReadFrom tag opened nodes inside (ending ++ siblings.stop.rest) ∧
        Ends opened ending siblings.stop.rest

/-- Nothing is left to read but the ending. -/
theorem readFrom_withPlain (tag : Attempt) (found : List Node) (plain : List Char)
    {text ending : List Char} {closed : Bool} {stop : Cursor} {notes : Notes}
    (h_text : text = ending ++ stop.rest) (h_ending : Ends opened ending stop.rest) :
    Siblings.ReadFrom ⟨(withPlain found plain).reverse, closed, stop, notes⟩ tag opened found plain
      text := by
  have h_flush : ReadFrom tag opened (Rules.flush plain.reverse ++ []) (plain.reverse ++ [])
      (ending ++ stop.rest) := ReadFrom.nil.flush plain.reverse
  rw [List.append_nil, List.append_nil] at h_flush
  exact ⟨_, _, ending, withPlain_reverse found plain, by rw [h_text], h_flush, h_ending⟩

/-- A plain character is put to those that are pending. -/
theorem Siblings.ReadFrom.char {siblings : Siblings} {tag : Attempt} {found : List Node}
    {plain : List Char} {x : Char} {c after : Cursor} (h_next : c.next? = some (x, after))
    (h : siblings.ReadFrom tag opened found (x :: plain) after.rest) :
    siblings.ReadFrom tag opened found plain c.rest := by
  obtain ⟨nodes, inside, ending, h_nodes, h_text, h_rest⟩ := h
  refine ⟨nodes, inside, ending, h_nodes, ?_, h_rest⟩
  rw [← h_text, Cursor.next?_eq_some_iff.1 h_next, List.reverse_cons, List.append_assoc]
  rfl

/-- A tag that was read stands behind the characters that were pending. -/
theorem Siblings.ReadFrom.node {siblings : Siblings} {tag : Attempt} {found : List Node}
    {node : Node} {plain taken : List Char} {c next : Cursor} {notes notes' : Notes}
    (h_text : c.rest = '[' :: taken ++ next.rest)
    (h_some : tag opened c notes = (some (node, next), notes'))
    (h : siblings.ReadFrom tag opened (node :: withPlain found plain) [] next.rest) :
    siblings.ReadFrom tag opened found plain c.rest := by
  obtain ⟨nodes, inside, ending, h_nodes, h_next, h_read, h_ending⟩ := h
  rw [List.reverse_nil, List.nil_append] at h_next
  rw [← Cursor.ofList_rest c, h_text, h_next] at h_some
  refine ⟨Rules.flush plain.reverse ++ node :: nodes, plain.reverse ++ '[' :: (taken ++ inside),
    ending, ?_, ?_, (ReadFrom.tag h_some h_next h_read).flush plain.reverse, h_ending⟩
  · rw [h_nodes, List.reverse_cons, withPlain_reverse]
    simp
  · rw [h_text, h_next]
    simp

/-- Pieces are read from the characters up to the end of the children of the innermost tag. -/
theorem siblings_readFrom {tag : Attempt} (h_tag : Faithful '[' tag) (opened : List Tag)
    (found : List Node) (plain : List Char) (c : Cursor) (notes : Notes) :
    (siblings tag opened found plain c notes).ReadFrom tag opened found plain c.rest := by
  fun_induction siblings tag opened found plain c notes with
  | case1 found plain c notes h_next =>
    exact readFrom_withPlain tag found plain rfl
      (by rw [Cursor.next?_eq_none_iff.1 h_next]; exact .textEnd)
  | case2 found plain c notes _ stop h_own =>
    obtain ⟨closer, h_rest, h_ends⟩ := ending_own h_own
    exact readFrom_withPlain tag found plain h_rest (h_ends _)
  | case3 found plain c notes _ h_outer =>
    exact readFrom_withPlain tag found plain rfl (ending_outer h_outer)
  | case4 found plain c notes after _ notes' _ h_next _ ih => exact ih.char h_next
  | case7 found plain c notes x after h_next _ _ ih => exact ih.char h_next
  | case5 found plain c notes after _ node next notes' h_some _ h_next _ ih =>
    obtain ⟨taken, h_text, -⟩ := h_tag.takes h_next h_some
    exact ih.node h_text h_some
  | case6 found plain c notes after _ node next notes' h_some h_lt h_next _ =>
    -- The reader makes sure that a tag takes something; it always does.
    exact absurd (h_tag.left_lt h_next h_some) h_lt

/-! ## Tags -/

theorem body_spells (h_inner : inner.Faithful) {name : String} {tag : Tag} {attributes : List Node}
    {c : Cursor} {openEnd : List Char} {notes notes' : Notes} {node : Node} {stop : Cursor}
    (h : body inner opened name tag attributes c (Cursor.ofList openEnd) notes =
      ((node, stop), notes')) :
    ∃ children inside, node = .element tag.name attributes children ∧
      openEnd = inside ++ stop.rest ∧ SpellsBody opened tag children inside stop.rest := by
  cases h_kind : tag.kind with
  | selfClosing =>
    obtain ⟨-, ⟨value, h_stores, h_stored, rfl⟩ | ⟨rfl, rfl⟩⟩ := body_eq_selfClosing h_kind h
    · obtain ⟨inside, h_text, h_body⟩ := stored_spells opened h_kind h_stores h_stored
      rw [String.ofList_toList] at h_body
      exact ⟨_, inside, rfl, h_text, h_body⟩
    · exact ⟨[], [], rfl, rfl, .empty h_kind⟩
  | container =>
    rw [body_inside h_kind rfl] at h
    obtain ⟨h_found, -⟩ := Prod.mk.inj h
    obtain ⟨rfl, rfl⟩ := Prod.mk.inj h_found
    obtain ⟨nodes, inside, ending, h_nodes, h_text, h_read, h_ending⟩ :=
      siblings_readFrom h_inner.tag (tag :: opened) [] [] (Cursor.ofList openEnd) notes
    rw [List.reverse_nil, List.nil_append] at h_nodes h_text
    exact ⟨nodes, inside ++ ending, by rw [h_nodes], h_text.trans (List.append_assoc ..).symm,
      .inside h_kind (h_read.spells h_inner.tag) h_ending⟩

theorem header_spells (h_inner : inner.Faithful) {tag : Tag} {text after : List Char}
    {name : String}
    {notes notes' : Notes} {written : List Node} {openEnd : Cursor}
    (h_open : Opening text name after)
    (h : header inner tag.rawAttribute opened (Cursor.ofList after) notes =
      (some (written, openEnd), notes')) :
    ∃ inside, after = inside ++ ']' :: openEnd.rest ∧
      SpellsHeader opened tag written inside (']' :: openEnd.rest) := by
  unfold header at h
  split at h
  · rename_i h_raw
    -- The name is followed by a `]` or by white space, which raw text is not part of.
    obtain ⟨raw, rfl, h_opening⟩ := Bracket.rawAttribute?_eq_some (Prod.mk.inj h).1
    exact rawOpening_spells h_raw h_opening h_open.ends
  · rename_i h_raw
    obtain ⟨inside, h_inside, h_written⟩ := attributes_spells h_inner h
    exact ⟨inside, h_inside, .listed (by simpa using h_raw) h_written⟩

theorem knownTag_spells (h_inner : inner.Faithful) {name : String} {meaning : Tag.Resolved}
    {text after : List Char} {notes notes' : Notes} {node : Node} {stop : Cursor}
    (h_open : Opening text name after) (h_name : Tag.resolve? name = some meaning)
    (h : knownTag inner opened name meaning (Cursor.ofList ('[' :: text))
      (Cursor.ofList after) notes =
      (some (node, stop), notes')) :
    ∃ taken, text = taken ++ stop.rest ∧ Spells opened node ('[' :: taken) stop.rest := by
  obtain ⟨written, openEnd, _, h_header, h_body⟩ := knownTag_eq_some h
  obtain ⟨inside, h_after, h_written⟩ := header_spells h_inner h_open h_header
  rw [Cursor.rest_ofList] at h_after h_written
  obtain ⟨children, taken, rfl, h_end, h_children⟩ := body_spells h_inner h_body
  rw [h_end] at h_written
  refine ⟨name.toList ++ (inside ++ ']' :: taken), ?_,
    .element h_open.letters h_name h_written h_children⟩
  rw [h_open.split, h_after, h_end]
  simp

/-- An unknown tag is a text of its own characters. -/
theorem unknownTag_spells (h_inner : inner.Faithful) {name : String} {text after : List Char}
    {notes notes' : Notes} {node : Node} {stop : Cursor} (h_open : Opening text name after)
    (h : unknownTag inner opened name (Cursor.ofList ('[' :: text)) (Cursor.ofList after) notes =
      (some (node, stop), notes')) :
    ∃ taken, text = taken ++ stop.rest ∧ Spells opened node ('[' :: taken) stop.rest := by
  rcases h_header : header inner false opened (Cursor.ofList after) notes with
    ⟨_ | ⟨written, openEnd⟩, notes₁⟩
  · rw [unknownTag_none h_header] at h
    exact absurd h (by simp)
  -- The attributes only tell where the opener ends; the characters themselves are the text.
  obtain ⟨inside, h_after, -⟩ := attributes_spells h_inner h_header
  obtain ⟨passed, h_end⟩ := Bracket.unknownEnd_split name openEnd.rest
  generalize h_stop : Bracket.unknownEnd name openEnd.rest = rest at h_end
  have h_text : text = name.toList ++ (inside ++ ']' :: passed) ++ rest := by
    rw [h_open.split, h_after, h_end]
    simp
  rw [← Cursor.ofList_rest openEnd] at h_header
  have h_bracket : '[' :: text = ('[' :: (name.toList ++ (inside ++ ']' :: passed))) ++ rest := by
    rw [h_text]
    rfl
  rw [unknownTag_some h_header h_stop h_bracket] at h
  obtain ⟨h_found, -⟩ := Prod.mk.inj h
  obtain ⟨rfl, rfl⟩ := Prod.mk.inj (Option.some.inj h_found)
  refine ⟨_, h_text, ?_⟩
  have h_node : Spells opened
      (.text (String.ofList ('[' :: (name.toList ++ (inside ++ ']' :: passed)))))
      (String.ofList ('[' :: (name.toList ++ (inside ++ ']' :: passed)))).toList rest := .text _
  rwa [String.toList_ofList] at h_node

theorem tag_faithful (h_inner : inner.Faithful) : Faithful '[' (tag inner) := by
  intro opened text notes notes' node stop h
  obtain ⟨name, after, h_open, ⟨meaning, h_name, h_known⟩ | h_unknown⟩ := tag_eq_some h
  · exact knownTag_spells h_inner h_open h_name h_known
  · exact unknownTag_spells h_inner h_open h_unknown

end Level

/-- Where no level is left, no tag is read. -/
theorem tagTooDeep_faithful : Faithful '[' tagTooDeep := by
  intro opened text notes notes' node stop h
  unfold tagTooDeep at h
  split at h
  · exact absurd h (by simp)
  · split at h <;> exact absurd h (by simp)

/-- At every level, tags and groups are read faithfully. -/
theorem openers_faithful (levels : Nat) : (openers levels).Faithful := by
  induction levels with
  | zero => exact ⟨tagTooDeep_faithful, nofun⟩
  | succ levels ih => exact ⟨tag_faithful ih, fun _ h => Option.some.inj h ▸ group_faithful ih⟩

/-- From any notes, the pieces of a text are read from the whole text. -/
theorem run_readFrom (start : Notes) (text : List Char) :
    ReadFrom (openers nestingLimit).tag [] (run start text).nodes text [] := by
  obtain ⟨nodes, inside, ending, h_nodes, h_text, h_read, h_ending⟩ :=
    siblings_readFrom (openers_faithful nestingLimit).tag [] [] [] (Cursor.ofList text) start
  generalize h_stop : (siblings (openers nestingLimit).tag [] [] []
      (Cursor.ofList text) start).stop.rest
    = rest at h_text h_read h_ending
  -- No tag is open, so only the end of the text ends the pieces.
  cases h_ending
  rw [List.append_nil] at h_read
  have h_inside : text = inside := by simpa using h_text
  have h_nodes : (run start text).nodes = nodes := h_nodes
  rw [h_nodes, h_inside]
  exact h_read

/-- From any notes, the pieces of a text are spelled by the text. -/
theorem run_spells (start : Notes) (text : List Char) :
    SpellsAll [] (run start text).nodes text [] :=
  (run_readFrom start text).spells (openers_faithful nestingLimit).tag

end Reader

/-- A text is a spelling of the tree that it stands for. -/
theorem Document.parse_spells (source : String) :
    SpellsAll [] (Document.parse source) source.toList [] :=
  Reader.run_spells .remembering source.toList

end DiceMarkup
