/-
  DiceMarkup.Proofs.Rules

  The rules of reading, as a relation between a text and what is read from it.
  The rules leave out what only serves the reader: places, notes, and the memory
  of brackets that were tried in vain. They also leave out the nesting limit: a
  tag or a group that would stand too deep has no rule, so that a text with a
  derivation is one whose reading, tries in vain included, stays within the
  limit.

  Pieces:
  * `Piece`, `assemble` — pieces of a text before plain characters are joined
  * `TagAt`, `HeaderAt`, `ItemsAt`, `ItemAt`, `BodyAt`, `PiecesAt` — the rules
  * `TagAt.functional` and its companions — a text is read in one way only
-/
import DiceMarkup.Proofs.Words

namespace DiceMarkup.Rules

open DiceMarkup.Bracket (Opening Closing RawOpening Stored rawText wordTail afterWord endsWord
  unknownEnd)
open Text (Cursor isBlank)

/-! ## Pieces of a text -/

/-- A piece of a text: a character that is no markup, or a node that was read. -/
inductive Piece where
  | plain (c : Char)
  | node (n : Node)

/-- The characters so far as a text, if there are any. -/
def flush (pending : List Char) : List Node :=
  if pending = [] then [] else [.text (String.ofList pending)]

/-- The nodes that pieces make: characters that follow one another are one text. -/
def assemble (pending : List Char) : List Piece → List Node
  | [] => flush pending
  | .plain c :: ps => assemble (pending ++ [c]) ps
  | .node n :: ps => flush pending ++ n :: assemble [] ps

/-! ## The rules -/

/-- The character that ends a list of attributes, in a tag or in a group. -/
def closingOf : Bool → Char
  | false => ']'
  | true => ')'

/-- No closer of an open tag stands here. -/
def NoEnding (opened : List Tag) (text : List Char) : Prop :=
  ∀ tag after, Closing text tag after → tag ∉ opened

theorem noEnding_of_not_closing {opened : List Tag} {text : List Char}
    (h : ∀ tag after, ¬ Closing text tag after) : NoEnding opened text :=
  fun tag after h_closing => absurd h_closing (h tag after)

/-- The attributes of a tag with this meaning are kept as they stand. -/
def keepsRaw (meaning : Option Tag.Resolved) : Bool :=
  meaning.any fun meaning => meaning.tag.rawAttribute

theorem keepsRaw_eq {name : String} {meaning : Tag.Resolved}
    (h_name : Tag.resolve? name = some meaning) :
    keepsRaw (Tag.resolve? name) = meaning.tag.rawAttribute := by
  rw [h_name]
  rfl

mutual

/-- A tag is tried at a `[` where so many levels are free and these tags are open. A `calm`
    derivation is one without anything to warn of. -/
inductive TagAt (calm : Bool) :
    Nat → List Tag → List Char → Option (Node × List Char) → Prop
  | noOpener {l : Nat} {opened : List Tag} {text : List Char}
      (h_open : ∀ name after, ¬ Opening text name after) :
      TagAt calm l opened ('[' :: text) none
  | unended {l : Nat} {opened : List Tag} {text after : List Char} {name : String}
      (h_calm : calm = false) (h_open : Opening text name after)
      (h_header : HeaderAt calm l opened (keepsRaw (Tag.resolve? name)) after none) :
      TagAt calm (l + 1) opened ('[' :: text) none
  | unknown {l : Nat} {opened : List Tag} {text after openEnd passed stop : List Char}
      {name : String} {attributes : List Node}
      (h_calm : calm = false) (h_open : Opening text name after)
      (h_name : Tag.resolve? name = none)
      (h_header : HeaderAt calm l opened false after (some (attributes, openEnd)))
      (h_stop : unknownEnd name openEnd = stop) (h_text : '[' :: text = passed ++ stop) :
      TagAt calm (l + 1) opened ('[' :: text) (some (.text (String.ofList passed), stop))
  | known {l : Nat} {opened : List Tag} {text after openEnd stop : List Char} {name : String}
      {meaning : Tag.Resolved} {attributes children : List Node}
      (h_open : Opening text name after) (h_name : Tag.resolve? name = some meaning)
      (h_header : HeaderAt calm l opened meaning.tag.rawAttribute after
        (some (attributes, openEnd)))
      (h_body : BodyAt calm l opened meaning.tag openEnd children stop) :
      TagAt calm (l + 1) opened ('[' :: text)
        (some (.element meaning.tag.name (meaning.implied.map .text ++ attributes) children, stop))

/-- What follows the name of a tag, up to the end of the opener. -/
inductive HeaderAt (calm : Bool) :
    Nat → List Tag → Bool → List Char → Option (List Node × List Char) → Prop
  | raw {l : Nat} {opened : List Tag} {after raw openEnd : List Char}
      (h_raw : RawOpening after raw openEnd) :
      HeaderAt calm l opened true after (some (rawText raw, openEnd))
  | rawFails {l : Nat} {opened : List Tag} {after : List Char}
      (h_raw : ∀ raw openEnd, ¬ RawOpening after raw openEnd) :
      HeaderAt calm l opened true after none
  | listed {l : Nat} {opened : List Tag} {after : List Char}
      {outcome : Option (List Node × List Char)}
      (h_items : ItemsAt calm l false opened after outcome) :
      HeaderAt calm l opened false after outcome

/-- The attributes of a tag or the members of a group, up to the closing character. -/
inductive ItemsAt (calm : Bool) :
    Nat → Bool → List Tag → List Char → Option (List Node × List Char) → Prop
  | nil {l : Nat} {inGroup : Bool} {opened : List Tag} : ItemsAt calm l inGroup opened [] none
  | blank {l : Nat} {inGroup : Bool} {opened : List Tag} {c : Char} {text : List Char}
      {outcome : Option (List Node × List Char)} (h_blank : isBlank c = true)
      (h_items : ItemsAt calm l inGroup opened text outcome) :
      ItemsAt calm l inGroup opened (c :: text) outcome
  | close {l : Nat} {inGroup : Bool} {opened : List Tag} {c : Char} {text : List Char}
      (h_closing : c = closingOf inGroup) :
      ItemsAt calm l inGroup opened (c :: text) (some ([], text))
  | bracket {l : Nat} {opened : List Tag} {text : List Char} :
      ItemsAt calm l true opened (']' :: text) none
  | closer {l : Nat} {inGroup : Bool} {opened : List Tag} {text after : List Char} {tag : Tag}
      (h_closing : Closing text tag after) : ItemsAt calm l inGroup opened text none
  | item {l : Nat} {inGroup : Bool} {opened : List Tag} {text next : List Char} {node : Node}
      {outcome found : Option (List Node × List Char)}
      (h_item : ItemAt calm l inGroup opened text (some (node, next)))
      (h_items : ItemsAt calm l inGroup opened next found)
      (h_outcome : outcome = found.map fun f => (node :: f.1, f.2)) :
      ItemsAt calm l inGroup opened text outcome
  | itemFails {l : Nat} {inGroup : Bool} {opened : List Tag} {text : List Char}
      (h_item : ItemAt calm l inGroup opened text none) :
      ItemsAt calm l inGroup opened text none

/-- One attribute or one member of a group. -/
inductive ItemAt (calm : Bool) :
    Nat → Bool → List Tag → List Char → Option (Node × List Char) → Prop
  | word {l : Nat} {inGroup : Bool} {opened : List Tag} {c : Char} {text : List Char}
      (h_word : endsWord inGroup c = false) (h_group : c ≠ '(') :
      ItemAt calm l inGroup opened (c :: text)
        (some (.text (String.ofList (c :: wordTail inGroup text)), afterWord inGroup text))
  /-- The bracket opens no tag, and is the first character of a word. -/
  | bracket {l : Nat} {inGroup : Bool} {opened : List Tag} {text : List Char}
      (h_closer : ∀ tag after, ¬ Closing ('[' :: text) tag after)
      (h_tag : TagAt calm l opened ('[' :: text) none) :
      ItemAt calm l inGroup opened ('[' :: text)
        (some (.text (String.ofList ('[' :: wordTail inGroup text)), afterWord inGroup text))
  | tag {l : Nat} {inGroup : Bool} {opened : List Tag} {text next : List Char} {node : Node}
      (h_tag : TagAt calm l opened text (some (node, next))) :
      ItemAt calm l inGroup opened text (some (node, next))
  | group {l : Nat} {inGroup : Bool} {opened : List Tag} {text next : List Char}
      {members : List Node}
      (h_items : ItemsAt calm l true opened text (some (members, next))) :
      ItemAt calm (l + 1) inGroup opened ('(' :: text) (some (.group members, next))
  | groupFails {l : Nat} {inGroup : Bool} {opened : List Tag} {text : List Char}
      (h_items : ItemsAt calm l true opened text none) :
      ItemAt calm (l + 1) inGroup opened ('(' :: text) none

/-- What follows the opener of a tag and belongs to it. -/
inductive BodyAt (calm : Bool) :
    Nat → List Tag → Tag → List Char → List Node → List Char → Prop
  | bare {l : Nat} {opened : List Tag} {tag : Tag} {openEnd : List Char}
      (h_kind : tag.kind = .selfClosing)
      (h_stored : tag.storesResult = true → ∀ value stop, ¬ Stored openEnd tag value stop) :
      BodyAt calm l opened tag openEnd [] openEnd
  | stored {l : Nat} {opened : List Tag} {tag : Tag} {openEnd value stop : List Char}
      (h_kind : tag.kind = .selfClosing) (h_stores : tag.storesResult = true)
      (h_stored : Stored openEnd tag value stop) :
      BodyAt calm l opened tag openEnd [.text (String.ofList value)] stop
  | inside {l : Nat} {opened : List Tag} {tag : Tag} {openEnd stop : List Char}
      {pieces : List Piece} {closed : Bool} (h_kind : tag.kind = .container)
      (h_pieces : PiecesAt calm l (tag :: opened) openEnd pieces closed stop)
      (h_calm : calm = true → closed = true) :
      BodyAt calm l opened tag openEnd (assemble [] pieces) stop

/-- The pieces of a text up to a closer or to the end; `closed` tells if they are ended by the
    closer of the innermost tag, which is then passed. -/
inductive PiecesAt (calm : Bool) :
    Nat → List Tag → List Char → List Piece → Bool → List Char → Prop
  | nil {l : Nat} {opened : List Tag} : PiecesAt calm l opened [] [] false []
  | char {l : Nat} {opened : List Tag} {c : Char} {text stop : List Char} {pieces : List Piece}
      {closed : Bool} (h_char : c ≠ '[')
      (h_pieces : PiecesAt calm l opened text pieces closed stop) :
      PiecesAt calm l opened (c :: text) (.plain c :: pieces) closed stop
  | own {l : Nat} {opened : List Tag} {text stop : List Char} {tag : Tag}
      (h_closing : Closing text tag stop) (h_own : opened.head? = some tag) :
      PiecesAt calm l opened text [] true stop
  | outer {l : Nat} {opened : List Tag} {text after : List Char} {tag : Tag}
      (h_closing : Closing text tag after) (h_own : opened.head? ≠ some tag)
      (h_outer : tag ∈ opened) :
      PiecesAt calm l opened text [] false text
  | bracket {l : Nat} {opened : List Tag} {text stop : List Char} {pieces : List Piece}
      {closed : Bool} (h_ending : NoEnding opened ('[' :: text))
      (h_tag : TagAt calm l opened ('[' :: text) none)
      (h_pieces : PiecesAt calm l opened text pieces closed stop) :
      PiecesAt calm l opened ('[' :: text) (.plain '[' :: pieces) closed stop
  | node {l : Nat} {opened : List Tag} {text next stop : List Char} {node : Node}
      {pieces : List Piece} {closed : Bool}
      (h_tag : TagAt calm l opened text (some (node, next)))
      (h_pieces : PiecesAt calm l opened next pieces closed stop) :
      PiecesAt calm l opened text (.node node :: pieces) closed stop

end

variable {calm : Bool}

/-! ## What is read is taken from the text -/

/-- Raw attribute text ends at a `]`. -/
theorem rawOpening_split {after raw openEnd : List Char} (h : RawOpening after raw openEnd) :
    ∃ taken, after = taken ++ ']' :: openEnd := by
  cases h with
  | bare => exact ⟨[], rfl⟩
  | spaced => exact ⟨_ :: raw, rfl⟩

/-- A stored result and its closer are characters of the text. -/
theorem stored_split {text stop value : List Char} {tag : Tag} (h : Stored text tag value stop) :
    ∃ taken, text = taken ++ stop := by
  obtain ⟨rest, h_text, -, name, -, h_rest, -⟩ := h
  refine ⟨value ++ '[' :: '/' :: (name ++ [']']), ?_⟩
  rw [h_text, h_rest]
  simp

mutual

theorem TagAt.split {l : Nat} {opened : List Tag} {text : List Char}
    {outcome : Option (Node × List Char)} :
    TagAt calm l opened text outcome → ∀ found ∈ outcome, ∃ taken, text = '[' :: (taken ++ found.2)
  | .noOpener _ => fun _ h_found => absurd h_found (by simp)
  | .unended _ _ _ => fun _ h_found => absurd h_found (by simp)
  | @TagAt.unknown _ _ _ _ _ openEnd _ _ name _ _ h_open _ h_header h_stop h_text => by
    rintro _ ⟨⟩
    obtain ⟨taken, h_after⟩ := h_header.split _ rfl
    obtain ⟨rest, h_end⟩ := Bracket.unknownEnd_split name openEnd
    rw [h_stop] at h_end
    refine ⟨name.toList ++ (taken ++ ']' :: rest), ?_⟩
    -- Behind the name come what the opener holds, its `]`, and what follows up to where the tag
    -- ends.
    rw [h_open.split, h_after, h_end]
    simp
  | @TagAt.known _ _ _ _ _ _ _ name _ _ _ h_open _ h_header h_body => by
    rintro _ ⟨⟩
    obtain ⟨taken, h_after⟩ := h_header.split _ rfl
    obtain ⟨rest, h_end⟩ := h_body.split
    refine ⟨name.toList ++ (taken ++ ']' :: rest), ?_⟩
    rw [h_open.split, h_after, h_end]
    simp

theorem HeaderAt.split {l : Nat} {opened : List Tag} {raw : Bool} {text : List Char}
    {outcome : Option (List Node × List Char)} :
    HeaderAt calm l opened raw text outcome →
      ∀ found ∈ outcome, ∃ taken, text = taken ++ ']' :: found.2
  | .raw h_raw => by
    rintro _ ⟨⟩
    exact rawOpening_split h_raw
  | .rawFails _ => fun _ h_found => absurd h_found (by simp)
  | .listed h_items => h_items.split

theorem ItemsAt.split {l : Nat} {inGroup : Bool} {opened : List Tag} {text : List Char}
    {outcome : Option (List Node × List Char)} :
    ItemsAt calm l inGroup opened text outcome →
      ∀ found ∈ outcome, ∃ taken, text = taken ++ closingOf inGroup :: found.2
  | .nil => fun _ h_found => absurd h_found (by simp)
  | .bracket => fun _ h_found => absurd h_found (by simp)
  | .closer _ => fun _ h_found => absurd h_found (by simp)
  | .itemFails _ => fun _ h_found => absurd h_found (by simp)
  | .blank _ h_items => by
    intro found h_found
    obtain ⟨taken, rfl⟩ := h_items.split found h_found
    exact ⟨_ :: taken, rfl⟩
  | .close h_closing => by
    rintro _ ⟨⟩
    exact ⟨[], by rw [h_closing, List.nil_append]⟩
  | .item h_item h_items h_outcome => by
    intro found h_found
    rw [h_outcome] at h_found
    obtain ⟨inner, h_inner, rfl⟩ := Option.map_eq_some_iff.1 h_found
    obtain ⟨c, first, rfl⟩ := h_item.split _ rfl
    obtain ⟨taken, h_next⟩ := h_items.split inner h_inner
    refine ⟨c :: (first ++ taken), ?_⟩
    rw [h_next]
    simp

theorem ItemAt.split {l : Nat} {inGroup : Bool} {opened : List Tag} {text : List Char}
    {outcome : Option (Node × List Char)} :
    ItemAt calm l inGroup opened text outcome →
      ∀ found ∈ outcome, ∃ c taken, text = c :: (taken ++ found.2)
  | .word _ _ => by
    rintro _ ⟨⟩
    exact ⟨_, _, by rw [Bracket.wordTail_append_afterWord]⟩
  | .bracket _ _ => by
    rintro _ ⟨⟩
    exact ⟨_, _, by rw [Bracket.wordTail_append_afterWord]⟩
  | .tag h_tag => by
    rintro _ ⟨⟩
    obtain ⟨taken, rfl⟩ := h_tag.split _ rfl
    exact ⟨'[', taken, rfl⟩
  | .group h_items => by
    rintro _ ⟨⟩
    obtain ⟨taken, rfl⟩ := h_items.split _ rfl
    refine ⟨'(', taken ++ [')'], ?_⟩
    simp [closingOf]
  | .groupFails _ => fun _ h_found => absurd h_found (by simp)

theorem BodyAt.split {l : Nat} {opened : List Tag} {tag : Tag} {text stop : List Char}
    {children : List Node} :
    BodyAt calm l opened tag text children stop → ∃ taken, text = taken ++ stop
  | .bare _ _ => ⟨[], rfl⟩
  | .stored _ _ h_stored => stored_split h_stored
  | .inside _ h_pieces _ => h_pieces.split

theorem PiecesAt.split {l : Nat} {opened : List Tag} {text stop : List Char}
    {pieces : List Piece} {closed : Bool} :
    PiecesAt calm l opened text pieces closed stop → ∃ taken, text = taken ++ stop
  | .nil => ⟨[], rfl⟩
  | .outer _ _ _ => ⟨[], rfl⟩
  | .char _ h_pieces => by
    obtain ⟨taken, rfl⟩ := h_pieces.split
    exact ⟨_ :: taken, rfl⟩
  | .bracket _ _ h_pieces => by
    obtain ⟨taken, rfl⟩ := h_pieces.split
    exact ⟨_ :: taken, rfl⟩
  | .own h_closing _ => by
    obtain ⟨name, -, rfl, -⟩ := h_closing
    exact ⟨'[' :: '/' :: (name ++ [']']), by simp⟩
  | .node h_tag h_pieces => by
    obtain ⟨first, rfl⟩ := h_tag.split _ rfl
    obtain ⟨taken, rfl⟩ := h_pieces.split
    exact ⟨'[' :: (first ++ taken), by simp⟩

end

section Length

variable {l : Nat} {inGroup raw closed : Bool} {opened : List Tag} {text next : List Char}

theorem TagAt.length_lt {node : Node} (h : TagAt calm l opened text (some (node, next))) :
    next.length < text.length := by
  obtain ⟨taken, rfl⟩ := h.split _ rfl
  simp only [List.length_cons, List.length_append]
  omega

theorem HeaderAt.length_lt {attributes : List Node}
    (h : HeaderAt calm l opened raw text (some (attributes, next))) :
    next.length < text.length := by
  obtain ⟨taken, rfl⟩ := h.split _ rfl
  simp only [List.length_cons, List.length_append]
  omega

theorem ItemAt.length_lt {node : Node}
    (h : ItemAt calm l inGroup opened text (some (node, next))) : next.length < text.length := by
  obtain ⟨c, taken, rfl⟩ := h.split _ rfl
  simp only [List.length_cons, List.length_append]
  omega

theorem PiecesAt.length_le {pieces : List Piece}
    (h : PiecesAt calm l opened text pieces closed next) : next.length ≤ text.length := by
  obtain ⟨taken, rfl⟩ := h.split
  rw [List.length_append]
  omega

end Length

/-! ## What the first character decides -/

section Inversion

variable {l : Nat} {inGroup : Bool} {opened : List Tag} {text : List Char}

/-- A closer starts with a bracket. -/
theorem closing_starts {tag : Tag} {after : List Char} (h : Closing text tag after) :
    ∃ rest, text = '[' :: '/' :: rest := by
  obtain ⟨name, -, h_text, -⟩ := h
  exact ⟨_, h_text⟩

/-- Only a bracket can be a closer. -/
theorem not_closing_of_ne {c : Char} {rest : List Char} (h : c ≠ '[') (tag : Tag)
    (after : List Char) : ¬ Closing (c :: rest) tag after := by
  intro h_closing
  obtain ⟨_, h_text⟩ := closing_starts h_closing
  exact h (List.cons.inj h_text).1

theorem not_closing_nil (tag : Tag) (after : List Char) : ¬ Closing [] tag after := by
  intro h_closing
  obtain ⟨_, h_text⟩ := closing_starts h_closing
  exact absurd h_text (by simp)

/-- Only at a bracket a tag is tried. -/
theorem not_tagAt_of_ne {c : Char} {rest : List Char} {outcome : Option (Node × List Char)}
    (h : c ≠ '[') : ¬ TagAt calm l opened (c :: rest) outcome := by
  intro h_tag
  cases h_tag <;> exact h rfl

theorem not_tagAt_nil {outcome : Option (Node × List Char)} : ¬ TagAt calm l opened [] outcome := by
  intro h_tag
  cases h_tag

theorem ne_open_of_isBlank {c : Char} (h_blank : isBlank c = true) : c ≠ '[' := by
  rintro rfl
  exact absurd h_blank (by decide)

theorem ne_open_of_word {inGroup : Bool} {c : Char} (h_word : endsWord inGroup c = false) :
    c ≠ '[' := by
  rintro rfl
  exact absurd h_word (by simp [endsWord])

/-- What ends the name of an opener is no bracket that opens. -/
theorem ne_open_of_ends {c : Char} (h_ends : c = ']' ∨ isBlank c = true) : c ≠ '[' := by
  rcases h_ends with rfl | h_blank
  · decide
  · exact ne_open_of_isBlank h_blank

/-- What follows the name of an opener does not start with a bracket. -/
theorem opening_starts {name : String} {after : List Char} (h : Opening text name after) :
    ∃ c rest, after = c :: rest ∧ c ≠ '[' := by
  obtain ⟨c, rest, h_after, h_ends⟩ := h.ends
  exact ⟨c, rest, h_after, ne_open_of_ends h_ends⟩

/-- A tag that is read starts with an opener, and so not with a closer. -/
theorem TagAt.not_closing {node : Node} {stop : List Char}
    (h : TagAt calm l opened text (some (node, stop))) (tag : Tag) (after : List Char) :
    ¬ Closing text tag after := by
  intro h_closing
  cases h with
  | unknown _ h_open => exact h_closing.not_opening _ _ h_open
  | known h_open => exact h_closing.not_opening _ _ h_open

/-- An attribute or a member may start here. -/
structure AtItem (inGroup : Bool) (c : Char) (rest : List Char) : Prop where
  not_blank : isBlank c = false
  ne_bracket : c ≠ ']'
  ne_closing : c ≠ closingOf inGroup
  not_closer : ∀ tag after, ¬ Closing (c :: rest) tag after

theorem atItem_of_word {c : Char} (h_word : endsWord inGroup c = false) (rest : List Char) :
    AtItem inGroup c rest := by
  have h_ends : isBlank c = false ∧ c ≠ ']' ∧ c ≠ '[' ∧ (inGroup = true → c ≠ ')') := by
    simp only [endsWord, Bool.or_eq_false_iff, beq_eq_false_iff_ne] at h_word
    obtain ⟨⟨⟨h_blank, h_close⟩, h_open⟩, h_group⟩ := h_word
    refine ⟨h_blank, h_close, h_open, ?_⟩
    rintro rfl
    simp_all
  obtain ⟨h_blank, h_close, h_open, h_group⟩ := h_ends
  refine ⟨h_blank, h_close, ?_, not_closing_of_ne h_open⟩
  cases inGroup with
  | false => exact h_close
  | true => exact h_group rfl

theorem ItemAt.atItem {outcome : Option (Node × List Char)}
    (h : ItemAt calm l inGroup opened text outcome) :
    ∃ c rest, text = c :: rest ∧ AtItem inGroup c rest := by
  have h_group : '(' ≠ closingOf inGroup := by cases inGroup <;> decide
  have h_open : '[' ≠ closingOf inGroup := by cases inGroup <;> decide
  cases h with
  | word h_word => exact ⟨_, _, rfl, atItem_of_word h_word _⟩
  | bracket h_closer => exact ⟨_, _, rfl, by decide, by decide, h_open, h_closer⟩
  | tag h_tag =>
    obtain ⟨taken, rfl⟩ := h_tag.split _ rfl
    exact ⟨_, _, rfl, by decide, by decide, h_open, h_tag.not_closing⟩
  | group | groupFails =>
    exact ⟨_, _, rfl, by decide, by decide, h_group, not_closing_of_ne (by decide)⟩

theorem ItemAt.atItem_cons {c : Char} {outcome : Option (Node × List Char)}
    (h : ItemAt calm l inGroup opened (c :: text) outcome) : AtItem inGroup c text := by
  obtain ⟨_, _, h_text, h_at⟩ := h.atItem
  obtain ⟨rfl, rfl⟩ := List.cons.inj h_text
  exact h_at

theorem isBlank_closingOf (inGroup : Bool) : isBlank (closingOf inGroup) = false := by
  cases inGroup <;> decide

theorem closingOf_ne_open (inGroup : Bool) : closingOf inGroup ≠ '[' := by
  cases inGroup <;> decide

theorem ItemsAt.of_nil {outcome : Option (List Node × List Char)}
    (h : ItemsAt calm l inGroup opened [] outcome) : outcome = none := by
  cases h with
  | nil | closer | itemFails => rfl
  | item h_item =>
    obtain ⟨c, rest, h_text, -⟩ := h_item.atItem
    exact absurd h_text (by simp)

theorem ItemsAt.of_blank {c : Char} {outcome : Option (List Node × List Char)}
    (h_blank : isBlank c = true) (h : ItemsAt calm l inGroup opened (c :: text) outcome) :
    ItemsAt calm l inGroup opened text outcome := by
  cases h with
  | blank _ h_items => exact h_items
  | close h_closing =>
    rw [h_closing, isBlank_closingOf] at h_blank
    exact absurd h_blank (by decide)
  | bracket => exact absurd h_blank (by decide)
  | closer h_closing =>
    exact absurd h_closing (not_closing_of_ne (ne_open_of_isBlank h_blank) _ _)
  | item h_item | itemFails h_item =>
    rw [h_item.atItem_cons.not_blank] at h_blank
    exact absurd h_blank (by decide)

theorem ItemsAt.of_close {outcome : Option (List Node × List Char)}
    (h : ItemsAt calm l inGroup opened (closingOf inGroup :: text) outcome) :
    outcome = some ([], text) := by
  generalize h_char : closingOf inGroup = c at h
  cases h with
  | blank h_blank =>
    rw [← h_char, isBlank_closingOf] at h_blank
    exact absurd h_blank (by decide)
  | close => rfl
  | bracket => exact absurd h_char (by decide)
  | closer h_closing =>
    exact absurd h_closing (not_closing_of_ne (h_char ▸ closingOf_ne_open inGroup) _ _)
  | item h_item | itemFails h_item => exact absurd h_char.symm h_item.atItem_cons.ne_closing

theorem ItemsAt.of_bracket {outcome : Option (List Node × List Char)}
    (h : ItemsAt calm l true opened (']' :: text) outcome) : outcome = none := by
  cases h with
  | blank h_blank => exact absurd h_blank (by decide)
  | close h_closing => exact absurd h_closing (by decide)
  | bracket | closer | itemFails => rfl
  | item h_item => exact absurd rfl h_item.atItem_cons.ne_bracket

theorem ItemsAt.of_closer {tag : Tag} {after : List Char}
    {outcome : Option (List Node × List Char)} (h_closing : Closing text tag after)
    (h : ItemsAt calm l inGroup opened text outcome) : outcome = none := by
  obtain ⟨rest, rfl⟩ := closing_starts h_closing
  cases h with
  | blank h_blank => exact absurd h_blank (by decide)
  | close h_char => exact absurd h_char.symm (closingOf_ne_open inGroup)
  | closer | itemFails => rfl
  | item h_item => exact absurd h_closing (h_item.atItem_cons.not_closer _ _)

/-- Where an item may start, one was read or tried. -/
theorem ItemsAt.of_atItem {c : Char} {outcome : Option (List Node × List Char)}
    (h_at : AtItem inGroup c text) (h : ItemsAt calm l inGroup opened (c :: text) outcome) :
    (ItemAt calm l inGroup opened (c :: text) none ∧ outcome = none) ∨
      ∃ node next found, ItemAt calm l inGroup opened (c :: text) (some (node, next)) ∧
        ItemsAt calm l inGroup opened next found ∧
          outcome = found.map fun f => (node :: f.1, f.2) := by
  cases h with
  | blank h_blank =>
    rw [h_at.not_blank] at h_blank
    exact absurd h_blank (by decide)
  | close h_closing => exact absurd h_closing h_at.ne_closing
  | bracket => exact absurd rfl h_at.ne_bracket
  | closer h_closing => exact absurd h_closing (h_at.not_closer _ _)
  | item h_item h_items h_outcome => exact .inr ⟨_, _, _, h_item, h_items, h_outcome⟩
  | itemFails h_item => exact .inl ⟨h_item, rfl⟩

theorem ItemAt.of_word {c : Char} {outcome : Option (Node × List Char)}
    (h_word : endsWord inGroup c = false) (h_group : c ≠ '(')
    (h : ItemAt calm l inGroup opened (c :: text) outcome) :
    outcome = some (.text (String.ofList (c :: wordTail inGroup text)),
      afterWord inGroup text) := by
  have h_open := ne_open_of_word h_word
  cases h with
  | word => rfl
  | bracket => exact absurd rfl h_open
  | tag h_tag => exact absurd h_tag (not_tagAt_of_ne h_open)
  | group | groupFails => exact absurd rfl h_group

/-- A bracket is a tag, or the start of a word where no tag is read. -/
theorem ItemAt.of_bracket {outcome : Option (Node × List Char)}
    (h : ItemAt calm l inGroup opened ('[' :: text) outcome) :
    (TagAt calm l opened ('[' :: text) none ∧
        outcome = some (.text (String.ofList ('[' :: wordTail inGroup text)),
          afterWord inGroup text)) ∨
      ∃ node next, TagAt calm l opened ('[' :: text) (some (node, next)) ∧
        outcome = some (node, next) := by
  cases h with
  | word h_word => exact absurd h_word (by simp [endsWord])
  | bracket _ h_tag => exact .inl ⟨h_tag, rfl⟩
  | tag h_tag => exact .inr ⟨_, _, h_tag, rfl⟩

theorem ItemAt.of_group {outcome : Option (Node × List Char)}
    (h : ItemAt calm l inGroup opened ('(' :: text) outcome) :
    ∃ k found, l = k + 1 ∧ ItemsAt calm k true opened text found ∧
      outcome = found.map fun f => (.group f.1, f.2) := by
  cases h with
  | word _ h_group => exact absurd rfl h_group
  | tag h_tag => exact absurd h_tag (not_tagAt_of_ne (by decide))
  | group h_items => exact ⟨_, _, rfl, h_items, rfl⟩
  | groupFails h_items => exact ⟨_, _, rfl, h_items, rfl⟩

/-- A tag that is tried at an opener is read if its attributes come to an end. -/
theorem TagAt.of_opening {after : List Char} {name : String} {outcome : Option (Node × List Char)}
    (h_open : Opening text name after) (h : TagAt calm l opened ('[' :: text) outcome) :
    ∃ k header, l = k + 1 ∧
      HeaderAt calm k opened (keepsRaw (Tag.resolve? name)) after header ∧
      ((header = none ∧ outcome = none) ∨
        ∃ attributes openEnd node stop, header = some (attributes, openEnd) ∧
          outcome = some (node, stop) ∧ (∃ taken, openEnd = taken ++ stop) ∧
          ∀ meaning, Tag.resolve? name = some meaning →
            ∃ children, BodyAt calm k opened meaning.tag openEnd children stop) := by
  cases h with
  | noOpener h_none => exact absurd h_open (h_none _ _)
  | unended _ h_open' h_header =>
    obtain ⟨rfl, rfl⟩ := h_open.unique h_open'
    exact ⟨_, _, rfl, h_header, .inl ⟨rfl, rfl⟩⟩
  | @unknown _ _ _ _ openEnd _ _ _ _ _ h_open' h_name h_header h_stop =>
    obtain ⟨rfl, rfl⟩ := h_open.unique h_open'
    refine ⟨_, _, rfl, by rw [h_name]; exact h_header, .inr ⟨_, _, _, _, rfl, rfl, ?_, ?_⟩⟩
    · rw [← h_stop]
      exact Bracket.unknownEnd_split name openEnd
    · intro meaning h_meaning
      rw [h_name] at h_meaning
      exact absurd h_meaning (by simp)
  | known h_open' h_name h_header h_body =>
    obtain ⟨rfl, rfl⟩ := h_open.unique h_open'
    refine ⟨_, _, rfl, by rw [h_name]; exact h_header,
      .inr ⟨_, _, _, _, rfl, rfl, h_body.split, ?_⟩⟩
    intro meaning h_meaning
    rw [h_name] at h_meaning
    obtain rfl := Option.some.inj h_meaning
    exact ⟨_, h_body⟩

theorem PiecesAt.of_nil {stop : List Char} {pieces : List Piece} {closed : Bool}
    (h : PiecesAt calm l opened [] pieces closed stop) :
    pieces = [] ∧ closed = false ∧ stop = [] := by
  cases h with
  | nil => exact ⟨rfl, rfl, rfl⟩
  | own h_closing | outer h_closing => exact absurd h_closing (not_closing_nil _ _)
  | node h_tag => exact absurd h_tag not_tagAt_nil

theorem PiecesAt.of_char {c : Char} {stop : List Char} {pieces : List Piece} {closed : Bool}
    (h_char : c ≠ '[') (h : PiecesAt calm l opened (c :: text) pieces closed stop) :
    ∃ rest, pieces = .plain c :: rest ∧ PiecesAt calm l opened text rest closed stop := by
  cases h with
  | char _ h_pieces => exact ⟨_, rfl, h_pieces⟩
  | own h_closing | outer h_closing => exact absurd h_closing (not_closing_of_ne h_char _ _)
  | bracket => exact absurd rfl h_char
  | node h_tag => exact absurd h_tag (not_tagAt_of_ne h_char)

/-- The closer of an open tag ends the pieces, and is passed if the tag is the innermost one. -/
theorem PiecesAt.of_closing {tag : Tag} {after stop : List Char} {pieces : List Piece}
    {closed : Bool} (h_closing : Closing text tag after) (h_opened : tag ∈ opened)
    (h : PiecesAt calm l opened text pieces closed stop) :
    pieces = [] ∧ ((opened.head? = some tag ∧ closed = true ∧ stop = after) ∨
      (opened.head? ≠ some tag ∧ closed = false ∧ stop = text)) := by
  cases h with
  | nil => exact absurd h_closing (not_closing_nil _ _)
  | char h_char => exact absurd h_closing (not_closing_of_ne h_char _ _)
  | own h_other h_own =>
    obtain ⟨rfl, rfl⟩ := h_closing.unique h_other
    exact ⟨rfl, .inl ⟨h_own, rfl, rfl⟩⟩
  | outer h_other h_own =>
    obtain ⟨rfl, rfl⟩ := h_closing.unique h_other
    exact ⟨rfl, .inr ⟨h_own, rfl, rfl⟩⟩
  | bracket h_ending => exact absurd h_opened (h_ending _ _ h_closing)
  | node h_tag => exact absurd h_closing (h_tag.not_closing _ _)

theorem PiecesAt.of_bracket {stop : List Char} {pieces : List Piece} {closed : Bool}
    (h_ending : NoEnding opened ('[' :: text))
    (h : PiecesAt calm l opened ('[' :: text) pieces closed stop) :
    (TagAt calm l opened ('[' :: text) none ∧
        ∃ rest, pieces = .plain '[' :: rest ∧ PiecesAt calm l opened text rest closed stop) ∨
      ∃ node next rest, TagAt calm l opened ('[' :: text) (some (node, next)) ∧
        pieces = .node node :: rest ∧ PiecesAt calm l opened next rest closed stop := by
  cases h with
  | char h_char => exact absurd rfl h_char
  | own h_closing h_own =>
    exact absurd (List.mem_of_head? h_own) (h_ending _ _ h_closing)
  | outer h_closing _ h_outer => exact absurd h_outer (h_ending _ _ h_closing)
  | bracket _ h_tag h_pieces => exact .inl ⟨h_tag, _, rfl, h_pieces⟩
  | node h_tag h_pieces => exact .inr ⟨_, _, _, h_tag, rfl, h_pieces⟩

end Inversion

/-! ## A text is read in one way only -/

theorem rawOpening_unique {after raw raw' openEnd openEnd' : List Char}
    (h : RawOpening after raw openEnd) (h' : RawOpening after raw' openEnd') :
    rawText raw = rawText raw' ∧ openEnd = openEnd' := by
  -- There is one function that reads raw text, so that it is read in one way.
  have h_first := Bracket.rawAttribute?_of_rawOpening h
  rw [Bracket.rawAttribute?_of_rawOpening h'] at h_first
  obtain ⟨h_raw, h_end⟩ := Prod.mk.inj (Option.some.inj h_first)
  exact ⟨h_raw.symm, (congrArg Cursor.rest h_end).symm⟩

theorem stored_unique {text value value' stop stop' : List Char} {tag : Tag}
    (h : Stored text tag value stop) (h' : Stored text tag value' stop') :
    value = value' ∧ stop = stop' := by
  have h_first := Bracket.storedResult?_of_stored h
  have h_second := Bracket.storedResult?_of_stored h'
  rw [h_first] at h_second
  obtain ⟨h_value, h_stop⟩ := Prod.mk.inj (Option.some.inj h_second)
  exact ⟨String.ofList_injective h_value, congrArg Cursor.rest h_stop⟩

mutual

-- By induction on the first derivation. The second one may have other levels and may be calm or
-- not: a bracket without levels has no rule at all, so no rule reads it differently.
/-- What a bracket is read as depends on the text and on the open tags alone. -/
theorem TagAt.functional {l : Nat} {opened : List Tag} {text : List Char}
    {outcome : Option (Node × List Char)} :
    TagAt calm l opened text outcome →
      ∀ (calm' : Bool) (l' : Nat) (outcome' : Option (Node × List Char)),
        TagAt calm' l' opened text outcome' → outcome = outcome'
  | .noOpener h_open => by
    intro _ _ _ h'
    cases h' with
    -- Without an opener no tag is read, whichever rule says so.
    | noOpener | unended => rfl
    | unknown _ h_open' => exact absurd h_open' (h_open _ _)
    | known h_open' => exact absurd h_open' (h_open _ _)
  | .unended _ h_open h_header => by
    have ih_header := h_header.functional
    intro _ _ _ h'
    cases h' with
    | noOpener | unended => rfl
    | unknown _ h_open' h_name' h_header' =>
      obtain ⟨rfl, rfl⟩ := h_open.unique h_open'
      rw [h_name'] at ih_header
      exact absurd (ih_header _ _ _ h_header') (by simp)
    | known h_open' h_name' h_header' =>
      obtain ⟨rfl, rfl⟩ := h_open.unique h_open'
      rw [h_name'] at ih_header
      exact absurd (ih_header _ _ _ h_header') (by simp)
  | .unknown _ h_open h_name h_header h_stop h_text => by
    have ih_header := h_header.functional
    intro _ _ _ h'
    cases h' with
    | noOpener h_open' => exact absurd h_open (h_open' _ _)
    | unended _ h_open' h_header' =>
      obtain ⟨rfl, rfl⟩ := h_open.unique h_open'
      rw [h_name] at h_header'
      exact absurd (ih_header _ _ _ h_header') (by simp)
    | unknown _ h_open' _ h_header' h_stop' h_text' =>
      obtain ⟨rfl, rfl⟩ := h_open.unique h_open'
      obtain ⟨-, rfl⟩ := Prod.mk.inj (Option.some.inj (ih_header _ _ _ h_header'))
      subst h_stop h_stop'
      rw [h_text] at h_text'
      rw [List.append_cancel_right h_text']
    | known h_open' h_name' =>
      obtain ⟨rfl, rfl⟩ := h_open.unique h_open'
      rw [h_name] at h_name'
      exact absurd h_name' (by simp)
  | .known h_open h_name h_header h_body => by
    have ih_header := h_header.functional
    have ih_body := h_body.functional
    intro _ _ _ h'
    cases h' with
    | noOpener h_open' => exact absurd h_open (h_open' _ _)
    | unended _ h_open' h_header' =>
      obtain ⟨rfl, rfl⟩ := h_open.unique h_open'
      rw [h_name] at h_header'
      exact absurd (ih_header _ _ _ h_header') (by simp)
    | unknown _ h_open' h_name' =>
      obtain ⟨rfl, rfl⟩ := h_open.unique h_open'
      rw [h_name] at h_name'
      exact absurd h_name' (by simp)
    | known h_open' h_name' h_header' h_body' =>
      obtain ⟨rfl, rfl⟩ := h_open.unique h_open'
      rw [h_name] at h_name'
      obtain rfl := Option.some.inj h_name'
      obtain ⟨rfl, rfl⟩ := Prod.mk.inj (Option.some.inj (ih_header _ _ _ h_header'))
      obtain ⟨rfl, rfl⟩ := ih_body _ _ _ _ h_body'
      rfl

theorem HeaderAt.functional {l : Nat} {opened : List Tag} {raw : Bool} {text : List Char}
    {outcome : Option (List Node × List Char)} :
    HeaderAt calm l opened raw text outcome →
      ∀ (calm' : Bool) (l' : Nat) (outcome' : Option (List Node × List Char)),
        HeaderAt calm' l' opened raw text outcome' → outcome = outcome'
  | .raw h_raw => by
    intro _ _ _ h'
    cases h' with
    | raw h_raw' =>
      obtain ⟨h_text, rfl⟩ := rawOpening_unique h_raw h_raw'
      rw [h_text]
    | rawFails h_raw' => exact absurd h_raw (h_raw' _ _)
  | .rawFails h_raw => by
    intro _ _ _ h'
    cases h' with
    | raw h_raw' => exact absurd h_raw' (h_raw _ _)
    | rawFails => rfl
  | .listed h_items => by
    have ih_items := h_items.functional
    intro _ _ _ h'
    cases h' with
    | listed h_items' => exact ih_items _ _ _ h_items'

theorem ItemsAt.functional {l : Nat} {inGroup : Bool} {opened : List Tag} {text : List Char}
    {outcome : Option (List Node × List Char)} :
    ItemsAt calm l inGroup opened text outcome →
      ∀ (calm' : Bool) (l' : Nat) (outcome' : Option (List Node × List Char)),
        ItemsAt calm' l' inGroup opened text outcome' → outcome = outcome'
  | .nil => by
    intro _ _ _ h'
    exact h'.of_nil.symm
  | .blank h_blank h_items => by
    have ih_items := h_items.functional
    intro _ _ _ h'
    exact ih_items _ _ _ (h'.of_blank h_blank)
  | .close h_closing => by
    intro _ _ _ h'
    subst h_closing
    exact h'.of_close.symm
  | .bracket => by
    intro _ _ _ h'
    exact h'.of_bracket.symm
  | .closer h_closing => by
    intro _ _ _ h'
    exact (h'.of_closer h_closing).symm
  | .item h_item h_items h_outcome => by
    have ih_item := h_item.functional
    have ih_items := h_items.functional
    intro _ _ _ h'
    obtain ⟨c, rest, rfl, h_at⟩ := h_item.atItem
    rcases h'.of_atItem h_at with ⟨h_item', -⟩ | ⟨node', next', found', h_item', h_items', h_eq⟩
    · exact absurd (ih_item _ _ _ h_item') (by simp)
    · obtain ⟨rfl, rfl⟩ := Prod.mk.inj (Option.some.inj (ih_item _ _ _ h_item'))
      rw [h_outcome, h_eq, ih_items _ _ _ h_items']
  | .itemFails h_item => by
    have ih_item := h_item.functional
    intro _ _ _ h'
    obtain ⟨c, rest, rfl, h_at⟩ := h_item.atItem
    rcases h'.of_atItem h_at with ⟨-, h_eq⟩ | ⟨node', next', found', h_item', -, -⟩
    · exact h_eq.symm
    · exact absurd (ih_item _ _ _ h_item') (by simp)

theorem ItemAt.functional {l : Nat} {inGroup : Bool} {opened : List Tag} {text : List Char}
    {outcome : Option (Node × List Char)} :
    ItemAt calm l inGroup opened text outcome →
      ∀ (calm' : Bool) (l' : Nat) (outcome' : Option (Node × List Char)),
        ItemAt calm' l' inGroup opened text outcome' → outcome = outcome'
  | .word h_word h_group => by
    intro _ _ _ h'
    exact (h'.of_word h_word h_group).symm
  | .bracket _ h_tag => by
    have ih_tag := h_tag.functional
    intro _ _ _ h'
    rcases h'.of_bracket with ⟨-, h_eq⟩ | ⟨node, next, h_tag', -⟩
    · exact h_eq.symm
    · exact absurd (ih_tag _ _ _ h_tag') (by simp)
  | .tag h_tag => by
    have ih_tag := h_tag.functional
    intro _ _ _ h'
    obtain ⟨taken, rfl⟩ := h_tag.split _ rfl
    rcases h'.of_bracket with ⟨h_tag', -⟩ | ⟨node, next, h_tag', h_eq⟩
    · exact absurd (ih_tag _ _ _ h_tag') (by simp)
    · rw [h_eq, ih_tag _ _ _ h_tag']
  | .group h_items => by
    have ih_items := h_items.functional
    intro _ _ _ h'
    obtain ⟨k, found, -, h_items', h_eq⟩ := h'.of_group
    rw [h_eq, ← ih_items _ _ _ h_items', Option.map_some]
  | .groupFails h_items => by
    have ih_items := h_items.functional
    intro _ _ _ h'
    obtain ⟨k, found, -, h_items', h_eq⟩ := h'.of_group
    rw [h_eq, ← ih_items _ _ _ h_items', Option.map_none]

theorem BodyAt.functional {l : Nat} {opened : List Tag} {tag : Tag} {text stop : List Char}
    {children : List Node} :
    BodyAt calm l opened tag text children stop →
      ∀ (calm' : Bool) (l' : Nat) (children' : List Node) (stop' : List Char),
        BodyAt calm' l' opened tag text children' stop' → children = children' ∧ stop = stop'
  | .bare h_kind h_stored => by
    intro _ _ _ _ h'
    cases h' with
    | bare => exact ⟨rfl, rfl⟩
    | stored _ h_stores h_stored' => exact absurd h_stored' (h_stored h_stores _ _)
    | inside h_kind' =>
      rw [h_kind] at h_kind'
      exact absurd h_kind' (by decide)
  | .stored h_kind h_stores h_stored => by
    intro _ _ _ _ h'
    cases h' with
    | bare _ h_stored' => exact absurd h_stored (h_stored' h_stores _ _)
    | stored _ _ h_stored' =>
      obtain ⟨rfl, rfl⟩ := stored_unique h_stored h_stored'
      exact ⟨rfl, rfl⟩
    | inside h_kind' =>
      rw [h_kind] at h_kind'
      exact absurd h_kind' (by decide)
  | .inside h_kind h_pieces _ => by
    have ih_pieces := h_pieces.functional
    intro _ _ _ _ h'
    cases h' with
    | bare h_kind' | stored h_kind' =>
      rw [h_kind] at h_kind'
      exact absurd h_kind' (by decide)
    | inside _ h_pieces' =>
      obtain ⟨rfl, -, rfl⟩ := ih_pieces _ _ _ _ _ h_pieces'
      exact ⟨rfl, rfl⟩

theorem PiecesAt.functional {l : Nat} {opened : List Tag} {text stop : List Char}
    {pieces : List Piece} {closed : Bool} :
    PiecesAt calm l opened text pieces closed stop →
      ∀ (calm' : Bool) (l' : Nat) (pieces' : List Piece) (closed' : Bool) (stop' : List Char),
        PiecesAt calm' l' opened text pieces' closed' stop' →
          pieces = pieces' ∧ closed = closed' ∧ stop = stop'
  | .nil => by
    intro _ _ _ _ _ h'
    obtain ⟨rfl, rfl, rfl⟩ := h'.of_nil
    exact ⟨rfl, rfl, rfl⟩
  | .char h_char h_pieces => by
    have ih_pieces := h_pieces.functional
    intro _ _ _ _ _ h'
    obtain ⟨rest, rfl, h_pieces'⟩ := h'.of_char h_char
    obtain ⟨rfl, rfl, rfl⟩ := ih_pieces _ _ _ _ _ h_pieces'
    exact ⟨rfl, rfl, rfl⟩
  | .own h_closing h_own => by
    intro _ _ _ _ _ h'
    rcases h'.of_closing h_closing (List.mem_of_head? h_own) with
      ⟨rfl, ⟨-, rfl, rfl⟩ | ⟨h_outer, -, -⟩⟩
    · exact ⟨rfl, rfl, rfl⟩
    · exact absurd h_own h_outer
  | .outer h_closing h_own h_outer => by
    intro _ _ _ _ _ h'
    rcases h'.of_closing h_closing h_outer with ⟨rfl, ⟨h_own', -, -⟩ | ⟨-, rfl, rfl⟩⟩
    · exact absurd h_own' h_own
    · exact ⟨rfl, rfl, rfl⟩
  | .bracket h_ending h_tag h_pieces => by
    have ih_tag := h_tag.functional
    have ih_pieces := h_pieces.functional
    intro _ _ _ _ _ h'
    rcases h'.of_bracket h_ending with ⟨-, rest, rfl, h_pieces'⟩ | ⟨node, next, rest, h_tag', -, -⟩
    · obtain ⟨rfl, rfl, rfl⟩ := ih_pieces _ _ _ _ _ h_pieces'
      exact ⟨rfl, rfl, rfl⟩
    · exact absurd (ih_tag _ _ _ h_tag') (by simp)
  | .node h_tag h_pieces => by
    have ih_tag := h_tag.functional
    have ih_pieces := h_pieces.functional
    intro _ _ _ _ _ h'
    obtain ⟨taken, rfl⟩ := h_tag.split _ rfl
    -- A tag that is read here starts with an opener, so that no closer ends the pieces.
    have h_ending : NoEnding opened ('[' :: (taken ++ _)) :=
      noEnding_of_not_closing h_tag.not_closing
    rcases h'.of_bracket h_ending with ⟨h_tag', -⟩ | ⟨node, next, rest, h_tag', rfl, h_pieces'⟩
    · exact absurd (ih_tag _ _ _ h_tag') (by simp)
    · obtain ⟨rfl, rfl⟩ := Prod.mk.inj (Option.some.inj (ih_tag _ _ _ h_tag'))
      obtain ⟨rfl, rfl, rfl⟩ := ih_pieces _ _ _ _ _ h_pieces'
      exact ⟨rfl, rfl, rfl⟩

end

end DiceMarkup.Rules
