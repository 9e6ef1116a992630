/-
  DiceMarkup.Node.Reader

  From a text to its tree. Reading never fails: what is not markup stays in
  the tree as plain text.

  * A bracket is tried as a tag where it stands. If its opener does not end,
    the bracket is a character like any other, and what follows it is read
    on its own.
  * The closer of a tag ends the children of the innermost tag of that name
    and, unseen by them, of every tag opened since.
  * An unknown tag is plain text up to its own closer, if it has one.

  Tags and groups nest to a limit. What may open at one level is described by
  an `Openers`, and the openers of a level are built from those of the level
  below; `openers` does this as often as the limit says.
-/
import DiceMarkup.Node.Bracket
import DiceMarkup.Node.Issue

namespace DiceMarkup

open Text (Cursor LineTable)

namespace Reader

/-- An attempt to read a tag or a group here. The list holds the tags whose children are being read,
    the innermost first. -/
abbrev Attempt := List Tag → Cursor → Notes → Option (Node × Cursor) × Notes

/-- What may open at one level of nesting. -/
structure Openers where
  /-- A tag, at a `[`. -/
  tag : Attempt
  /-- A group, at a `(`; `none` where no group may open. -/
  group : Option Attempt

/-! ## Attributes and groups -/

/-- One attribute or one item of a group. The closer of a tag is no attribute, and ends the
    attempt. -/
def item (inner : Openers) (inGroup : Bool) : Attempt := fun opened c notes =>
  if (Bracket.closer? c).isSome then (none, notes)
  else
    match c.next? with
    | some ('(', after) =>
      match inner.group with
      | some group => group opened c notes
      | none => (some (Bracket.word inGroup c), notes.add .groupTooDeep c after)
    | some ('[', _) =>
      match inner.tag opened c notes with
      | (some found, notes) => (some found, notes)
      -- The bracket is the first character of a word, which the next bracket would end.
      | (none, notes) => (some (Bracket.word inGroup c), notes)
    | _ => (some (Bracket.word inGroup c), notes)

/-- The items up to a closing character, with white space between them. A `]` ends every list, in
    vain if another character has to close it. -/
def items (closing : Char) (read : Cursor → Notes → Option (Node × Cursor) × Notes)
    (found : List Node) (c : Cursor) (notes : Notes) : Option (List Node × Cursor) × Notes :=
  match c.skipBlank.next? with
  | none => (none, notes)
  | some (x, after) =>
    if x = closing then (some (found.reverse, after), notes)
    else if x = ']' then (none, notes)
    else
      match read c.skipBlank notes with
      | (none, notes) => (none, notes)
      | (some (node, next), notes) =>
        -- Every reader of an item takes a character or more.
        if next.left < c.left then items closing read (node :: found) next notes
        else (none, notes)
termination_by c.left

/-- The attributes of a tag, from the place after its name to the `]`. -/
def attributes (inner : Openers) (opened : List Tag) (c : Cursor) (notes : Notes) :
    Option (List Node × Cursor) × Notes :=
  items ']' (item inner false opened) [] c notes

/-- A group, from its `(` to its `)`. -/
def group (inner : Openers) : Attempt := fun opened c notes =>
  match items ')' (item inner true opened) [] (c.drop 1) notes with
  | (some (members, stop), notes) => (some (.group members, stop), notes)
  | (none, notes) => (none, notes)

/-! ## Children -/

/-- Pieces that follow one another, as far as they could be read. -/
structure Siblings where
  nodes : List Node
  /-- They were ended by the closer of the innermost tag. -/
  closed : Bool
  stop : Cursor
  notes : Notes

/-- How a place ends the pieces before it. -/
inductive Ending where
  /-- By the closer of the innermost tag. -/
  | own (stop : Cursor)
  /-- By the closer of a tag further out, which is left to be read by that tag. -/
  | outer
  /-- Not at all. -/
  | none

def ending (opened : List Tag) (c : Cursor) : Ending :=
  match Bracket.closer? c with
  | .none => .none
  | some (tag, stop) =>
    if opened.head? = some tag then .own stop
    else if tag ∈ opened then .outer
    else .none

/-- The pieces found and after them the plain characters, both with the last one first. -/
def withPlain (found : List Node) (plain : List Char) : List Node :=
  if plain.isEmpty then found else .text (String.ofList plain.reverse) :: found

/-- Plain text and tags, up to a closer or to the end. -/
def siblings (tag : Attempt) (opened : List Tag) (found : List Node) (plain : List Char)
    (c : Cursor) (notes : Notes) : Siblings :=
  match h : c.next? with
  | none => ⟨(withPlain found plain).reverse, false, c, notes⟩
  | some (x, after) =>
    have := Cursor.left_lt_of_next? h
    if x = '[' then
      match ending opened c with
      | .own stop => ⟨(withPlain found plain).reverse, true, stop, notes⟩
      | .outer => ⟨(withPlain found plain).reverse, false, c, notes⟩
      | .none =>
        match tag opened c notes with
        | (none, notes) => siblings tag opened found (x :: plain) after notes
        | (some (node, next), notes) =>
          -- Every reader of a tag takes a character or more.
          if next.left < c.left then
            siblings tag opened (node :: withPlain found plain) [] next notes
          else ⟨(withPlain found plain).reverse, false, c, notes⟩
    else siblings tag opened found (x :: plain) after notes
termination_by c.left

/-! ## Tags -/

/-- What an opener becomes once its attributes are known: an empty tag, perhaps with a stored
    result, or a tag with the children that follow. -/
def body (inner : Openers) (opened : List Tag) (name : String) (tag : Tag)
    (attributes : List Node) (c openEnd : Cursor) (notes : Notes) : (Node × Cursor) × Notes :=
  match tag.kind with
  | .selfClosing =>
    match if tag.storesResult then Bracket.storedResult? tag openEnd else none with
    | some (value, stop) => ((.element tag.name attributes [.text value], stop), notes)
    | none => ((.element tag.name attributes [], openEnd), notes)
  | .container =>
    let inside := siblings inner.tag (tag :: opened) [] [] openEnd notes
    ((.element tag.name attributes inside.nodes, inside.stop),
      if inside.closed then inside.notes
      else inside.notes.add (.unterminated name) c openEnd)

/-- A tag of the markup, written with this name. If its opener does not end, the issues found in it
    count for nothing: its characters will be read again. -/
def knownTag (inner : Openers) (opened : List Tag) (name : String) (meaning : Tag.Resolved)
    (c after : Cursor) (notes : Notes) : Option (Node × Cursor) × Notes :=
  let issues := notes.issues
  -- The text of an infix formula may hold brackets, which only have to balance.
  let listed :=
    if meaning.tag.rawAttribute then (Bracket.rawAttribute? after, notes)
    else attributes inner opened after notes
  match listed with
  | (none, notes) => (none, ((notes.restore issues).fail c).add (.malformed name) c after)
  | (some (written, openEnd), notes) =>
    let (found, notes) :=
      body inner opened name meaning.tag (meaning.implied.map .text ++ written) c openEnd notes
    (some found, notes)

/-- A name that stands for no tag: plain text up to its closer, or to the end of the opener if the
    closer is missing. Issues found in its opener count for nothing. -/
def unknownTag (inner : Openers) (opened : List Tag) (name : String) (c after : Cursor)
    (notes : Notes) : Option (Node × Cursor) × Notes :=
  let issues := notes.issues
  match attributes inner opened after notes with
  | (none, notes) => (none, (notes.restore issues).fail c)
  | (some (_, openEnd), notes) =>
    let stop := (Bracket.afterCloser? name openEnd).getD openEnd
    (some (.text (String.ofList (c.textTo stop)), stop),
      (notes.restore issues).add (.unknownTag name) c openEnd)

/-- A tag at a `[`. -/
def tag (inner : Openers) : Attempt := fun opened c notes =>
  if notes.hasFailed c then (none, notes)
  else
    match Bracket.opener? c with
    | none => (none, notes)
    | some (name, after) =>
      match Tag.resolve? name with
      | some meaning => knownTag inner opened name meaning c after notes
      | none => unknownTag inner opened name c after notes

/-- A tag at a `[` where no tag may open. -/
def tagTooDeep : Attempt := fun _ c notes =>
  if notes.hasFailed c then (none, notes)
  else
    match Bracket.opener? c with
    | none => (none, notes)
    | some (name, after) => (none, notes.add (.tagTooDeep name) c after)

/-- What may open where so many levels are still free. -/
def openers : Nat → Openers
  | 0 => ⟨tagTooDeep, none⟩
  | levels + 1 => ⟨tag (openers levels), some (group (openers levels))⟩

/-- The pieces of a whole text. -/
def run (start : Notes) (cs : List Char) : Siblings :=
  siblings (openers nestingLimit).tag [] [] [] (Cursor.ofList cs) start

end Reader

namespace Document

/-- The tree that a text stands for. -/
def parse (source : String) : Document :=
  (Reader.run .remembering source.toList).nodes

/-- The issues of a text, in the order in which they were found. -/
def issues (source : String) : List Issue :=
  (Reader.run .remembering source.toList).notes.issues.reverse

/-- The reports on the issues of a text. -/
def diagnose (source : String) : List Diagnostic :=
  let cs := source.toList
  let lines := LineTable.ofList cs
  let size := Text.byteLength cs
  (issues source).map (Issue.diagnostic size lines)

end Document

end DiceMarkup
