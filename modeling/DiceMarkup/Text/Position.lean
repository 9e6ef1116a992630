/-
  DiceMarkup.Text.Position

  Lines and columns of a text. Lines end at a line feed only, and a column
  counts characters, whatever their size in bytes. Offsets are in bytes of
  UTF-8: one past the end counts as the end, and one inside a character as
  the start of that character.
-/
import DiceMarkup.Text.Cursor

namespace DiceMarkup.Text

/-- A line and a column, both counted from zero. -/
structure Position where
  line : Nat
  character : Nat
deriving DecidableEq

/-- From one position to another. -/
structure Range where
  start : Position
  stop : Position
deriving DecidableEq

/-- The start of a line: its byte offset, and the text from there on. -/
structure LineStart where
  offset : Nat
  rest : List Char

/-- The starts of all lines of a text, in order. -/
structure LineTable where
  first : LineStart
  others : Array LineStart

namespace LineTable

/-- Every line starts after a line feed, save the first. -/
def starts (offset : Nat) (found : Array LineStart) : List Char → Array LineStart
  | [] => found
  | c :: cs =>
    let offset := offset + c.utf8Size
    starts offset (if c = '\n' then found.push ⟨offset, cs⟩ else found) cs

def ofList (cs : List Char) : LineTable :=
  ⟨⟨0, cs⟩, starts 0 #[] cs⟩

/-- How many of the lines found start at `offset` or before, if it is at least `lo` and at most
    `hi`. -/
def countUpTo (found : Array LineStart) (offset lo hi : Nat) : Nat :=
  if lo < hi then
    let mid := (lo + hi) / 2
    match found[mid]? with
    | none => lo
    | some start =>
      if start.offset ≤ offset then countUpTo found offset (mid + 1) hi
      else countUpTo found offset lo mid
  else lo
termination_by hi - lo
decreasing_by all_goals omega

/-- The number of characters that lie whole in the first `n` bytes. -/
def columns (n : Nat) (count : Nat) : List Char → Nat
  | [] => count
  | c :: cs => if c.utf8Size ≤ n then columns (n - c.utf8Size) (count + 1) cs else count

/-- The line and column of a byte offset. -/
def position (table : LineTable) (offset : Nat) : Position :=
  -- The starts of the other lines ascend, so those at the offset or before are counted by halves.
  let line := countUpTo table.others offset 0 table.others.size
  let start := if line = 0 then table.first else table.others[line - 1]?.getD table.first
  ⟨line, columns (offset - start.offset) 0 start.rest⟩

end LineTable

end DiceMarkup.Text
