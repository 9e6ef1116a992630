/-
  DiceMarkup.Node.Bracket

  The words of the markup, as they are read from a place in a text: openers
  and closers of tags, attribute words, attribute text that is kept as it
  stands, and stored results.
-/
import DiceMarkup.Node
import DiceMarkup.Tag
import DiceMarkup.Text.Blank
import DiceMarkup.Text.Cursor

namespace DiceMarkup.Bracket

open Text (Cursor isBlank)

/-- `[name`, if `]` or white space follows: the name and the place after it. -/
def opener? (c : Cursor) : Option (String × Cursor) :=
  let name := (c.rest.drop 1).takeWhile Char.isAlpha
  if name.isEmpty then none
  else
    let after := c.drop (name.length + 1)
    match after.rest with
    | [] => none
    | x :: _ => if x = ']' || isBlank x then some (String.ofList name, after) else none

/-- `[/name]` with a name that stands for a tag: the tag and the place after it. -/
def closer? (c : Cursor) : Option (Tag × Cursor) :=
  match c.rest with
  | '[' :: '/' :: cs =>
    let name := cs.takeWhile Char.isAlpha
    match cs.drop name.length with
    | ']' :: _ =>
      (Tag.resolve? (String.ofList name)).map fun meaning => (meaning.tag, c.drop (name.length + 3))
    | _ => none
  | _ => none

/-! ## Attributes -/

/-- Holds of what may not follow within a word; parentheses end only a word inside a group. -/
def endsWord (inGroup : Bool) (x : Char) : Bool :=
  isBlank x || x == ']' || x == '[' || inGroup && (x == '(' || x == ')')

/-- The word here and the place after it. The first character belongs to the word whatever it is. -/
def word (inGroup : Bool) (c : Cursor) : Node × Cursor :=
  let chars := c.rest.take 1 ++ (c.rest.drop 1).takeWhile fun x => !endsWord inGroup x
  (.text (String.ofList chars), c.drop chars.length)

/-- The number of characters before the `]` that closes a bracket opened `depth` levels further out,
    on top of `count`. -/
def lengthToClosing? (depth count : Nat) : List Char → Option Nat
  | [] => none
  | x :: cs =>
    if x = '[' then lengthToClosing? (depth + 1) (count + 1) cs
    else if x = ']' then
      match depth with
      | 0 => some count
      | depth + 1 => lengthToClosing? depth (count + 1) cs
    else lengthToClosing? depth (count + 1) cs

/-- After the name of a tag with raw attribute text: the text up to the `]` that balances the
    bracket of the tag, if there is any text, and the place after that `]`. -/
def rawAttribute? (c : Cursor) : Option (List Node × Cursor) :=
  match c.next? with
  | none => none
  | some (x, start) =>
    if x = ']' then some ([], start)
    else
      match lengthToClosing? 0 0 start.rest with
      | none => none
      | some 0 => some ([], start.drop 1)
      | some (n + 1) =>
        some ([.text (String.ofList (start.rest.take (n + 1)))], start.drop (n + 2))

/-! ## After an opener -/

/-- The digits of a result, with an optional minus sign, that stand before the closer of the tag. -/
def storedResult? (tag : Tag) (c : Cursor) : Option (String × Cursor) :=
  let sign := if c.rest.head? = some '-' then 1 else 0
  let digits := (c.rest.drop sign).takeWhile Char.isDigit
  if digits.isEmpty then none
  else
    match closer? (c.drop (sign + digits.length)) with
    | none => none
    | some (closed, stop) =>
      if closed = tag then some (String.ofList (c.rest.take (sign + digits.length)), stop) else none

/-- The characters start with `[/name]`, in any case; the name is given in small letters. -/
def startsWithCloser (name : List Char) : List Char → Bool
  | '[' :: '/' :: cs =>
    (cs.take name.length).map Char.toLower == name && (cs.drop name.length).head? == some ']'
  | _ => false

/-- The number of characters before the first `[/name]`, on top of `count`. -/
def lengthToCloser? (name : List Char) (count : Nat) : List Char → Option Nat
  | [] => none
  | x :: cs =>
    if startsWithCloser name (x :: cs) then some count else lengthToCloser? name (count + 1) cs

/-- The place after the first `[/name]`, in any case of the name. -/
def afterCloser? (name : String) (c : Cursor) : Option Cursor :=
  let folded := (Tag.foldCase name).toList
  (lengthToCloser? folded 0 c.rest).map fun n => c.drop (n + (folded.length + 3))

end DiceMarkup.Bracket
