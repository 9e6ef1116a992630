/-
  DiceMarkup.Json

  JSON values as the command line prints them: members on lines of their
  own, two spaces further in for each level, and empty lists and objects on
  one line. In a string only the quote, the backslash and the control
  characters below U+0020 are escaped.
-/
import DiceMarkup.Decimal.Layout

namespace DiceMarkup

inductive Json where
  | null
  | integer (value : Int)
  | real (value : Float)
  | string (value : String)
  | array (items : List Json)
  /-- Names and values, in the order in which they are printed. -/
  | object (fields : List (String × Json))

namespace Json

/-- Numbers that are not whole by their type have a point or an exponent, which carries its sign.
    They are positional from `0.00001` to below `10 ^ 16`. -/
def realLayout : Decimal.Layout where
  positional e := -5 ≤ e && e < 16
  wholeMark := ".0"
  tie := .toEven

/-- A character within a string. -/
def escape (c : Char) : List Char :=
  match c with
  | '"' => ['\\', '"']
  | '\\' => ['\\', '\\']
  | '\n' => ['\\', 'n']
  | '\r' => ['\\', 'r']
  | '\t' => ['\\', 't']
  | '\x08' => ['\\', 'b']
  | '\x0c' => ['\\', 'f']
  | c =>
    if c.toNat < 0x20 then
      ['\\', 'u', '0', '0', Nat.digitChar (c.toNat / 16), Nat.digitChar (c.toNat % 16)]
    else [c]

def quoted (value : String) : List Char :=
  '"' :: (value.toList.flatMap escape ++ ['"'])

/-- The start of a line, so many levels in. -/
def newLine (level : Nat) : List Char :=
  '\n' :: List.replicate (2 * level) ' '

mutual

/-- The value as it is printed so many levels in. -/
def print (level : Nat) : Json → List Char
  | null => "null".toList
  | integer value => value.repr.toList
  | real value => (realLayout.write value).toList
  | string value => quoted value
  | array [] => ['[', ']']
  | array (item :: items) =>
    '[' :: (newLine (level + 1) ++ (print (level + 1) item ++
      (printItems (level + 1) items ++ (newLine level ++ [']']))))
  | object [] => ['\x7b', '\x7d']
  | object (field :: fields) =>
    '\x7b' :: (newLine (level + 1) ++ (printField (level + 1) field ++
      (printFields (level + 1) fields ++ (newLine level ++ ['\x7d']))))

/-- The items after the first one. -/
def printItems (level : Nat) : List Json → List Char
  | [] => []
  | item :: items => ',' :: (newLine level ++ (print level item ++ printItems level items))

/-- The fields after the first one. -/
def printFields (level : Nat) : List (String × Json) → List Char
  | [] => []
  | field :: fields =>
    ',' :: (newLine level ++ (printField level field ++ printFields level fields))

def printField (level : Nat) : String × Json → List Char
  | (name, value) => quoted name ++ (':' :: ' ' :: print level value)

end

/-- The text of a value. -/
def toText (value : Json) : String :=
  String.ofList (print 0 value)

end Json

end DiceMarkup
