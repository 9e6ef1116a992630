/-
  DiceMarkup.Formula.Token

  The words of an infix formula: numbers, operators and parentheses, with
  any white space between them.
-/
import DiceMarkup.Decimal.Reading
import DiceMarkup.Formula.Result
import DiceMarkup.Text.Blank

namespace DiceMarkup.Formula.Infix

/-- The operators that bind less; the same characters are the signs. -/
inductive Additive where
  | plus | minus
deriving DecidableEq

/-- The operators that bind more. -/
inductive Multiplicative where
  | times | divide | modulo
deriving DecidableEq

/-- A word of an infix formula. -/
inductive Token where
  | number (value : Float)
  | additive (operator : Additive)
  | multiplicative (operator : Multiplicative)
  | opening
  | closing

namespace Token

/-- The words of one character that are not numbers. -/
def ofSymbol? : Char → Option Token
  | '+' => some (additive .plus)
  | '-' => some (additive .minus)
  | '*' => some (multiplicative .times)
  | '/' => some (multiplicative .divide)
  | '%' => some (multiplicative .modulo)
  | '(' => some opening
  | ')' => some closing
  | _ => none

/-- How a word is named in a message. -/
def describe : Token → String
  | number value => numberLayout.write value
  | additive .plus => "+"
  | additive .minus => "-"
  | multiplicative .times => "*"
  | multiplicative .divide => "/"
  | multiplicative .modulo => "%"
  | opening => "("
  | closing => ")"

end Token

/-- The digits at the start, and the digits after a point that follows them, if one does. -/
def literal (cs : List Char) : List Char × Option (List Char) :=
  let whole := cs.takeWhile Char.isDigit
  match cs.drop whole.length with
  | '.' :: rest => (whole, some (rest.takeWhile Char.isDigit))
  | _ => (whole, none)

/-- The characters that a literal takes. -/
def literalLength : List Char × Option (List Char) → Nat
  | (whole, some fraction) => whole.length + fraction.length + 1
  | (whole, none) => whole.length

/-- The words of a text, after the words already found, the last one first. -/
def tokens (found : List Token) : List Char → Except EvalError (List Token)
  | [] => .ok found.reverse
  | c :: cs =>
    if Text.isBlank c then tokens found cs
    else
      match Token.ofSymbol? c with
      | some token => tokens (token :: found) cs
      | none =>
        if c.isDigit || c = '.' then
          let written := literal (c :: cs)
          let (whole, fraction) := (written.1, written.2.getD [])
          if whole.isEmpty && fraction.isEmpty then .error (.notANumber ".")
          else
            tokens (.number (Decimal.ofDigits whole fraction) :: found)
              (cs.drop (literalLength written - 1))
        else .error (.unexpectedToken c.toString)
termination_by cs => cs.length
decreasing_by all_goals simp; try omega

/-- The words of a text. -/
def tokenize (text : String) : Except EvalError (List Token) :=
  tokens [] text.toList

end DiceMarkup.Formula.Infix
