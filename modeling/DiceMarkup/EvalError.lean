/-
  DiceMarkup.EvalError

  Why a dice or a formula has no value. Such an error stops only the piece
  that it is about: the piece is shown as it is written, and reported.
-/
import DiceMarkup.Diagnostic
import DiceMarkup.Node.Writer
import DiceMarkup.Numeral

namespace DiceMarkup

/-- The causes for which a dice or a formula has no value. -/
inductive EvalError where
  /-- A dice with another number of attributes than two. -/
  | diceArity (found : Nat)
  | diceBound (written : String)
  | diceInverted (min max : Int64)
  | storedMalformed
  | storedOutOfRange (min max result : Int64)
  /-- A dice without a result where none may be rolled. -/
  | noRandomSource
  /-- A formula whose attribute is not one group with an operator. -/
  | formulaShape
  /-- An infix formula whose attribute is not one text. -/
  | infixShape
  | unknownOperator (written : String)
  | missingOperand (operator : Char)
  | notANumber (written : String)
  /-- A tag other than a dice among the operands. -/
  | unsupportedTag (name : String)
  | unexpectedToken (written : String)
  | unexpectedEnd
  | tooDeep
  | divisionByZero
  | nonFinite
deriving DecidableEq

namespace EvalError

def message : EvalError → String
  | diceArity found =>
    "dice takes 2 integer bounds, found " ++ toString found ++ " attribute(s)"
  | diceBound written => "dice bound `" ++ written ++ "` is not an integer"
  | diceInverted min max =>
    "dice bounds are inverted (" ++ Numeral.writeInt64 min ++ " > " ++ Numeral.writeInt64 max ++ ")"
  | storedMalformed => "stored dice result is malformed"
  | storedOutOfRange min max result =>
    "stored dice result " ++ Numeral.writeInt64 result ++ " is outside " ++
      Numeral.writeInt64 min ++ "..=" ++ Numeral.writeInt64 max
  | noRandomSource => "dice needs a random source to roll"
  | formulaShape => "calc takes one parenthesized expression"
  | infixShape => "calcn takes one infix expression"
  | unknownOperator written => "unsupported operator `" ++ written ++ "`"
  | missingOperand operator => "operator `" ++ operator.toString ++ "` has no operands"
  | notANumber written => "`" ++ written ++ "` is not a number"
  | unsupportedTag name => "`" ++ name ++ "` is not allowed inside an expression"
  | unexpectedToken written => "unexpected `" ++ written ++ "` in expression"
  | unexpectedEnd => "unexpected end of expression"
  | tooDeep => "expression nests too deeply"
  | divisionByZero => "division by zero"
  | nonFinite => "result is not a finite number"

/-- How an error of a piece with this tag is classed. -/
def code (error : EvalError) : Tag → String
  | .formula => "E_CALC_INVALID"
  | .infixFormula => "E_CALCN_INVALID"
  | _ => if error = noRandomSource then "E_DICE_NO_RANDOM" else "E_DICE_INVALID"

/-- The report on a piece with this tag that has no value. -/
def report (error : EvalError) (tag : Tag) (node : Node) : Diagnostic where
  range := none
  severity := .error
  code := error.code tag
  message := error.message
  snippet := node.toText

end EvalError

end DiceMarkup
