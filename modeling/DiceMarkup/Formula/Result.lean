/-
  DiceMarkup.Formula.Result

  What a formula comes to: the text that is shown for it and its value. A
  value is finite, and zero has no sign.
-/
import DiceMarkup.Decimal.Layout
import DiceMarkup.EvalError

namespace DiceMarkup.Formula

/-- A formula that has been worked out. -/
structure Result where
  /-- The formula as it is shown, with the results of its dice. -/
  expression : String
  value : Float
deriving DecidableEq

/-- Numbers in messages are written with the fewest digits that identify them and never with an
    exponent; whole numbers have no point, and of two equally near numbers the greater is taken. -/
def numberLayout : Decimal.Layout where
  positional _ := true
  wholeMark := ""
  tie := .up

/-- The value of a formula, if it is a finite number; zero loses its sign. -/
def settle (value : Float) : Except EvalError Float :=
  if !value.isFinite then .error .nonFinite
  else if value == 0 then .ok 0
  else .ok value

end DiceMarkup.Formula
