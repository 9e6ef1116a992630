/-
  DiceMarkup.Formula.Prefix

  Formulas in parentheses, with the operator in front of its operands. An
  operand is a number, a dice or another group. All operands are worked out,
  from left to right, before the operator is applied.
-/
import DiceMarkup.Decimal.Reading
import DiceMarkup.Dice
import DiceMarkup.Formula.Result

namespace DiceMarkup.Formula

open Rolling (Source)

namespace Prefix

inductive Operator where
  | plus | minus | times | divide
deriving DecidableEq

namespace Operator

def symbol : Operator → Char
  | plus => '+'
  | minus => '-'
  | times => '*'
  | divide => '/'

def ofText? (text : String) : Option Operator :=
  [plus, minus, times, divide].find? fun operator => operator.symbol.toString == text

/-- Divides by one number after the other. -/
def quotient (value : Float) : List Float → Except EvalError Float
  | [] => .ok value
  | divisor :: others =>
    if divisor == 0 then .error .divisionByZero else quotient (value / divisor) others

/-- The operator applied to its operands. A sum is the first operand plus the sum of the others, and
    a product is made alike; differences and quotients are taken from the left. -/
def apply (operator : Operator) (first : Float) (others : List Float) : Except EvalError Float :=
  match operator with
  | plus => .ok (first + others.foldl (· + ·) 0)
  | minus => .ok (others.foldl (· - ·) first)
  | times => .ok (first * others.foldl (· * ·) 1)
  | divide => quotient first others

end Operator

/-- Digits, and perhaps a point and more digits, with an optional minus sign. -/
def readNumber? (text : String) : Option Float :=
  let unsigned (cs : List Char) : Option Float :=
    let whole := cs.takeWhile (· ≠ '.')
    let fraction := (cs.dropWhile (· ≠ '.')).drop 1
    let pointed := whole.length < cs.length
    if whole.isEmpty || !whole.all Char.isDigit then none
    else if pointed && (fraction.isEmpty || !fraction.all Char.isDigit) then none
    else some (Decimal.ofDigits whole fraction)
  match text.toList with
  | '-' :: cs => (unsigned cs).map Float.neg
  | cs => unsigned cs

/-- The texts with the operator between them. -/
def joinTexts (operator : Operator) (texts : List String) : String :=
  String.intercalate (" " ++ operator.symbol.toString ++ " ") texts

/-- The operator applied to operands that have been worked out. -/
def combine (operator : Operator) (terms : List Result) : Except EvalError Result :=
  match terms with
  | [] => .error (.missingOperand operator.symbol)
  | first :: others => do
    let value ← operator.apply first.value (others.map Result.value)
    return ⟨joinTexts operator (terms.map Result.expression), ← settle value⟩

mutual

/-- A group: an operator and its operands. -/
def group {σ : Type} (source : Option (Source σ)) : List Node → Eval σ Result
  | .text written :: arguments =>
    match Operator.ofText? written with
    | none => throw (.unknownOperator written)
    | some operator => do
      -- Dice among the operands are rolled even if the operator then fails.
      let terms ← operands source arguments
      liftExcept (combine operator terms)
  | _ => throw .formulaShape

def operands {σ : Type} (source : Option (Source σ)) : List Node → Eval σ (List Result)
  | [] => return []
  | argument :: arguments => do
    let term ← operand source argument
    let terms ← operands source arguments
    return term :: terms

def operand {σ : Type} (source : Option (Source σ)) : Node → Eval σ Result
  | .text written =>
    match readNumber? written with
    | some value => return ⟨written, value⟩
    | none => throw (.notANumber written)
  | .group items => do
    let inner ← group source items
    return ⟨"(" ++ inner.expression ++ ")", inner.value⟩
  | .element name attributes children =>
    match Tag.ofName? name with
    | some .dice => do
      let roll ← Dice.resolve source attributes children
      return ⟨roll.display, Float.ofInt roll.result.toInt⟩
    | _ => throw (.unsupportedTag name)

end

end Prefix

/-- The value of a formula with these attributes: one group, operator first. -/
def Prefix.evaluate {σ : Type} (source : Option (Source σ)) : List Node → Eval σ Result
  | [.group items] => Prefix.group source items
  | _ => throw .formulaShape

end DiceMarkup.Formula
