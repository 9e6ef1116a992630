/-
  DiceMarkup.Formula.Infix

  Infix formulas: `+` and `-` between terms, `*`, `/` and `%` between
  factors, both from left to right, and before a factor any number of signs.
  Parentheses and signs may stand inside one another to a limit; division
  and remainder by zero are errors.

  A reader of one part of a formula takes it from the front of the words and
  returns its value with the words that are left, which are fewer. Factors of
  one level are built from those of the level below, so the limit on nesting
  is the number on which `factor` recurses.
-/
import DiceMarkup.Dice
import DiceMarkup.Formula.Token
import DiceMarkup.Node.Reader

namespace DiceMarkup.Formula.Infix

open Rolling (Source)

/-- How many parentheses and signs may stand inside one another. -/
def nestingLimit : Nat := 64

namespace Multiplicative

/-- The operator applied from left to right. -/
def apply (operator : Multiplicative) (left right : Float) : Except EvalError Float :=
  match operator with
  | times => .ok (left * right)
  | divide => if right == 0 then .error .divisionByZero else .ok (left / right)
  | modulo => if right == 0 then .error .divisionByZero else .ok (Binary.floatRemainder left right)

end Multiplicative

namespace Additive

def apply (operator : Additive) (left right : Float) : Except EvalError Float :=
  match operator with
  | plus => .ok (left + right)
  | minus => .ok (left - right)

/-- The operator as a sign. -/
def sign (operator : Additive) (value : Float) : Float :=
  match operator with
  | plus => value
  | minus => value.neg

end Additive

/-! ## Reading from the front of the words -/

/-- A value, and the words after it, fewer than `bound`. -/
structure Part (bound : Nat) where
  value : Float
  rest : List Token
  shorter : rest.length < bound

/-- Reads a part of a formula from the front of the words. -/
abbrev PartReader := (ts : List Token) → Except EvalError (Part ts.length)

/-- Goes on, from a value on the left, with operators of one kind and their operands. -/
def chain {Op : Type} (operator? : Token → Option Op)
    (apply : Op → Float → Float → Except EvalError Float) (operand : PartReader) (bound : Nat)
    (value : Float) (ts : List Token) (shorter : ts.length < bound) :
    Except EvalError (Part bound) :=
  match ts with
  | [] => .ok ⟨value, [], shorter⟩
  | token :: rest =>
    match operator? token with
    | none => .ok ⟨value, token :: rest, shorter⟩
    | some operator =>
      match operand rest with
      | .error error => .error error
      | .ok right =>
        match apply operator value right.value with
        | .error error => .error error
        | .ok value =>
          have := right.shorter
          chain operator? apply operand bound value right.rest (by simp at shorter; omega)
termination_by ts.length
decreasing_by simp; omega

/-- Operands with operators of one kind between them. -/
def series {Op : Type} (operator? : Token → Option Op)
    (apply : Op → Float → Float → Except EvalError Float) (operand : PartReader) : PartReader :=
  fun ts => do
    let first ← operand ts
    chain operator? apply operand ts.length first.value first.rest first.shorter

def additive? : Token → Option Additive
  | .additive operator => some operator
  | _ => none

def multiplicative? : Token → Option Multiplicative
  | .multiplicative operator => some operator
  | _ => none

/-- A sum of products of such factors. -/
def sum (factor : PartReader) : PartReader :=
  series additive? Additive.apply (series multiplicative? Multiplicative.apply factor)

/-- A number, a formula in parentheses, or a factor with a sign, with so many levels of nesting
    still free. -/
def factor (levels : Nat) : PartReader
  | [] => .error .unexpectedEnd
  | .number value :: rest => .ok ⟨value, rest, by simp⟩
  -- A sign counts as a level, so a long run of signs is too deep.
  | .additive operator :: rest =>
    match levels with
    | 0 => .error .tooDeep
    | levels + 1 => do
      let operand ← factor levels rest
      have := operand.shorter
      return ⟨operator.sign operand.value, operand.rest, by simp; omega⟩
  | .opening :: rest =>
    match levels with
    | 0 => .error .tooDeep
    | levels + 1 => do
      let inner ← sum (factor levels) rest
      have := inner.shorter
      match h : inner.rest with
      | .closing :: rest' => return ⟨inner.value, rest', by rw [h] at this; simp at this ⊢; omega⟩
      | token :: _ => throw (.unexpectedToken token.describe)
      | [] => throw .unexpectedEnd
  | token :: _ => .error (.unexpectedToken token.describe)

/-- The value of a whole formula. -/
def value (ts : List Token) : Except EvalError Float := do
  let read ← sum (factor nestingLimit) ts
  match read.rest with
  | [] => return read.value
  | token :: _ => throw (.unexpectedToken token.describe)

/-! ## Formulas with dice -/

/-- The words of a formula and the text that is shown for it, with each dice worked out in its
    turn. -/
def gather {σ : Type} (source : Option (Source σ)) : List Node → Eval σ (List Token × String)
  | [] => return ([], "")
  | .text written :: nodes => do
    let words ← liftExcept (tokenize written)
    let (others, shown) ← gather source nodes
    return (words ++ others, written ++ shown)
  | .element name attributes children :: nodes =>
    match Tag.ofName? name with
    | some .dice => do
      -- The dice is rolled before the text after it is read.
      let roll ← Dice.resolve source attributes children
      let (others, shown) ← gather source nodes
      return (.number (Float.ofInt roll.result.toInt) :: others, roll.display ++ shown)
    | _ => throw (.unsupportedTag name)
  | .group _ :: _ => throw .infixShape

/-- The value of an infix formula with these attributes: one text, which is read as markup to find
    its dice. -/
def evaluate {σ : Type} (source : Option (Source σ)) : List Node → Eval σ Result
  | [.text raw] => do
    let (words, shown) ← gather source (Document.parse raw)
    return ⟨shown, ← liftExcept (value words >>= settle)⟩
  | _ => throw .infixShape

end DiceMarkup.Formula.Infix
