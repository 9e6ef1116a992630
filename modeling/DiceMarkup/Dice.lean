/-
  DiceMarkup.Dice

  Dice: two bounds, and a result once the dice has been rolled. A dice that
  holds its result is read and never rolled again; a fresh one asks the
  source once, and the answer is brought into the bounds.
-/
import DiceMarkup.EvalError
import DiceMarkup.Node.Writer
import DiceMarkup.Rolling.Source

namespace DiceMarkup

open Rolling (Source)

/-- An evaluation that may ask a source with states in `σ` for dice values. An error does not undo
    the rolls made before it. -/
abbrev Eval (σ : Type) := ExceptT EvalError (StateM σ)

/-- A dice that has been rolled. -/
structure Roll where
  min : Int64
  max : Int64
  result : Int64
deriving DecidableEq

namespace Roll

/-- The form that a dice takes in the text of a formula. -/
def display (roll : Roll) : String :=
  "[" ++ Numeral.writeInt64 roll.min ++ "~" ++ Numeral.writeInt64 roll.max ++ "]" ++
    Numeral.writeInt64 roll.result

end Roll

namespace Dice

/-- What a well-formed dice holds. -/
inductive State where
  /-- Bounds, and no result yet. -/
  | fresh (min max : Int64)
  /-- Bounds and a result within them. -/
  | stored (roll : Roll)
deriving DecidableEq

/-- The whole number that an attribute states. -/
def bound : Node → Except EvalError Int64
  | .text value =>
    match Numeral.readInt64? value with
    | some n => .ok n
    | none => .error (.diceBound value)
  | node => .error (.diceBound node.toText)

/-- The two bounds that the attributes state, the lower one first. -/
def bounds : List Node → Except EvalError (Int64 × Int64)
  | [lower, upper] => do
    let min ← bound lower
    let max ← bound upper
    if max < min then .error (.diceInverted min max)
    else .ok (min, max)
  | attributes => .error (.diceArity attributes.length)

/-- What the attributes and the children of a dice make of it. -/
def classify (attributes children : List Node) : Except EvalError State := do
  let (min, max) ← bounds attributes
  match children with
  | [] => .ok (.fresh min max)
  | [.text value] =>
    match Numeral.readInt64? value with
    | none => .error .storedMalformed
    | some result =>
      if result < min ∨ max < result then .error (.storedOutOfRange min max result)
      else .ok (.stored ⟨min, max, result⟩)
  | _ => .error .storedMalformed

/-- The number of the bounds that is nearest to a value. -/
def clamp (min max value : Int64) : Int64 :=
  if value < min then min else if max < value then max else value

/-- Rolls a dice with these bounds: one question to the source, whose answer is brought into the
    bounds. -/
def roll {σ : Type} (source : Source σ) (min max : Int64) : StateM σ Roll := do
  let returned ← modifyGet fun s => source.roll s min max
  return ⟨min, max, clamp min max returned⟩

/-- The result of a dice, stored or rolled now. -/
def resolve {σ : Type} (source : Option (Source σ)) (attributes children : List Node) :
    Eval σ Roll :=
  match classify attributes children with
  | .error error => throw error
  | .ok (.stored found) => return found
  | .ok (.fresh min max) =>
    match source with
    | none => throw .noRandomSource
    | some source => liftM (roll source min max)

/-! ## Bounds -/

theorem clamp_of_mem {min max value : Int64} (lower : min ≤ value) (upper : value ≤ max) :
    clamp min max value = value := by
  rw [Int64.le_iff_toInt_le] at lower upper
  simp only [clamp, Int64.lt_iff_toInt_lt]
  rw [if_neg (by omega), if_neg (by omega)]

theorem le_clamp {min max : Int64} (h : min ≤ max) (value : Int64) :
    min ≤ clamp min max value := by
  rw [Int64.le_iff_toInt_le] at *
  unfold clamp
  simp only [Int64.lt_iff_toInt_lt]
  split
  · omega
  · split <;> omega

theorem clamp_le {min max : Int64} (h : min ≤ max) (value : Int64) :
    clamp min max value ≤ max := by
  rw [Int64.le_iff_toInt_le] at *
  unfold clamp
  simp only [Int64.lt_iff_toInt_lt]
  split
  · omega
  · split <;> omega

end Dice

end DiceMarkup
