/-
  DiceMarkup.Decimal.Shortest

  The decimal number with the fewest digits that still identifies a
  floating-point number. A decimal number identifies the float that it is
  nearest to, so those that identify one float fill an interval around it,
  from half-way to the float below up to half-way to the float above. The
  search goes from coarse to fine decimal grids and tries, on each, the two
  neighbours of the float.
-/
import DiceMarkup.Binary

namespace DiceMarkup.Decimal

/-- Which of two equally near candidates is taken. -/
inductive Tie where
  | toEven
  | up
deriving DecidableEq

/-- The number `digits * 10 ^ exponent`. -/
structure Shortest where
  digits : Nat
  exponent : Int
deriving DecidableEq

/-- The decimal numbers that identify one float, and the float itself, all counted in quarters of
    the unit of its significand. -/
structure Interval where
  /-- The exponent of a quarter of the unit. -/
  exponent : Int
  low : Nat
  value : Nat
  high : Nat
  /-- The ends belong to the interval. -/
  closed : Bool
deriving DecidableEq

/-- A unit of the decimal place with so many zeros behind it. -/
def powerOfTen (zeros : Nat) : Nat := Nat.pow 10 zeros

namespace Interval

/-- A float has the one below at half the distance if its significand is the least of its exponent.
    On the way half between two floats the even significand wins. -/
def around (x : Binary) : Interval where
  exponent := x.exponent - 2
  low :=
    if x.significand = Binary.hiddenBit ∧ Binary.leastExponent < x.exponent then
      4 * x.significand - 1
    else 4 * x.significand - 2
  value := 4 * x.significand
  high := 4 * x.significand + 2
  closed := x.significand % 2 = 0

/-- On the grid of the multiples of `10 ^ exponent`: what one step of the grid and one quarter of
    the interval are worth in a common unit. -/
def scale (i : Interval) (exponent : Int) : Nat × Nat :=
  (powerOfTen exponent.toNat <<< (-i.exponent).toNat,
    powerOfTen (-exponent).toNat <<< i.exponent.toNat)

/-- The number of steps of a grid lies in the interval. -/
def holds (i : Interval) (exponent : Int) (steps : Nat) : Bool :=
  let (step, quarter) := i.scale exponent
  let place := steps * step
  if i.closed then i.low * quarter ≤ place && place ≤ i.high * quarter
  else i.low * quarter < place && place < i.high * quarter

/-- The nearer to the float of its two neighbours on a grid, as far as they lie in the interval. -/
def onGrid? (tie : Tie) (i : Interval) (exponent : Int) : Option Nat :=
  let (step, quarter) := i.scale exponent
  let place := i.value * quarter
  let below := place / step
  let above := below + 1
  match i.holds exponent below, i.holds exponent above with
  | false, false => none
  | true, false => some below
  | false, true => some above
  | true, true =>
    -- Both neighbours identify the float, so the place is compared with their midpoint.
    match compare (2 * place) ((below + above) * step) with
    | .lt => some below
    | .gt => some above
    | .eq => if tie = .toEven ∧ below % 2 = 0 then some below else some above

end Interval

/-- The number of decimal digits of a number that is not zero. -/
def digitCount (n : Nat) : Nat :=
  (Nat.toDigits 10 n).length

/-- The least power of ten above a number that is not zero. -/
def leadingExponent (x : Binary) : Int :=
  let numerator := x.significand <<< x.exponent.toNat
  let denominator := 1 <<< (-x.exponent).toNat
  if denominator ≤ numerator then digitCount (numerator / denominator)
  -- Below one: the zeros after the point are those of the whole part of the inverse.
  else 1 - (digitCount ((denominator - 1) / numerator) : Int)

/-- The number without the zeros at its end. -/
def dropZeros (digits : Nat) (exponent : Int) : Shortest :=
  if digits ≠ 0 ∧ digits % 10 = 0 then dropZeros (digits / 10) (exponent + 1)
  else ⟨digits, exponent⟩
termination_by digits
decreasing_by omega

/-- The number itself, with all its digits. -/
def exactly (x : Binary) : Shortest :=
  dropZeros ((x.significand <<< x.exponent.toNat) * Nat.pow 5 (-x.exponent).toNat)
    (min x.exponent 0)

/-- The shortest decimal number that identifies a float; of several the nearest. Seventeen digits
    are enough for any float. -/
def shortest (tie : Tie) (x : Binary) : Shortest :=
  if x.significand = 0 then ⟨0, 0⟩
  else
    let i := Interval.around x
    let leading := leadingExponent x
    -- The grid of `n + 1` digits is the coarsest one not tried before.
    let found := (List.range 17).findSome? fun n =>
      let exponent := leading - (n + 1 : Nat)
      (i.onGrid? tie exponent).map fun steps => dropZeros steps exponent
    found.getD (exactly x)

end DiceMarkup.Decimal
