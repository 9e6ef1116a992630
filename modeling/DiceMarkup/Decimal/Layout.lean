/-
  DiceMarkup.Decimal.Layout

  How a floating-point number is written, once its digits are known. The
  decisions of one format are one `Layout`.
-/
import DiceMarkup.Decimal.Shortest

namespace DiceMarkup.Decimal

/-- The decisions of a number format. -/
structure Layout where
  /-- Whether a number whose leading digit counts `10 ^ e` is written without an exponent. -/
  positional : (e : Int) → Bool
  /-- What follows the digits of a whole number. -/
  wholeMark : String
  /-- Which of two equally near digit sequences is taken. -/
  tie : Tie

namespace Layout

/-- The digits with the decimal point in its place and no exponent. -/
def plain (layout : Layout) (number : Shortest) : List Char :=
  let digits := Nat.toDigits 10 number.digits
  let whole := digits.length + number.exponent
  if 0 ≤ number.exponent then
    digits ++ List.replicate number.exponent.toNat '0' ++ layout.wholeMark.toList
  else if 0 < whole then
    digits.take whole.toNat ++ '.' :: digits.drop whole.toNat
  else '0' :: '.' :: (List.replicate (-whole).toNat '0' ++ digits)

/-- One digit, the others after the point, and the exponent with its sign. -/
def scientific (number : Shortest) : List Char :=
  let digits := Nat.toDigits 10 number.digits
  let leading := digits.length - 1 + number.exponent
  let others := digits.drop 1
  digits.take 1 ++ (if others.isEmpty then [] else '.' :: others) ++
    'e' :: (if leading < 0 then '-' else '+') :: Nat.toDigits 10 leading.natAbs

/-- The text of a number; infinities and what is not a number have texts of their own. -/
def write (layout : Layout) (x : Float) : String :=
  if x.isNaN then "NaN"
  else
    let sign := if Binary.isNegative x then "-" else ""
    if x.isInf then sign ++ "inf"
    else
      let number := shortest layout.tie (Binary.ofFloat x)
      let leading := (digitCount number.digits : Int) - 1 + number.exponent
      sign ++ String.ofList
        (if layout.positional leading then layout.plain number else scientific number)

end Layout

end DiceMarkup.Decimal
