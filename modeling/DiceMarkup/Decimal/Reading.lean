/-
  DiceMarkup.Decimal.Reading

  Floating-point numbers read from decimal digits. The float nearest to the
  digits is taken; of two equally near ones that with the even significand,
  and infinity beyond the largest.
-/

namespace DiceMarkup.Decimal

/-- The number with these digits before and after the point. -/
def ofDigits (whole fraction : List Char) : Float :=
  Float.ofScientific (Nat.ofDigitChars 10 (whole ++ fraction) 0) true fraction.length

end DiceMarkup.Decimal
