/-
  DiceMarkup.Binary

  The exact value of a floating-point number of 64 bits: a sign, and a
  natural number times a power of two. The remainder of a division is
  computed on these values, where it needs no rounding.
-/

namespace DiceMarkup

/-- The magnitude `significand * 2 ^ exponent` of a finite number. -/
structure Binary where
  significand : Nat
  exponent : Int
deriving DecidableEq

namespace Binary

/-- The exponent of the finest numbers. -/
def leastExponent : Int := -1074

/-- The 53rd and highest bit of a significand of full length. The bits of a number leave it out, and
    hold the other 52. -/
def hiddenBit : Nat := 0x10000000000000

/-- The bit above exponent and significand. -/
def signBit : Nat := 0x8000000000000000

/-- The bits of a magnitude hold the exponent in 11 bits above those of the significand. A
    significand without its highest bit has the least exponent. -/
def ofBits (bits : UInt64) : Binary :=
  let biased := (bits.toNat / hiddenBit) % 0x800
  let fraction := bits.toNat % hiddenBit
  if biased = 0 then ⟨fraction, leastExponent⟩
  else ⟨hiddenBit + fraction, leastExponent + (biased - 1 : Nat)⟩

/-- The magnitude of a finite number. -/
def ofFloat (x : Float) : Binary := ofBits x.toBits

/-- The bits of a magnitude that fits them, a negative one if asked for. The leading bit of the
    significand is brought to the 53rd place, or as near to it as the finest exponent allows. -/
def toBits (negative : Bool) (x : Binary) : UInt64 :=
  -- A significand of 53 bits at the most loses nothing by a shift to the left.
  let shift : Nat := min (52 - x.significand.log2) (x.exponent - leastExponent).toNat
  let significand := x.significand <<< shift
  let biased := (x.exponent - shift - leastExponent).toNat
  let magnitude :=
    if significand < hiddenBit then significand
    else significand - hiddenBit + (biased + 1) * hiddenBit
  UInt64.ofNat (magnitude + if negative then signBit else 0)

/-- The significand at a smaller exponent. -/
def significandAt (exponent : Int) (x : Binary) : Nat :=
  x.significand <<< (x.exponent - exponent).toNat

/-- What is left of `x` after as many whole `y` as fit in it. -/
def remainder (x y : Binary) : Binary :=
  -- At the smaller exponent both are whole numbers of one unit.
  let exponent := min x.exponent y.exponent
  ⟨x.significandAt exponent % y.significandAt exponent, exponent⟩

/-! ## Floating-point numbers -/

/-- The sign bit of a floating-point number is set, as it is in a negative zero. -/
def isNegative (x : Float) : Bool :=
  signBit ≤ x.toBits.toNat

/-- The remainder of a division whose quotient is brought to a whole number toward zero. It has the
    sign of the dividend, and it is exact. -/
def floatRemainder (x y : Float) : Float :=
  -- Zero by zero is not a number.
  if !x.isFinite || y.isNaN || y == 0 then 0 / 0
  else if !y.isFinite then x
  else Float.ofBits (((ofFloat x).remainder (ofFloat y)).toBits (isNegative x))

end Binary

end DiceMarkup
