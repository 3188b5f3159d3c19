import DocShapes.Number.Binary64

/-! # Numbers from decimal text

The digits of a decimal text are gathered into a significand below `2 ^ 64` and a power of ten.
The significand is rounded first and then multiplied or divided by a rounded power of ten, so the
result may differ from the nearest number in its last place.
-/

namespace DocShapes.Decimal

/-- Digits appended to a significand for as long as it stays below `2 ^ 64`, and the others. -/
def absorb : Nat → List Nat → Nat × List Nat
  | significand, [] => (significand, [])
  | significand, digit :: rest =>
      if significand * 10 + digit < Binary64.twoTo 64 then absorb (significand * 10 + digit) rest
      else (significand, digit :: rest)

def powerOfTen (n : Nat) : Option Binary64 := Binary64.ofRatio false (Nat.pow 10 n) 1

/-- The number of a significand and a power of ten. A power beyond `10 ^ 308` is taken in steps
of that size; three of them bring every significand to zero. -/
def scale : Nat → Binary64 → Int → Option Binary64
  | 0, _, _ => none
  | steps + 1, x, power =>
      if power.natAbs ≤ 308 then
        (powerOfTen power.natAbs).bind fun ten => if power < 0 then x.dividedBy ten else x.times ten
      else if x.isZero then some x
      else if power < 0 then
        ((powerOfTen 308).bind x.dividedBy).bind fun smaller => scale steps smaller (power + 308)
      else none

def ofParts (negative : Bool) (significand : Nat) (power : Int) : Option Binary64 :=
  ((Binary64.ofRatio false significand 1).bind fun x => scale 4 x power).map fun x =>
    if negative then x.negate else x

/-- The number written by the digits before and behind the point and an exponent. Digits that the
significand cannot take raise the power of ten when they stand before the point and are dropped
when they stand behind it. Nothing stands for a number that is too large. -/
def read (negative : Bool) (whole fraction : List Nat) (exponent : Int) : Option Binary64 :=
  let (significand, surplus) := absorb 0 whole
  let (significand, dropped) := absorb significand fraction
  let power : Int := surplus.length - (fraction.length - dropped.length)
  if exponent.natAbs < Binary64.twoTo 31 then ofParts negative significand (power + exponent)
  else if significand ≠ 0 && exponent > 0 then none
  else some (Binary64.zero negative)

end DocShapes.Decimal
