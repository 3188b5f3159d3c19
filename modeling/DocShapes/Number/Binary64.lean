/-! # Finite binary64 numbers

A number is a sign, a mantissa and a power of two, all exact, so that every operation is plain
arithmetic on naturals: form the exact quotient, then round it to the nearest number that has a
binary64 form, a tie going to the even mantissa. `roundQuotient_le` and `le_roundQuotient` bound
the rounding by half a unit.
-/

namespace DocShapes

/-- The number `± mantissa · 2 ^ exponent`, with the mantissa below `2 ^ 53`. -/
structure Binary64 where
  negative : Bool
  mantissa : Nat
  exponent : Int
  deriving Repr, DecidableEq, Inhabited

namespace Binary64

def twoTo (exponent : Nat) : Nat := Nat.pow 2 exponent

/-! ## Rounding a quotient -/

/-- The natural number nearest to `num / den`; of two equally near ones the even one. -/
def roundQuotient (num den : Nat) : Nat :=
  let floor := num / den
  let twice := 2 * (num % den)
  if twice < den || (twice == den && floor % 2 == 0) then floor else floor + 1

theorem roundQuotient_le (num den : Nat) (positive : 0 < den) :
    2 * den * roundQuotient num den ≤ 2 * num + den := by
  have split := Nat.div_add_mod num den
  have small := Nat.mod_lt num positive
  have flat : 2 * den * (num / den) = 2 * (den * (num / den)) := Nat.mul_assoc ..
  simp only [roundQuotient]
  split
  · rw [flat]; omega
  · rename_i up
    simp only [Bool.or_eq_true, decide_eq_true_eq, Bool.and_eq_true, beq_iff_eq, not_or] at up
    rw [Nat.mul_add, flat]
    omega

theorem le_roundQuotient (num den : Nat) (positive : 0 < den) :
    2 * num ≤ 2 * den * roundQuotient num den + den := by
  have split := Nat.div_add_mod num den
  have small := Nat.mod_lt num positive
  have flat : 2 * den * (num / den) = 2 * (den * (num / den)) := Nat.mul_assoc ..
  simp only [roundQuotient]
  split
  · rename_i down
    simp only [Bool.or_eq_true, decide_eq_true_eq, Bool.and_eq_true, beq_iff_eq] at down
    rw [flat]; omega
  · rw [Nat.mul_add, flat]
    omega

/-- The quotient `num / den / 2 ^ exponent` as a numerator and a denominator. -/
def scaled (num den : Nat) (exponent : Int) : Nat × Nat :=
  if exponent < 0 then (num * twoTo (-exponent).toNat, den) else (num, den * twoTo exponent.toNat)

/-! ## Numbers of a quotient -/

def leastExponent : Int := -1074

def greatestExponent : Int := 971

def zero (negative : Bool) : Binary64 := ⟨negative, 0, leastExponent⟩

/-- The number nearest to `± num / den`; nothing when that is beyond the greatest one. -/
def ofRatio (negative : Bool) (num den : Nat) : Option Binary64 :=
  if num = 0 then some (zero negative)
  else
    let estimate : Int := (num.log2 : Int) - den.log2 - 53
    let (low, high) := scaled num den estimate
    let exponent := max leastExponent (if low / high < twoTo 53 then estimate else estimate + 1)
    let (low, high) := scaled num den exponent
    let mantissa := roundQuotient low high
    let (mantissa, exponent) :=
      if mantissa = twoTo 53 then (twoTo 52, exponent + 1) else (mantissa, exponent)
    if exponent > greatestExponent then none else some ⟨negative, mantissa, exponent⟩

def isZero (x : Binary64) : Bool := x.mantissa == 0

def negate (x : Binary64) : Binary64 := { x with negative := !x.negative }

/-- The absolute value as a numerator and a denominator. -/
def ratio (x : Binary64) : Nat × Nat :=
  if x.exponent < 0 then (x.mantissa, twoTo (-x.exponent).toNat)
  else (x.mantissa * twoTo x.exponent.toNat, 1)

/-- The rounded product of the absolute values. -/
def times (left right : Binary64) : Option Binary64 :=
  ofRatio false (left.ratio.1 * right.ratio.1) (left.ratio.2 * right.ratio.2)

/-- The rounded quotient of the absolute values. -/
def dividedBy (left right : Binary64) : Option Binary64 :=
  ofRatio false (left.ratio.1 * right.ratio.2) (left.ratio.2 * right.ratio.1)

/-- Equality of values: the two zeros are equal. -/
def same (left right : Binary64) : Bool := left = right || (left.isZero && right.isZero)

end Binary64

end DocShapes
