import DocShapes.Number.Binary64

/-! # Decimal text of numbers

A number is written with the fewest digits that read back as it: among the decimals of that many
digits the one nearest to the number, a tie going to the even digit. Numbers from `10 ^ -5` up to
`10 ^ 16` are written positionally and keep a fraction; all others have an exponent with a sign.
-/

namespace DocShapes.Decimal

/-- The digits of a natural number, most significant first. -/
def digits (n : Nat) : List Char := Nat.toDigits 10 n

/-- The decimals that read back as a positive number, all in quarters of its last place. -/
structure Interval where
  value : Nat
  low : Nat
  high : Nat
  closed : Bool

def Interval.of (x : Binary64) : Interval where
  value := 4 * x.mantissa
  low := if x.mantissa = Binary64.twoTo 52 && x.exponent > Binary64.leastExponent then 4 * x.mantissa - 1
    else 4 * x.mantissa - 2
  high := 4 * x.mantissa + 2
  closed := x.mantissa % 2 == 0

/-- A decimal `count · 10 ^ power` in quarters of the last place of a number with the given
exponent, over a denominator that also brings the interval to whole numbers. -/
def quarters (exponent : Int) (power : Int) : Nat × Nat :=
  let binary := exponent - 2
  let (ten, unten) :=
    if power < 0 then (1, Nat.pow 10 (-power).toNat) else (Nat.pow 10 power.toNat, 1)
  if binary < 0 then (ten * Binary64.twoTo (-binary).toNat, unten)
  else (ten, unten * Binary64.twoTo binary.toNat)

/-- The nearest of the two neighbours of the number on the grid of `10 ^ power` that read back as
it, if one does. -/
def neighbour? (x : Binary64) (power : Int) : Option Nat :=
  let range := Interval.of x
  let (unit, den) := quarters x.exponent power
  let inside (count : Nat) : Bool :=
    let point := count * unit
    let low := range.low * den
    let high := range.high * den
    if range.closed then low ≤ point && point ≤ high else low < point && point < high
  let below := range.value * den / unit
  let value := range.value * den
  let toBelow := value - below * unit
  let toAbove := (below + 1) * unit - value
  if inside below && inside (below + 1) then
    if toBelow < toAbove || (toBelow == toAbove && below % 2 == 0) then some below
    else some (below + 1)
  else if inside below then some below
  else if inside (below + 1) then some (below + 1)
  else none

/-- The power of ten of the leading digit of a positive number. -/
def leadingPower (x : Binary64) : Int :=
  let (num, den) := x.ratio
  (digits (num * Nat.pow 10 330 / den)).length - 331

/-- The first grid, from one digit on, that holds a decimal which reads back. -/
def shortestFrom (x : Binary64) (power : Int) : Nat → Nat × Int
  | 0 => (0, power)
  | more + 1 =>
      match neighbour? x power with
      | some count => (count, power)
      | none => shortestFrom x (power - 1) more

/-- Zeros at the end of a digit run move into the power of ten. -/
def dropZeros : Nat → Nat → Int → Nat × Int
  | 0, count, power => (count, power)
  | more + 1, count, power =>
      if count % 10 = 0 then dropZeros more (count / 10) (power + 1) else (count, power)

/-- Fewest digits, as a whole number without a zero at its end, and its power of ten. -/
def shortest (x : Binary64) : Nat × Int :=
  let (count, power) := shortestFrom x (leadingPower x) 17
  dropZeros 17 count power

def zeros (n : Nat) : List Char := List.replicate n '0'

/-- Digits and the power of ten of the leading one, laid out. -/
def layout (run : List Char) (leading : Int) : List Char :=
  if -5 ≤ leading && leading < 16 then
    if leading < 0 then '0' :: '.' :: zeros (-leading - 1).toNat ++ run
    else
      let before := leading.toNat + 1
      if run.length ≤ before then run ++ zeros (before - run.length) ++ ['.', '0']
      else run.take before ++ '.' :: run.drop before
  else
    let point := if run.length = 1 then [] else '.' :: run.drop 1
    let sign := if leading < 0 then '-' else '+'
    run.take 1 ++ point ++ 'e' :: sign :: digits leading.natAbs

/-- The text of a number. -/
def text (x : Binary64) : String :=
  let body :=
    if x.isZero then ['0', '.', '0']
    else
      let (count, power) := shortest x
      let run := digits count
      layout run (power + run.length - 1)
  String.ofList (if x.negative then '-' :: body else body)

end DocShapes.Decimal
