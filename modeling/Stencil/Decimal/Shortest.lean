import Stencil.Decimal.Binary

/-!
# Shortest decimals

A finite double other than zero is the nearest one to every real number in an interval around it.
Its shortest decimal has the fewest digits of all decimals in that interval, and of those it is the
nearest to the double. All comparisons are exact, in natural numbers.
-/

namespace Stencil.Decimal

/-- The numbers that round to a double, as fractions with one denominator. -/
structure Interval where
  /-- The double itself. -/
  value : Nat
  low : Nat
  high : Nat
  denominator : Nat
  /-- Whether the two ends round to the double too. -/
  closed : Bool
deriving DecidableEq, Repr

/-- The interval of `mantissa * 2 ^ exponent`. Its ends lie half way to the neighbours; below a
power of two the neighbour is only half as far, unless that power is the least normal double. Ties
round to an even mantissa. -/
def Interval.of (mantissa : Nat) (exponent : Int) : Interval :=
  let below := if mantissa = Nat.pow 2 52 ∧ -1074 < exponent then 1 else 2
  let scale := Nat.pow 2 (exponent - 2).toNat
  { value := 4 * mantissa * scale
    low := (4 * mantissa - below) * scale
    high := (4 * mantissa + 2) * scale
    denominator := Nat.pow 2 (2 - exponent).toNat
    closed := mantissa % 2 = 0 }

/-- Whether `digits * 10 ^ power` lies in the interval. -/
def Interval.holds (i : Interval) (digits : Nat) (power : Int) : Bool :=
  let point := digits * Nat.pow 10 power.toNat * i.denominator
  let unit := Nat.pow 10 (-power).toNat
  if i.closed then i.low * unit ≤ point && point ≤ i.high * unit
  else i.low * unit < point && point < i.high * unit

/-- The greatest multiple of `10 ^ power` that is not above the value, as a count of that unit. -/
def Interval.floor (i : Interval) (power : Int) : Nat :=
  i.value * Nat.pow 10 (-power).toNat / (i.denominator * Nat.pow 10 power.toNat)

/-- Whether the value is at least as near to `(digits + 1) * 10 ^ power` as to
`digits * 10 ^ power`. -/
def Interval.nearerAbove (i : Interval) (digits : Nat) (power : Int) : Bool :=
  (2 * digits + 1) * Nat.pow 10 power.toNat * i.denominator ≤
    2 * i.value * Nat.pow 10 (-power).toNat

/-- A decimal in the interval among the two multiples of `10 ^ power` around the value: the nearer
one, and of two that are equally near the greater. -/
def Interval.pick? (i : Interval) (power : Int) : Option Nat :=
  let digits := i.floor power
  match i.holds digits power, i.holds (digits + 1) power with
  | false, false => none
  | true, false => some digits
  | false, true => some (digits + 1)
  | true, true => some (if i.nearerAbove digits power then digits + 1 else digits)

/-- The number of digits of a positive number before the decimal point; less than one for a number
below a tenth. -/
def Interval.integerDigits (i : Interval) : Int :=
  let quotient : Int := (Nat.toDigits 10 i.value).length - (Nat.toDigits 10 i.denominator).length
  if i.denominator * Nat.pow 10 quotient.toNat ≤ i.value * Nat.pow 10 (-quotient).toNat then
    quotient + 1
  else quotient

/-- The first decimal in the interval with `count` digits or one of the next `tries` counts. -/
def Interval.search (i : Interval) (count : Nat) : (tries : Nat) → Nat × Int
  | 0 => (i.floor (i.integerDigits - count), i.integerDigits - count)
  | tries + 1 =>
    match i.pick? (i.integerDigits - count) with
    | some digits => (digits, i.integerDigits - count)
    | none => i.search (count + 1) tries

/-- The shortest decimal of `mantissa * 2 ^ exponent`, as a number of units and the power of ten
that is the unit. Seventeen digits always suffice. -/
def shortest (mantissa : Nat) (exponent : Int) : Nat × Int :=
  (Interval.of mantissa exponent).search 1 17

end Stencil.Decimal
