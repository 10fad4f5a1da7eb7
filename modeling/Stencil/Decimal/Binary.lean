/-!
# Binary floating point

A double is kept as its 64 bits. This module reads its parts and widens the 32 bits of a single to
the double of the same value.
-/

namespace Stencil.Decimal

/-- What the bits of a double stand for. -/
inductive Reading where
  | nan
  | infinite (negative : Bool)
  /-- The number `mantissa * 2 ^ exponent`, with its sign. -/
  | finite (negative : Bool) (mantissa : Nat) (exponent : Int)
deriving DecidableEq, Repr

/-- Reads the sign, the 11 bits of the exponent and the 52 bits of the fraction of a double. -/
def Reading.ofBits (bits : UInt64) : Reading :=
  let n := bits.toNat
  let negative := decide (Nat.pow 2 63 ≤ n)
  let exponent := n / Nat.pow 2 52 % 2048
  let fraction := n % Nat.pow 2 52
  if exponent = 2047 then if fraction = 0 then .infinite negative else .nan
  else if exponent = 0 then .finite negative fraction (-1074)
  else .finite negative (Nat.pow 2 52 + fraction) (Int.ofNat exponent - 1075)

/-- The double of the value that the bits of a single stand for. A single has 8 bits of exponent and
23 bits of fraction; a number below its normal range is an ordinary double. -/
def widen (bits : UInt32) : UInt64 :=
  let n := bits.toNat
  let exponent := n / Nat.pow 2 23 % 256
  let fraction := n % Nat.pow 2 23
  let magnitude :=
    if exponent = 255 then 2047 * Nat.pow 2 52 + fraction * Nat.pow 2 29
    else if exponent = 0 then
      if fraction = 0 then 0
      else
        let width := fraction.log2
        (width + 874) * Nat.pow 2 52 + (fraction - Nat.pow 2 width) * Nat.pow 2 (52 - width)
    else (exponent + 896) * Nat.pow 2 52 + fraction * Nat.pow 2 29
  UInt64.ofNat (n / Nat.pow 2 31 * Nat.pow 2 63 + magnitude)

end Stencil.Decimal
