import Stencil.Decimal.Shortest
import Stencil.Text

/-!
# Decimal text

A double is written with the digits of its shortest decimal and never with an exponent. A whole
number has no decimal point. Zero keeps its sign.
-/

namespace Stencil.Decimal

/-- The number `digits * 10 ^ power` in positional notation, without zeros at the end of the
fraction. -/
def positional (digits : Nat) (power : Int) : Text :=
  let all := Nat.toDigits 10 digits
  let point : Int := all.length + power
  let significant := (all.reverse.dropWhile (· == '0')).reverse
  if point ≤ 0 then
    '0' :: '.' :: List.replicate (-point).toNat '0' ++ significant
  else if significant.length ≤ point.toNat then
    significant ++ List.replicate (point.toNat - significant.length) '0'
  else
    significant.take point.toNat ++ '.' :: significant.drop point.toNat

/-- The sign of a negative number. -/
def sign (negative : Bool) : Text := if negative then ['-'] else []

/-- A double in decimal notation. -/
def text (bits : UInt64) : Text :=
  match Reading.ofBits bits with
  | .nan => "NaN".toList
  | .infinite negative => sign negative ++ "inf".toList
  | .finite negative 0 _ => sign negative ++ ['0']
  | .finite negative mantissa exponent =>
    let decimal := shortest mantissa exponent
    sign negative ++ positional decimal.1 decimal.2

end Stencil.Decimal
