/-!
# Layout of decimal numbers

A positive decimal number is a run of significant digits and the place of its point, counted from
the front of the run. It is written positionally when its decimal exponent lies in the layout's
window, and otherwise with one digit before the point and an exponent of a sign and at least two
digits.
-/
namespace ComplexCalculator

structure Decimal where
  digits : List Char
  point : Int
  deriving DecidableEq

namespace Decimal

def dropTrailingZeros (ds : List Char) : List Char :=
  (ds.reverse.dropWhile (· == '0')).reverse

def ofScaled (n : Nat) (k : Int) : Decimal :=
  let ds := Nat.toDigits 10 n
  { digits := ds.head?.toList ++ dropTrailingZeros ds.tail, point := ds.length + k }

def exponent (d : Decimal) : Int := d.point - 1

structure Layout where
  /-- The least exponent that is written positionally. -/
  least : Int
  /-- The first exponent above that is not. -/
  limit : Int
  pointed : Bool
  deriving DecidableEq

def zeros (n : Nat) : List Char := List.replicate n '0'

def positional (pointed : Bool) (d : Decimal) : List Char :=
  if d.point ≤ 0 then '0' :: '.' :: zeros (-d.point).toNat ++ d.digits
  else
    let n := d.point.toNat
    if d.digits.length ≤ n then
      d.digits ++ zeros (n - d.digits.length) ++ if pointed then ['.', '0'] else []
    else d.digits.take n ++ '.' :: d.digits.drop n

def exponentDigits (n : Nat) : List Char :=
  if n < 10 then '0' :: Nat.toDigits 10 n else Nat.toDigits 10 n

def scientific (d : Decimal) : List Char :=
  let sign := if d.exponent < 0 then '-' else '+'
  let tail := match d.digits.tail with
    | [] => []
    | ds => '.' :: ds
  d.digits.head?.toList ++ tail ++ 'e' :: sign :: exponentDigits d.exponent.natAbs

def write (layout : Layout) (d : Decimal) : List Char :=
  if layout.least ≤ d.exponent ∧ d.exponent < layout.limit then positional layout.pointed d
  else scientific d

end Decimal
end ComplexCalculator
