import ComplexCalculator.Number.Basic
import ComplexCalculator.Decimal.Significant

/-!
# Number texts

A number is written as `3`, `2i`, `i` or `1 + 2i`; a zero part is left out, and so is the
coefficient one of the imaginary part. With a precision each part has that many significant digits.
Without one a whole part is a plain run of digits, an infinite part the first power of ten that
overflows, and any other part the shortest text that reads back.
-/
namespace ComplexCalculator.Number
open Binary64

/-- The first power of ten above every finite number. -/
def overflowDigits : List Char := '1' :: List.replicate 309 '0'

def exactPart (x : Float) : String :=
  match magnitude x with
  | .infinite => Decimal.signed x overflowDigits
  | m =>
    match natural? m with
    | some n => if isNegative x && n != 0 then "-" ++ n.repr else n.repr
    | none => Decimal.text x

def part (precision : Option Nat) (x : Float) : String :=
  match precision with
  | some p => Decimal.textTo p x
  | none => exactPart x

def text (precision : Option Nat) (z : Number) : String :=
  if z.isNaN then "nan"
  else if z.im == 0 then part precision z.re
  else
    (if z.re != 0 then part precision z.re ++ " + " else "") ++
      (if z.im != 1 then part precision z.im else "") ++ "i"

end ComplexCalculator.Number
