import ComplexCalculator.Decimal.Shortest

/-!
# Decimal text with a number of significant digits

The exact value is rounded to the given number of significant digits, ties to even. Trailing zeros
are not written. The exponent form begins where the digits would not reach the point.
-/
namespace ComplexCalculator.Decimal
open Binary64

def rounded (digits n d : Nat) : Decimal :=
  let k := leadingExponent n d - (digits - 1 : Nat)
  let t := power10 k
  ofScaled (roundDiv (n * t.2) (d * t.1)) k

def significant (digits m : Nat) (e : Int) : Decimal :=
  let q := ratio m e
  if m = 0 then ofScaled 0 0 else rounded digits q.1 q.2

def significantLayout (digits : Nat) : Layout :=
  { least := -4, limit := digits, pointed := false }

/-- At least one digit is written, also when none is asked for. -/
def textTo (precision : Nat) (x : Float) : String :=
  let digits := max precision 1
  match magnitude x with
  | .nan => "nan"
  | .infinite => signed x ['i', 'n', 'f']
  | .finite m e => signed x (write (significantLayout digits) (significant digits m e))

end ComplexCalculator.Decimal
