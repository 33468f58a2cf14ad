import ComplexCalculator.Number.Elementary

/-!
# Powers

A base that is the real number `e` goes through the exponential. A whole exponent up to a hundred is
a product of repeated squares, any other exponent goes through polar coordinates. An infinite
result is a failure.
-/
namespace ComplexCalculator.Number
open Binary64

def squares (n : Nat) (square result : Number) : Number :=
  if n = 0 then result
  else squares (n / 2) (square * square) (if n % 2 = 1 then result * square else result)

def wholePower? (a : Number) : Int → Option Number
  | .ofNat n => if n = 0 then some one else some (squares n a one)
  | .negSucc n => quotient? one (squares (n + 1) a one)

def polarPower? (a b : Number) : Option Number :=
  if b.equals zero then some one
  else if a.equals zero then if b.im != 0 || b.re < 0 then none else some zero
  else
    let modulus := hypot a.re a.im
    let size := Float.pow modulus b.re
    let turn := a.angle
    let phase := turn * b.re
    if b.im != 0 then
      let size := size / (turn * b.im).exp
      let phase := phase + b.im * modulus.log
      some ⟨size * phase.cos, size * phase.sin⟩
    else some ⟨size * phase.cos, size * phase.sin⟩

def wholeExponent? (b : Number) : Option Int :=
  if b.im == 0 then (integer? b.re).filter (·.natAbs ≤ 100) else none

def power? (a b : Number) : Option Number :=
  (match wholeExponent? b with
    | some n => wholePower? a n
    | none => polarPower? a b).bind unlessInfinite

def power (a b : Number) : Number :=
  if a.isReal && a.re == euler then orNaN (exp? b) else orNaN (power? a b)

end ComplexCalculator.Number
