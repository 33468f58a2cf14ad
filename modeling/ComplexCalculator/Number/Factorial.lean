import ComplexCalculator.Number.Basic
import ComplexCalculator.Binary64.Nearest

/-!
# Factorials

The product 1 * 2 * ... * n, rounded after each factor, until it overflows. The strict policy
defines it for natural numbers only; the staircase policy takes the floor of the real part, so that
everything below one has the empty product. Neither defines it for an infinite or NaN real part. The
factors are counted before they are multiplied; a loop that counts up to the real part while it
multiplies comes to the same product.
-/
namespace ComplexCalculator
open Binary64

inductive FactorialPolicy
  | strict
  | staircase
  deriving DecidableEq

namespace Number

def product : (count i : Nat) → (y : Float) → Float
  | 0, _, y => y
  | count + 1, i, y =>
    let next := y * Binary64.ofNat i
    if next.isInf then next else product count (i + 1) next

def factors? (policy : FactorialPolicy) (n : Number) : Option Nat :=
  match policy, magnitude n.re with
  | .strict, m => if n.im == 0 && !(n.re < 0) then natural? m else none
  | .staircase, .finite m e => some (if n.re < 0 then 0 else floor m e)
  | .staircase, _ => none

/-- The loop with a binary64 counter: it goes on while the counter is not above the bound, and stops
early at an overflow. It answers nothing when it would go on after so many rounds. -/
def loop? (bound : Float) : (rounds : Nat) → (counter y : Float) → Option Float
  | 0, counter, y => if counter ≤ bound then none else some y
  | rounds + 1, counter, y =>
    if counter ≤ bound then
      let next := y * counter
      if next.isInf then some next else loop? bound rounds (counter + 1) next
    else some y

def factorial (policy : FactorialPolicy) (n : Number) : Number :=
  match factors? policy n with
  | some count => ofReal (product count 1 1)
  | none => nan

end Number
end ComplexCalculator
