/-!
# Exact values of binary64 numbers

A number is NaN, an infinity, or a signed multiple of a power of two. Everything that asks about the
value of a number (is it integral, what is its floor, which digits does it have) goes through this
decoding and stays in the integers.
-/
namespace ComplexCalculator.Binary64

def nan : Float := 0 / 0
def infinity : Float := 1 / 0

inductive Magnitude
  | nan
  | infinite
  | finite (mantissa : Nat) (exponent : Int)
  deriving DecidableEq

def isNegative (x : Float) : Bool :=
  match x.toModel.unpack with
  | .notANumber => false
  | .infinity s | .zero s | .finite s _ _ _ => s == .negative

def magnitude (x : Float) : Magnitude :=
  match x.toModel.unpack with
  | .notANumber => .nan
  | .infinity _ => .infinite
  | .zero _ => .finite 0 (-1074)
  | .finite _ m e _ => .finite m e

def copySign (size sign : Float) : Float :=
  if isNegative sign then -size.abs else size.abs

def ratio (m : Nat) : Int → Nat × Nat
  | .ofNat k => (m * Nat.pow 2 k, 1)
  | .negSucc k => (m, Nat.pow 2 (k + 1))

theorem ratio_den_pos (m : Nat) (e : Int) : 0 < (ratio m e).2 := by
  cases e with
  | ofNat k => exact Nat.one_pos
  | negSucc k => exact Nat.pow_pos (by decide)

def natural? : Magnitude → Option Nat
  | .finite m e =>
    let q := ratio m e
    if q.1 % q.2 = 0 then some (q.1 / q.2) else none
  | _ => none

def integer? (x : Float) : Option Int :=
  (natural? (magnitude x)).map fun n => if isNegative x then -n else n

def floor (m : Nat) (e : Int) : Nat :=
  (ratio m e).1 / (ratio m e).2

end ComplexCalculator.Binary64
