import ComplexCalculator.Binary64.Nearest
import ComplexCalculator.Decimal.Layout

/-!
# Shortest decimal text

The text of a number is the shortest one that reads back: of all decimals in the interval of reals
that round to the number it takes one with the fewest digits, of those the nearest, and of two
equally near the even one. The search looks at the two neighbours of the number on the grids of one
digit, two digits and so on; the exact expansion stands behind it, so that it never fails.
-/
namespace ComplexCalculator.Decimal
open Binary64

/-- The exponent `E` with `10 ^ E ≤ n / d < 10 ^ (E + 1)`, for positive `n` and `d`. -/
def leadingExponent (n d : Nat) : Int :=
  if d ≤ n then (Nat.toDigits 10 (n / d)).length - 1
  else -(Nat.toDigits 10 ((d - 1) / n)).length

def power10 : Int → Nat × Nat
  | .ofNat k => (Nat.pow 10 k, 1)
  | .negSucc k => (1, Nat.pow 10 (k + 1))

/-- The reals that round to a positive number, in units of `1 / scale`. -/
structure Interval where
  low : Nat
  value : Nat
  high : Nat
  scale : Nat
  closed : Bool

/-- The ends lie halfway to the two neighbours; below a power of two the gap is half as wide. -/
def interval (m : Nat) (e : Int) : Interval :=
  let unit := ratio 1 (e - 2)
  let below := if m = Nat.pow 2 52 ∧ -1074 < e then 1 else 2
  { low := (4 * m - below) * unit.1, value := 4 * m * unit.1, high := (4 * m + 2) * unit.1,
    scale := unit.2, closed := m % 2 = 0 }

def Interval.contains (i : Interval) (n : Nat) (k : Int) : Bool :=
  let t := power10 k
  let x := n * t.1 * i.scale
  if i.closed then i.low * t.2 ≤ x && x ≤ i.high * t.2 else i.low * t.2 < x && x < i.high * t.2

def Interval.onGrid? (i : Interval) (k : Int) : Option Nat :=
  let t := power10 k
  let n := i.value * t.2 / (i.scale * t.1)
  if i.contains n k then
    if i.contains (n + 1) k then some (roundDiv (i.value * t.2) (i.scale * t.1)) else some n
  else if i.contains (n + 1) k then some (n + 1) else none

def Interval.search (i : Interval) (leading : Int) : (grids digits : Nat) → Option Decimal
  | 0, _ => none
  | grids + 1, digits =>
    let k := leading - digits
    match i.onGrid? k with
    | some n => some (ofScaled n k)
    | none => i.search leading grids (digits + 1)

def exact (m : Nat) : Int → Decimal
  | .ofNat k => ofScaled (m * Nat.pow 2 k) 0
  | .negSucc k => ofScaled (m * Nat.pow 5 (k + 1)) (.negSucc k)

def shortest (m : Nat) (e : Int) : Decimal :=
  let i := interval m e
  if m = 0 then ofScaled 0 0
  else (i.search (leadingExponent i.value i.scale) 17 0).getD (exact m e)

def shortestLayout : Layout := { least := -4, limit := 16, pointed := true }

def signed (x : Float) (text : List Char) : String :=
  String.ofList (if isNegative x then '-' :: text else text)

def text (x : Float) : String :=
  match magnitude x with
  | .nan => "nan"
  | .infinite => signed x ['i', 'n', 'f']
  | .finite m e => signed x (write shortestLayout (shortest m e))

end ComplexCalculator.Decimal
