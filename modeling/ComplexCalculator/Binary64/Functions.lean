import ComplexCalculator.Binary64.Magnitude

/-!
# Real functions

The hypotenuse and the logarithm near one, from the core library's square root and logarithm.
-/
namespace ComplexCalculator.Binary64

/-- The hypotenuse of two sides whose squares neither overflow nor vanish, the longer one first: the
square root of the sum of the squares, corrected by what its own square is off. -/
def hypotCore (a b : Float) : Float :=
  let h := (a * a + b * b).sqrt
  if h ≤ 2 * b then
    let d := h - b
    h - (a * (2 * d - a) + (d - 2 * (a - b)) * d) / (2 * h)
  else
    let d := h - a
    h - (2 * d * (a - 2 * b) + ((4 * d - b) * b + d * d)) / (2 * h)

def wide : Float := 6.703903964971299e153
def narrow : Float := 6.717876107567089e-139
def negligible : Float := 5.551115123125783e-17
def scale : Float := 2.409919865102884e-181

/-- `sqrt (x * x + y * y)`, scaled by a power of two where the squares would overflow or vanish. It
is infinite as soon as one side is. -/
def hypot (x y : Float) : Float :=
  let x := x.abs
  let y := y.abs
  if x.isInf || y.isInf then infinity
  else if x.isNaN || y.isNaN then nan
  else
    let a := if x < y then y else x
    let b := if x < y then x else y
    if b ≤ a * negligible then a + b
    else if wide < a then hypotCore (a * scale) (b * scale) / scale
    else if b < narrow then hypotCore (a / scale) (b / scale) * scale
    else hypotCore a b

def log1p (x : Float) : Float :=
  let u := 1 + x
  if u == 1 then x else u.log * (x / (u - 1))

end ComplexCalculator.Binary64
