import ComplexCalculator.Number.Basic
import ComplexCalculator.Binary64.Functions

/-!
# Elementary functions

The exponential, the trigonometric functions, the logarithm, the square root, the argument and polar
coordinates. A finite argument whose result overflows has no value, nor has an infinite one whose
value would hang on the direction of the approach. The sine, cosine and tangent are the hyperbolic
ones on the imaginary axis.
-/
namespace ComplexCalculator.Number
open Binary64

def largeExponent : Float := 708.3964185322641
def euler : Float := 2.718281828459045
def halfRange : Float := 1.7976931348623157e308 / 4
def leastNormal : Float := 2.2250738585072014e-308
def ln2 : Float := 0.6931471805599453

def towards (size angle : Float) : Number :=
  ⟨copySign size angle.cos, copySign size angle.sin⟩

def exp? (z : Number) : Option Number :=
  let x := z.re
  let y := z.im
  if z.isFinite then
    if largeExponent < x then
      let l := (x - 1).exp
      unlessInfinite ⟨l * y.cos * euler, l * y.sin * euler⟩
    else unlessInfinite ⟨x.exp * y.cos, x.exp * y.sin⟩
  else if x.isNaN then some (if y == 0 then ⟨x, y⟩ else nan)
  else if !x.isInf then if y.isInf then none else some nan
  else if x < 0 then some (if !y.isFinite then zero else if y == 0 then ⟨0, y⟩ else towards 0 y)
  else if y.isInf then none
  else some (if y.isNaN then ⟨x, y⟩ else if y == 0 then ⟨x, y⟩ else towards x y)

def sinh? (z : Number) : Option Number :=
  let x := z.re
  let y := z.im
  if z.isFinite then
    if largeExponent < x.abs then
      let m := x - copySign 1 x
      unlessInfinite ⟨y.cos * m.sinh * euler, y.sin * m.cosh * euler⟩
    else unlessInfinite ⟨y.cos * x.sinh, y.sin * x.cosh⟩
  else if x.isNaN then some (if y == 0 then ⟨x, y⟩ else nan)
  else if y.isInf then none
  else if y.isNaN then some ⟨if x.isInf then infinity else if x == 0 then 0 else y, y⟩
  else if y == 0 then some ⟨x, y⟩
  else some ⟨copySign 1 x * copySign infinity y.cos, copySign infinity y.sin⟩

def cosh? (z : Number) : Option Number :=
  let x := z.re
  let y := z.im
  if z.isFinite then
    if largeExponent < x.abs then
      let m := x - copySign 1 x
      unlessInfinite ⟨y.cos * m.cosh * euler, y.sin * m.sinh * euler⟩
    else unlessInfinite ⟨y.cos * x.cosh, y.sin * x.sinh⟩
  else if x.isNaN then some (if y == 0 then ⟨x, 0⟩ else nan)
  else if y.isInf then none
  else if y.isNaN then
    some (if x.isInf then ⟨infinity, y⟩ else if x == 0 then ⟨y, 0⟩ else nan)
  else if y == 0 then some ⟨infinity, copySign 1 x * y⟩
  else some ⟨copySign infinity y.cos, copySign 1 x * copySign infinity y.sin⟩

def tanh? (z : Number) : Option Number :=
  let x := z.re
  let y := z.im
  if z.isFinite then
    if largeExponent < x.abs then
      some ⟨copySign 1 x, 4 * y.sin * y.cos * (-2 * x.abs).exp⟩
    else
      let t := x.tanh
      let u := y.tan
      let c := 1 / x.cosh
      let d := 1 + t * u * (t * u)
      some ⟨t * (1 + u * u) / d, u / d * c * c⟩
  else if x.isNaN then some (if y == 0 then ⟨x, y⟩ else nan)
  else if x.isInf then
    some ⟨copySign 1 x,
      if !y.isFinite then 0 else if y == 0 then y else copySign 0 (2 * y.sin * y.cos)⟩
  else if y.isInf then none
  else some nan

def quarterTurn (z : Number) : Number := ⟨-z.im, z.re⟩
def turnBack (z : Number) : Number := ⟨z.im, -z.re⟩

def sin? (z : Number) : Option Number := (sinh? z.quarterTurn).map turnBack
def cos? (z : Number) : Option Number := cosh? z.quarterTurn
def tan? (z : Number) : Option Number := (tanh? z.quarterTurn).map turnBack

def angle (z : Number) : Float := Float.atan2 z.im z.re

/-- The angle, unless it vanishes for a number off the axis. -/
def angle? (z : Number) : Option Float :=
  if z.angle == 0 && z.im != 0 && z.re.isFinite then none else some z.angle

def logModulus? (x y : Float) : Option Float :=
  let a := x.abs
  let b := y.abs
  if halfRange < a || halfRange < b then some ((hypot (a / 2) (b / 2)).log + ln2)
  else if a < leastNormal && b < leastNormal then
    if a == 0 && b == 0 then none
    else some ((hypot (a * 9007199254740992) (b * 9007199254740992)).log - 53 * ln2)
  else
    let h := hypot a b
    if 0.71 ≤ h && h ≤ 1.73 then
      let high := if a < b then b else a
      let low := if a < b then a else b
      some (log1p ((high - 1) * (high + 1) + low * low) / 2)
    else some h.log

def log? (z : Number) : Option Number :=
  if z.isFinite then (logModulus? z.re z.im).map (⟨·, z.angle⟩)
  else some ⟨if z.isInfinite then infinity else Binary64.nan, z.angle⟩

def sqrt? (z : Number) : Option Number :=
  let x := z.re
  let y := z.im
  if z.isFinite then
    if x == 0 && y == 0 then some ⟨0, y⟩
    else
      let a := x.abs
      let b := y.abs
      let s :=
        if a < leastNormal && b < leastNormal then
          let u := a * 9007199254740992
          (u + hypot u (b * 9007199254740992)).sqrt * 7.450580596923828e-9
        else
          let u := a / 8
          2 * (u + hypot u (b / 8)).sqrt
      let d := b / (2 * s)
      some (if 0 ≤ x then ⟨s, copySign d y⟩ else ⟨d, copySign s y⟩)
  else if y.isInf then some ⟨infinity, y⟩
  else if !x.isInf then some nan
  else if x < 0 then some (if y.isNaN then ⟨y, infinity⟩ else ⟨0, copySign infinity y⟩)
  else some (if y.isNaN then ⟨x, y⟩ else ⟨x, copySign 0 y⟩)

def polar? (r phi : Float) : Option Number :=
  if r.isFinite && phi.isFinite then
    some (if phi == 0 then ⟨r, r * phi⟩ else ⟨r * phi.cos, r * phi.sin⟩)
  else if r.isNaN then some (if phi == 0 then ⟨r, 0⟩ else nan)
  else if r == 0 then some zero
  else if phi.isInf then none
  else if !r.isInf then some nan
  else if phi.isNaN then some ⟨infinity, phi⟩
  else if phi == 0 then some ⟨r, copySign 1 r * phi⟩
  else
    let direction := towards infinity phi
    some (if r < 0 then -direction else direction)

end ComplexCalculator.Number
