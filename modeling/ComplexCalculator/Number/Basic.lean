import ComplexCalculator.Binary64.Magnitude

/-!
# Complex numbers

Every value is a pair of binary64 numbers; a real number has the imaginary part zero. Arithmetic
always works on both parts. An operation that can fail answers an option, and a failure becomes the
sentinel with both parts NaN.
-/
namespace ComplexCalculator
open Binary64

structure Number where
  re : Float
  im : Float
  deriving DecidableEq

namespace Number

def nan : Number := ⟨Binary64.nan, Binary64.nan⟩
def zero : Number := ⟨0, 0⟩
def one : Number := ⟨1, 0⟩
def ofReal (x : Float) : Number := ⟨x, 0⟩

def isNaN (z : Number) : Bool := z.re.isNaN || z.im.isNaN
def isInfinite (z : Number) : Bool := z.re.isInf || z.im.isInf
def isFinite (z : Number) : Bool := z.re.isFinite && z.im.isFinite
def isReal (z : Number) : Bool := z.im == 0

/-- The modulus is NaN; one infinite part makes it infinite instead. -/
def isUndefined (z : Number) : Bool := z.isNaN && !z.isInfinite

/-- Equality of the parts as numbers: the two zeros are equal and NaN is equal to nothing. -/
def equals (a b : Number) : Bool := a.re == b.re && a.im == b.im

instance : Neg Number := ⟨fun a => ⟨-a.re, -a.im⟩⟩
instance : Add Number := ⟨fun a b => ⟨a.re + b.re, a.im + b.im⟩⟩
instance : Sub Number := ⟨fun a b => ⟨a.re - b.re, a.im - b.im⟩⟩
instance : Mul Number :=
  ⟨fun a b => ⟨a.re * b.re - a.im * b.im, a.re * b.im + a.im * b.re⟩⟩

theorem equals_iff {a b : Number} :
    a.equals b = true ↔ (a.re == b.re) = true ∧ (a.im == b.im) = true := by
  simp [equals]

def orNaN (z : Option Number) : Number := z.getD nan

@[simp] theorem orNaN_some (z : Number) : orNaN (some z) = z := rfl
@[simp] theorem orNaN_none : orNaN none = nan := rfl

def unlessInfinite (z : Number) : Option Number := if z.isInfinite then none else some z

def quotient? (a b : Number) : Option Number :=
  let p := b.re.abs
  let q := b.im.abs
  if q ≤ p then
    if p == 0 then none
    else
      let r := b.im / b.re
      let d := b.re + b.im * r
      some ⟨(a.re + a.im * r) / d, (a.im - a.re * r) / d⟩
  else if p ≤ q then
    let r := b.re / b.im
    let d := b.re * r + b.im
    some ⟨(a.re * r + a.im) / d, (a.im * r - a.re) / d⟩
  else some nan

def overZero (x : Float) : Float :=
  if x == 0 || x.isNaN then Binary64.nan else copySign infinity x

def divide (a b : Number) : Number :=
  if b.equals zero then ⟨overZero a.re, overZero a.im⟩ else orNaN (quotient? a b)

end Number
end ComplexCalculator
