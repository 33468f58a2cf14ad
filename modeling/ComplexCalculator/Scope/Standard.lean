import ComplexCalculator.Scope.Store

/-!
# Standard names

The imaginary unit, Euler's number, the circle constant under two names and NaN; the parts, the
argument and the elementary functions; and polar coordinates, which use the real parts only.
-/
namespace ComplexCalculator
namespace Standard

def pi : Float := 3.141592653589793

def constants : List (String × Number) :=
  [("i", ⟨0, 1⟩), ("e", .ofReal Number.euler), ("pi", .ofReal pi), ("π", .ofReal pi),
    ("nan", .nan)]

def natives : List (String × Native) :=
  [("Re", .unary fun z => some (.ofReal z.re)), ("Im", .unary fun z => some (.ofReal z.im)),
    ("arg", .unary fun z => z.angle?.map .ofReal), ("sin", .unary Number.sin?),
    ("cos", .unary Number.cos?), ("tan", .unary Number.tan?), ("exp", .unary Number.exp?),
    ("sqrt", .unary Number.sqrt?), ("log", .unary Number.log?),
    ("polar", .binary fun r phi => Number.polar? r.re phi.re)]

end Standard

namespace Store

def defineStandard (s : Store) (i : Nat) : Store :=
  let s := Standard.constants.foldl (fun s c => s.defineConstant i c.1 c.2) s
  Standard.natives.foldl (fun s f => s.defineNative i f.1 f.2) s

def standard (settings : Option Settings) : Store := (root settings).defineStandard 0

end Store
end ComplexCalculator
