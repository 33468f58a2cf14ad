import ComplexCalculator.Expr.Render
import ComplexCalculator.Expr.Evaluate

/-!
# Definitions

A name is bound to a constant or to a function. A constant is a cell of the store, so that a new
value shows wherever the cell is held. Two definitions are the same when they are the same cell or
functions made at the same time.
-/
namespace ComplexCalculator

inductive Definition
  | constant (cell : Nat)
  | function (function : Function)

namespace Definition

def isSame : Definition → Definition → Bool
  | .constant a, .constant b => a == b
  | .function f, .function g => f.serial == g.serial
  | _, _ => false

def kind : Definition → Kind
  | .constant _ => .constant
  | .function f => f.kind

end Definition

def Function.line (name : String) : Function → String
  | .native _ (.unary _) => name ++ "(x) = native"
  | .native _ (.binary _) => name ++ "(x, y) = native"
  | .custom _ parameters body =>
    name ++ "(" ++ ", ".intercalate parameters ++ ") = " ++ body.render

inductive NativeError
  | arity (given : Int)
  deriving DecidableEq

def NativeError.message : NativeError → String
  | .arity n => "Native functions take 1 or 2 arguments, not " ++ toString n

def Native.ofArity (arity : Int) (apply : List Number → Option Number) :
    Except NativeError Native :=
  if arity = 1 then .ok (.unary fun x => apply [x])
  else if arity = 2 then .ok (.binary fun x y => apply [x, y])
  else .error (.arity arity)

end ComplexCalculator
