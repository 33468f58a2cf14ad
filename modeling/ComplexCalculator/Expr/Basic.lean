import ComplexCalculator.Number.Basic

/-!
# Expressions

A tree of numbers, symbols, operations and calls. A call holds the function that its name meant when
the tree was built, so a tree never changes its meaning when a function is bound anew; a function of
the user's own is its parameters and its body. Functions are told apart by a serial number given
when they are made.
-/
namespace ComplexCalculator

inductive Operator
  | add
  | sub
  | mul
  | div
  | pow
  | equal
  | less
  deriving DecidableEq

inductive Native
  | unary (apply : Number → Option Number)
  | binary (apply : Number → Number → Option Number)

mutual
inductive Expr
  | number (value : Number)
  | symbol (name : String)
  | negate (operand : Expr)
  | factorial (operand : Expr)
  | binary (op : Operator) (left right : Expr)
  | define (target : String) (value : Expr)
  | call (name : String) (callee : Option Function) (arguments : List Expr)

inductive Function
  | native (serial : Nat) (native : Native)
  | custom (serial : Nat) (parameters : List String) (body : Expr)
end

def Native.arity : Native → Nat
  | .unary _ => 1
  | .binary _ => 2

namespace Function

def serial : Function → Nat
  | .native n _ => n
  | .custom n _ _ => n

def arity : Function → Nat
  | .native _ f => f.arity
  | .custom _ parameters _ => parameters.length

end Function

def Expr.target? : Expr → Option String
  | .define name _ => some name
  | _ => none

mutual
/-- Two trees are alike when they have the same shape, names and numbers; the functions that their
calls hold do not count. -/
def Expr.alike : Expr → Expr → Bool
  | .number a, .number b => a.equals b
  | .symbol a, .symbol b => a == b
  | .negate a, .negate b => a.alike b
  | .factorial a, .factorial b => a.alike b
  | .binary o a b, .binary p c d => o == p && a.alike c && b.alike d
  | .define a b, .define c d => a == c && b.alike d
  | .call a _ as, .call b _ bs => a == b && Expr.alikeAll as bs
  | _, _ => false

def Expr.alikeAll : List Expr → List Expr → Bool
  | [], [] => true
  | a :: as, b :: bs => a.alike b && Expr.alikeAll as bs
  | _, _ => false
end

end ComplexCalculator
