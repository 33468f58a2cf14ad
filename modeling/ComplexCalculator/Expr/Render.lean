import ComplexCalculator.Expr.Basic
import ComplexCalculator.Number.Text

/-!
# Texts of expressions

An operand stands in parentheses if it binds looser than the operation around it, or as tightly on
the side where the grammar would not attach it: the left side of a power, the right side of any
other operator.
-/
namespace ComplexCalculator

inductive Precedence
  | relation
  | addition
  | multiplication
  | factorial
  | power
  | number
  deriving DecidableEq

def Precedence.rank : Precedence → Nat
  | .relation => 0
  | .addition => 1
  | .multiplication => 2
  | .factorial => 3
  | .power => 4
  | .number => 5

theorem Precedence.rank_injective {p q : Precedence} (h : p.rank = q.rank) : p = q := by
  cases p <;> cases q <;> simp_all [Precedence.rank]

namespace Operator

def precedence : Operator → Precedence
  | .add | .sub => .addition
  | .mul | .div => .multiplication
  | .pow => .power
  | .equal | .less => .relation

def symbol : Operator → String
  | .add => "+"
  | .sub => "-"
  | .mul => "*"
  | .div => "/"
  | .pow => "^"
  | .equal => "="
  | .less => "<"

def isRightAssociative (op : Operator) : Bool := op == .pow

end Operator

namespace Expr

def precedence : Expr → Precedence
  | .factorial _ => .factorial
  | .binary op _ _ => op.precedence
  | .define _ _ => .relation
  | _ => .number

/-- Whether an operand is put in parentheses; `level` says whether one that binds as tightly is. -/
def isWrapped (outer : Precedence) (level : Bool) (operand : Expr) : Bool :=
  operand.precedence.rank < outer.rank || (level && operand.precedence == outer)

def wrap (wrapped : Bool) (text : String) : String :=
  if wrapped then "(" ++ text ++ ")" else text

mutual
def render : Expr → String
  | .number value => value.text none
  | .symbol name => name
  | .negate t => "-" ++ wrap (t.isWrapped .number false) t.render
  | .factorial t => wrap (t.isWrapped .factorial false) t.render ++ "!"
  | .binary op l r =>
    wrap (l.isWrapped op.precedence op.isRightAssociative) l.render ++ " " ++ op.symbol ++ " " ++
      wrap (r.isWrapped op.precedence (!op.isRightAssociative)) r.render
  | .define name t => name ++ " := " ++ wrap (t.isWrapped .relation true) t.render
  | .call name _ ts => name ++ "(" ++ renderAll ts ++ ")"

def renderAll : List Expr → String
  | [] => ""
  | [t] => t.render
  | t :: ts => t.render ++ ", " ++ renderAll ts
end

end Expr
end ComplexCalculator
