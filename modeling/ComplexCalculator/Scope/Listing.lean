import ComplexCalculator.Scope.Store

/-!
# Listings

The names of a scope, and the names visible from it, in the order of their characters. Each has one
line, such as `pi = 3.14159` or `f(x) = x + 1`.
-/
namespace ComplexCalculator
namespace Store

def line (s : Store) (precision : Option Nat) (name : String) : Definition → String
  | .constant cell => name ++ " = " ++ (s.read cell).text precision
  | .function f => f.line name

def names (s : Store) (i : Nat) : List String := (s.bindings i).keys

def size (s : Store) (i : Nat) : Nat := (s.bindings i).size

def visible (s : Store) (i : Nat) : Bindings :=
  (s.chain i).foldr
    (fun j all => (s.bindings j).foldl (fun all name d => all.insert name d) all) ∅

def lines (s : Store) (precision : Nat) (bindings : Bindings) : List String :=
  bindings.toList.map fun b => s.line (some precision) b.1 b.2

def dump (s : Store) (i : Nat) (precision : Option Nat) : List String :=
  s.lines (precision.getD (s.settings i).precision) (s.bindings i)

def dumpVisible (s : Store) (i : Nat) (precision : Option Nat) : List String :=
  s.lines (precision.getD (s.settings i).precision) (s.visible i)

end Store
end ComplexCalculator
