import ComplexCalculator.Number.Factorial

/-!
# Settings

What the language leaves open: the value of an unresolved symbol, the factorial policy, whether an
unknown name is refused while reading, and the significant digits of results, between 1 and 17.
-/
namespace ComplexCalculator

inductive Fallback
  | nan
  | zero
  deriving DecidableEq

namespace Fallback

def value : Fallback → Number
  | .nan => Number.nan
  | .zero => Number.zero

def label : Fallback → String
  | .nan => "nan"
  | .zero => "zero"

end Fallback

def FactorialPolicy.label : FactorialPolicy → String
  | .strict => "strict"
  | .staircase => "staircase"

structure Settings where
  unresolved : Fallback
  factorial : FactorialPolicy
  isStrict : Bool
  precision : Nat
  precision_pos : 1 ≤ precision
  precision_le : precision ≤ 17
  deriving DecidableEq

def Settings.standard : Settings :=
  { unresolved := .nan, factorial := .strict, isStrict := false, precision := 6,
    precision_pos := by decide, precision_le := by decide }

end ComplexCalculator
