import ComplexCalculator.Expr.Basic
import ComplexCalculator.Number.Power
import ComplexCalculator.Settings.Basic
import ComplexCalculator.Text.Quoted

/-!
# Values of expressions

Evaluation never fails: what has no sensible value is NaN. It reports the symbols that resolved to
nothing and the calls with a wrong number of arguments, operands from left to right. A called
function's body sees the constants of the caller behind its own parameters.
-/
namespace ComplexCalculator

inductive Kind
  | constant
  | unary
  | binary
  | custom
  deriving DecidableEq

def Kind.label : Kind → String
  | .constant => "ConstantDef"
  | .unary => "NativeFunctionDef"
  | .binary => "NativeFunction2Def"
  | .custom => "CustomFunctionDef"

def Function.kind : Function → Kind
  | .native _ (.unary _) => .unary
  | .native _ (.binary _) => .binary
  | .custom _ _ _ => .custom

inductive Event
  | unresolved (name : String) (fallback : Fallback)
  | arity (kind : Kind) (expected given : Nat)
  | defined (name value : String)
  | undefined (name : String)
  deriving DecidableEq

def Event.message : Event → String
  | .unresolved name fallback =>
    "Symbol " ++ Text.quoted name ++ " is unresolved, evaluating to " ++ fallback.label
  | .arity kind expected given =>
    kind.label ++ " expects " ++ expected.repr ++ " argument(s), got " ++ given.repr
  | .defined name value => "define " ++ name ++ " = " ++ value
  | .undefined name => "undefine " ++ name

structure Traced (α : Type) where
  value : α
  events : List Event

structure Context where
  constant? : String → Option Number
  fallback : Fallback
  policy : FactorialPolicy

/-- The parameters hold the arguments and hide outer constants; of two equal parameters the last
one counts. -/
def Context.bind (c : Context) (parameters : List String) (arguments : List Number) : Context :=
  { c with
    constant? := fun name =>
      ((parameters.zip arguments).reverse.lookup name).or (c.constant? name) }

def Context.symbol (c : Context) (name : String) : Traced Number :=
  match c.constant? name with
  | some v => ⟨v, []⟩
  | none => ⟨c.fallback.value, [.unresolved name c.fallback]⟩

/-- Comparisons answer their left operand, or NaN when they do not hold. -/
def Operator.apply : Operator → Number → Number → Number
  | .add, a, b => a + b
  | .sub, a, b => a - b
  | .mul, a, b => a * b
  | .div, a, b => a.divide b
  | .pow, a, b => a.power b
  | .equal, a, b => if a.equals b then a else Number.nan
  | .less, a, b => if a.isReal && b.isReal && a.re < b.re then a else Number.nan

def Native.result? : Native → List Number → Option Number
  | .unary f, [x] => f x
  | .binary f, [x, y] => f x y
  | _, _ => none

mutual
def Expr.evaluate (c : Context) : Expr → Traced Number
  | .number v => ⟨v, []⟩
  | .symbol name => c.symbol name
  | .negate t =>
    let a := t.evaluate c
    ⟨-a.value, a.events⟩
  | .factorial t =>
    let a := t.evaluate c
    ⟨a.value.factorial c.policy, a.events⟩
  | .binary op l r =>
    let a := l.evaluate c
    let b := r.evaluate c
    ⟨op.apply a.value b.value, a.events ++ b.events⟩
  | .define name t =>
    let a := c.symbol name
    let b := t.evaluate c
    ⟨if a.value.equals b.value then Number.one else Number.zero, a.events ++ b.events⟩
  | .call _ callee ts =>
    let as := Expr.evaluateAll c ts
    match callee with
    | some f =>
      let r := f.invoke c as.value
      ⟨r.value, as.events ++ r.events⟩
    | none => ⟨Number.nan, as.events⟩

def Expr.evaluateAll (c : Context) : List Expr → Traced (List Number)
  | [] => ⟨[], []⟩
  | t :: ts =>
    let a := t.evaluate c
    let as := Expr.evaluateAll c ts
    ⟨a.value :: as.value, a.events ++ as.events⟩

def Function.invoke (c : Context) (arguments : List Number) : Function → Traced Number
  | .native n f =>
    if arguments.length = f.arity then ⟨Number.orNaN (f.result? arguments), []⟩
    else ⟨Number.nan, [.arity (Function.native n f).kind f.arity arguments.length]⟩
  | .custom _ parameters body =>
    if arguments.length = parameters.length then body.evaluate (c.bind parameters arguments)
    else ⟨Number.nan, [.arity .custom parameters.length arguments.length]⟩
end

end ComplexCalculator
