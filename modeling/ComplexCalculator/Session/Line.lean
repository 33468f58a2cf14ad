import ComplexCalculator.Scope.Store
import ComplexCalculator.Text.Source

/-!
# Lines of a session

A line `name := expression` binds the name to the expression's value, or removes its binding when
the modulus of the value is NaN. Any other line is only evaluated. A line that cannot be read
changes nothing.
-/
namespace ComplexCalculator

inductive Action
  | define
  | undefine
  | evaluate
  deriving DecidableEq

def Action.label : Action → String
  | .define => "define"
  | .undefine => "undefine"
  | .evaluate => "evaluate"

structure Outcome where
  action : Action
  expr : Expr
  value : Number
  precision : Nat

/-- The echo of a line: `1 + 2 = 3`, `define a := 3` or `undefine a := nan`. -/
def Outcome.describe (o : Outcome) (precision : Option Nat) : String :=
  match o.action with
  | .evaluate => o.expr.render ++ " = " ++ o.value.text (some (precision.getD o.precision))
  | action => action.label ++ " " ++ o.expr.render

inductive LineError
  | encoding
  | parse (error : ParseError)
  deriving DecidableEq

structure Executed where
  outcome : Outcome
  events : List Event
  store : Store

namespace Store

def parse (s : Store) (i : Nat) (source : Text.Source) : Except LineError Expr :=
  match source.read? with
  | none => .error .encoding
  | some text =>
    match ComplexCalculator.parse (s.vocabulary i) text with
    | .ok t => .ok t
    | .error e => .error (.parse e)

def perform (s : Store) (i : Nat) (t : Expr) : Executed :=
  let precision := (s.settings i).precision
  match t with
  | .define name e =>
    let r := e.evaluate (s.context i)
    if r.value.isUndefined then
      { outcome := ⟨.undefine, t, r.value, precision⟩
        events := r.events ++ [.undefined name]
        store := s.undefine i name }
    else
      { outcome := ⟨.define, t, r.value, precision⟩
        events := r.events ++ [.defined name (r.value.text (some precision))]
        store := s.defineConstant i name r.value }
  | t =>
    let r := t.evaluate (s.context i)
    { outcome := ⟨.evaluate, t, r.value, precision⟩, events := r.events, store := s }

def execute (s : Store) (i : Nat) (source : Text.Source) : Except LineError Executed :=
  match s.parse i source with
  | .ok t => .ok (s.perform i t)
  | .error e => .error e

end Store
end ComplexCalculator
