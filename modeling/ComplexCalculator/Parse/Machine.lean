import ComplexCalculator.Expr.Render
import ComplexCalculator.Parse.Error
import ComplexCalculator.Token.Stream

/-!
# Reading expressions

The grammar, loosest first, where a relation is `:=`, `=` or `<`:

    expr     = sum { relation sum }
    sum      = product { (+|-) product }
    product  = factor { (*|/) factor }
    factor   = power { ! }
    power    = primary [ ^ power ]
    primary  = ( expr ) | - primary | number | name | call
    call     = function [ ^ primary ] ( ( expr { , expr } ) | expr { , expr } )

Chains lean to the left and powers to the right. A name is a function when the vocabulary says so,
and a bracket right after it always opens its arguments; without one the call takes all that can
still follow. `f ^ p (x)` is the power `p` of the call.

The reading is a machine that takes one token at a time. Its stack holds the beginnings of the
constructs it is inside of. When a value meets a token, the token either takes the value as its left
operand, if it binds tightly enough for the innermost construct, or that construct is completed and
the token is presented again. So no token is ever taken back, and an error is found at the first
token that cannot continue.
-/
namespace ComplexCalculator

inductive Meaning
  | function (f : Function)
  | constant
  | unknown

structure Vocabulary where
  meaning : String → Meaning
  isStrict : Bool

namespace Parse

inductive Link
  | operator (op : Operator)
  | definition
  deriving DecidableEq

namespace Link

def precedence : Link → Precedence
  | .operator op => op.precedence
  | .definition => .relation

def join : Link → Expr → Expr → Except ParseError Expr
  | .operator op, l, r => .ok (.binary op l r)
  | .definition, .symbol name, r => .ok (.define name r)
  | .definition, l, _ => .error (.target l.render)

def ofMark? : Mark → Option Link
  | .plus => some (.operator .add)
  | .minus => some (.operator .sub)
  | .times => some (.operator .mul)
  | .over => some (.operator .div)
  | .equal => some (.operator .equal)
  | .less => some (.operator .less)
  | .define => some .definition
  | _ => none

end Link

structure Pending where
  name : String
  function : Function
  exponent : Option Expr
  arguments : List Expr

def Pending.push (c : Pending) (t : Expr) : Pending :=
  { c with arguments := c.arguments ++ [t] }

def Pending.complete (c : Pending) (t : Expr) : Expr :=
  let call := Expr.call c.name (some c.function) (c.arguments ++ [t])
  match c.exponent with
  | some p => .binary .pow call p
  | none => call

inductive Frame
  | group
  | minus
  | power (base : Expr)
  | chain (link : Link) (left : Expr)
  | exponent (name : String) (function : Function)
  | arguments (call : Pending) (isBracketed : Bool)

/-- Whether a value may still be the base of a power. -/
inductive Grade
  | primary
  | compound
  deriving DecidableEq

inductive Focus
  | operand
  | callee (name : String) (function : Function)
  | unknown (name : String) (position : Nat)
  | value (grade : Grade) (value : Expr)
  | complete (value : Expr)

structure State where
  stack : List Frame
  focus : Focus

def State.start : State := ⟨[], .operand⟩

inductive Extension
  | power
  | factorial
  | link (link : Link)
  deriving DecidableEq

namespace Extension

def rank : Extension → Nat
  | .power => Precedence.power.rank
  | .factorial => Precedence.factorial.rank
  | .link l => l.precedence.rank

def shift (stack : List Frame) (t : Expr) : Extension → State
  | .power => ⟨.power t :: stack, .operand⟩
  | .factorial => ⟨stack, .value .compound (.factorial t)⟩
  | .link l => ⟨.chain l t :: stack, .operand⟩

def ofLexeme? (g : Grade) : Lexeme → Option Extension
  | .mark .power => if g = .primary then some .power else none
  | .mark .factorial => some .factorial
  | .mark m => (Link.ofMark? m).map .link
  | _ => none

end Extension

/-- The least rank of a token that may take a value inside of a construct. -/
def floor : List Frame → Nat
  | .minus :: _ | .exponent _ _ :: _ => Precedence.number.rank
  | .power _ :: _ => Precedence.power.rank
  | .chain l _ :: _ => l.precedence.rank + 1
  | .group :: _ | .arguments _ _ :: _ | [] => Precedence.relation.rank

def begin (v : Vocabulary) (stack : List Frame) (k : Token) : Except ParseError State :=
  match k.lexeme with
  | .number x => .ok ⟨stack, .value .primary (.number (Number.ofReal x))⟩
  | .name name =>
    match v.meaning name with
    | .function f => .ok ⟨stack, .callee name f⟩
    | .constant => .ok ⟨stack, .value .primary (.symbol name)⟩
    | .unknown =>
      if v.isStrict then .ok ⟨stack, .unknown name k.position⟩
      else .ok ⟨stack, .value .primary (.symbol name)⟩
  | .mark .minus => .ok ⟨.minus :: stack, .operand⟩
  | .mark .opening => .ok ⟨.group :: stack, .operand⟩
  | _ => .error (.unexpected k)

def beginArguments (v : Vocabulary) (stack : List Frame) (call : Pending) (k : Token) :
    Except ParseError State :=
  if k.lexeme = .mark .opening then .ok ⟨.arguments call true :: stack, .operand⟩
  else begin v (.arguments call false :: stack) k

def resume (v : Vocabulary) (k : Token) (stack : List Frame) (g : Grade) (t : Expr) :
    Except ParseError State :=
  match (Extension.ofLexeme? g k.lexeme).filter (floor stack ≤ ·.rank) with
  | some e => .ok (e.shift stack t)
  | none =>
    match stack with
    | [] => if k.lexeme = .ending then .ok ⟨[], .complete t⟩ else .error (.unexpected k)
    | .minus :: fs => resume v k fs .primary (.negate t)
    | .power base :: fs => resume v k fs .compound (.binary .pow base t)
    | .chain link left :: fs =>
      match link.join left t with
      | .ok u => resume v k fs .compound u
      | .error e => .error e
    | .exponent name f :: fs => beginArguments v fs ⟨name, f, some t, []⟩ k
    | .group :: fs =>
      if k.lexeme = .mark .closing then .ok ⟨fs, .value .primary t⟩ else .error (.unexpected k)
    | .arguments call isBracketed :: fs =>
      if k.lexeme = .mark .comma then .ok ⟨.arguments (call.push t) isBracketed :: fs, .operand⟩
      else if !isBracketed then resume v k fs .primary (call.complete t)
      else if k.lexeme = .mark .closing then .ok ⟨fs, .value .primary (call.complete t)⟩
      else .error (.unexpected k)

def step (v : Vocabulary) (s : State) (k : Token) : Except ParseError State :=
  match s.focus with
  | .operand => begin v s.stack k
  | .callee name f =>
    if k.lexeme = .mark .power then .ok ⟨.exponent name f :: s.stack, .operand⟩
    else beginArguments v s.stack ⟨name, f, none, []⟩ k
  | .unknown name position =>
    if k.lexeme = .mark .define then resume v k s.stack .primary (.symbol name)
    else .error (.unknown name position)
  | .value g t => resume v k s.stack g t
  | .complete _ => .error (.unexpected k)

def run (v : Vocabulary) (s : State) : Stream → Except ParseError Expr
  | .token k rest =>
    match step v s k with
    | .ok s => run v s rest
    | .error e => .error e
  | .stray c n => .error (.character c n)
  | .ending n =>
    match step v s ⟨.ending, n⟩ with
    | .ok ⟨_, .complete t⟩ => .ok t
    | .ok _ => .error (.ending n)
    | .error e => .error e

end Parse

def parse (v : Vocabulary) (text : String) : Except ParseError Expr :=
  Parse.run v .start (.ofString text)

end ComplexCalculator
