import ComplexCalculator.Parse.Machine

/-!
# The grammar, read greedily

    level p     = level (tighter than p) after p         for every level but the tightest
    after p     = { operator of p, level (tighter than p) } | { ! } | [ ^ level power ]
    level number = ( expr ) | - level number | number | name
                 | function [ ^ level number ] application
    application = ( arguments ) | arguments
    arguments   = expr { , expr }

The levels are the precedences, an expression is the loosest and a primary the tightest one. What
comes after an operand knows the tree on its left: chains lean to the left, powers to the right, and
a definition needs a symbol on its left. A rule that stops looks at the next lexeme and stops only
when that cannot continue the construct, and a bracket right after a function (and its exponent)
always opens the arguments. Rules relate a construct, the lexemes ahead, a tree and the lexemes that
are left.
-/
namespace ComplexCalculator

def Precedence.tighter : Precedence → Precedence
  | .relation => .addition
  | .addition => .multiplication
  | .multiplication => .factorial
  | .factorial => .power
  | .power => .number
  | .number => .number

def Mark.operator? : Mark → Option Operator
  | .plus => some .add
  | .minus => some .sub
  | .times => some .mul
  | .over => some .div
  | .equal => some .equal
  | .less => some .less
  | _ => none

/-- The level that a lexeme after an operand continues. -/
def Lexeme.continues? : Lexeme → Option Precedence
  | .mark .define => some .relation
  | .mark .factorial => some .factorial
  | .mark .power => some .power
  | .mark m => m.operator?.map Operator.precedence
  | _ => none

/-- Whether a name may stand as a symbol before a lexeme: it is no function, and strict reading
admits an unknown name as the target of a definition only. -/
def Vocabulary.Admits (v : Vocabulary) (name : String) (next : Option Lexeme) : Prop :=
  match v.meaning name with
  | .function _ => False
  | .constant => True
  | .unknown => v.isStrict = true → next = some (.mark .define)

namespace Parse

inductive Construct
  | level (p : Precedence)
  | after (p : Precedence) (left : Expr)
  | application (call : Pending)
  | arguments (call : Pending)

inductive Derives (v : Vocabulary) : Construct → List Lexeme → Expr → List Lexeme → Prop
  | level {p s l s₁ t s₂} (hp : p ≠ .number) (hl : Derives v (.level p.tighter) s l s₁)
      (ht : Derives v (.after p l) s₁ t s₂) : Derives v (.level p) s t s₂
  | stop {p t s} (hs : ∀ l ∈ s.head?, l.continues? ≠ some p) : Derives v (.after p t) s t s
  | operation {p m op l s r s₁ t s₂} (hm : m.operator? = some op) (hp : op.precedence = p)
      (hr : Derives v (.level p.tighter) s r s₁)
      (ht : Derives v (.after p (.binary op l r)) s₁ t s₂) :
      Derives v (.after p l) (.mark m :: s) t s₂
  | definition {name s r s₁ t s₂} (hr : Derives v (.level .addition) s r s₁)
      (ht : Derives v (.after .relation (.define name r)) s₁ t s₂) :
      Derives v (.after .relation (.symbol name)) (.mark .define :: s) t s₂
  | factorial {l s t s₁} (ht : Derives v (.after .factorial (.factorial l)) s t s₁) :
      Derives v (.after .factorial l) (.mark .factorial :: s) t s₁
  | power {b s e s₁} (he : Derives v (.level .power) s e s₁) :
      Derives v (.after .power b) (.mark .power :: s) (.binary .pow b e) s₁
  | number {x s} : Derives v (.level .number) (.number x :: s) (.number (.ofReal x)) s
  | symbol {name s} (hn : v.Admits name s.head?) :
      Derives v (.level .number) (.name name :: s) (.symbol name) s
  | negate {s t s₁} (ht : Derives v (.level .number) s t s₁) :
      Derives v (.level .number) (.mark .minus :: s) (.negate t) s₁
  | group {s t s₁} (ht : Derives v (.level .relation) s t (.mark .closing :: s₁)) :
      Derives v (.level .number) (.mark .opening :: s) t s₁
  | call {name f s t s₁} (hf : v.meaning name = .function f) (hs : s.head? ≠ some (.mark .power))
      (ht : Derives v (.application ⟨name, f, none, []⟩) s t s₁) :
      Derives v (.level .number) (.name name :: s) t s₁
  | raised {name f s e s₁ t s₂} (hf : v.meaning name = .function f)
      (he : Derives v (.level .number) s e s₁)
      (ht : Derives v (.application ⟨name, f, some e, []⟩) s₁ t s₂) :
      Derives v (.level .number) (.name name :: .mark .power :: s) t s₂
  | bracketed {c s t s₁} (ht : Derives v (.arguments c) s t (.mark .closing :: s₁)) :
      Derives v (.application c) (.mark .opening :: s) t s₁
  | bare {c s t s₁} (hs : s.head? ≠ some (.mark .opening)) (ht : Derives v (.arguments c) s t s₁) :
      Derives v (.application c) s t s₁
  | last {c s t s₁} (ht : Derives v (.level .relation) s t s₁)
      (hs : s₁.head? ≠ some (.mark .comma)) : Derives v (.arguments c) s (c.complete t) s₁
  | more {c s t s₁ u s₂} (ht : Derives v (.level .relation) s t (.mark .comma :: s₁))
      (hu : Derives v (.arguments (c.push t)) s₁ u s₂) : Derives v (.arguments c) s u s₂

def Construct.least : Construct → Nat
  | .after _ _ => 0
  | _ => 1

theorem Derives.length_le {v : Vocabulary} {c : Construct} {s s' : List Lexeme} {t : Expr}
    (h : Derives v c s t s') : s'.length + c.least ≤ s.length := by
  induction h <;> simp only [Construct.least, List.length_cons] at * <;> omega

theorem Derives.suffix {v : Vocabulary} {c : Construct} {s s' : List Lexeme} {t : Expr}
    (h : Derives v c s t s') : s' <:+ s := by
  induction h with
  | level hp hl ht ihl iht => exact iht.trans ihl
  | stop hs => exact List.suffix_rfl
  | operation hm hp hr ht ihr iht => exact (iht.trans ihr).trans (List.suffix_cons _ _)
  | definition hr ht ihr iht => exact (iht.trans ihr).trans (List.suffix_cons _ _)
  | factorial ht iht => exact iht.trans (List.suffix_cons _ _)
  | power he ihe => exact ihe.trans (List.suffix_cons _ _)
  | number => exact List.suffix_cons _ _
  | symbol hn => exact List.suffix_cons _ _
  | negate ht iht => exact iht.trans (List.suffix_cons _ _)
  | group ht iht => exact ((List.suffix_cons _ _).trans iht).trans (List.suffix_cons _ _)
  | call hf hs ht iht => exact iht.trans (List.suffix_cons _ _)
  | raised hf he ht ihe iht =>
    exact ((iht.trans ihe).trans (List.suffix_cons _ _)).trans (List.suffix_cons _ _)
  | bracketed ht iht => exact ((List.suffix_cons _ _).trans iht).trans (List.suffix_cons _ _)
  | bare hs ht iht => exact iht
  | last ht hs iht => exact iht
  | more ht hu iht ihu => exact (ihu.trans (List.suffix_cons _ _)).trans iht

end Parse
end ComplexCalculator
