import Std.Data.TreeMap
import ComplexCalculator.Parse.Machine
import ComplexCalculator.Scope.Definition

/-!
# Scopes

A store holds scopes and the cells of constants. A scope binds names of its own and knows the scopes
around it, the innermost first; a look-up takes the first binding on that way. Defining a constant
writes into its cell when the name is a constant of that very scope, and otherwise makes a new cell.
Nothing is ever written into an outer scope.
-/
namespace ComplexCalculator

abbrev Bindings := Std.TreeMap String Definition

structure Scope where
  outer : List Nat
  settings : Option Settings
  bindings : Bindings

structure Store where
  scopes : Array Scope
  cells : Array Number
  functions : Nat

namespace Store

def root (settings : Option Settings) : Store :=
  { scopes := #[⟨[], settings, ∅⟩], cells := #[], functions := 0 }

def chain (s : Store) (i : Nat) : List Nat :=
  i :: match s.scopes[i]? with
    | some scope => scope.outer
    | none => []

def bindings (s : Store) (i : Nat) : Bindings :=
  match s.scopes[i]? with
  | some scope => scope.bindings
  | none => ∅

def local? (s : Store) (i : Nat) (name : String) : Option Definition :=
  (s.bindings i)[name]?

def lookup? (s : Store) (i : Nat) (name : String) : Option Definition :=
  (s.chain i).findSome? fun j => s.local? j name

def read (s : Store) (cell : Nat) : Number :=
  s.cells[cell]?.getD Number.nan

def constant? (s : Store) (i : Nat) (name : String) : Option Number :=
  match s.lookup? i name with
  | some (.constant cell) => some (s.read cell)
  | _ => none

def settings (s : Store) (i : Nat) : Settings :=
  ((s.chain i).findSome? fun j => s.scopes[j]?.bind (·.settings)).getD .standard

def meaning (s : Store) (i : Nat) (name : String) : Meaning :=
  match s.lookup? i name with
  | some (.function f) => .function f
  | some (.constant _) => .constant
  | none => .unknown

theorem meaning_eq_function_iff {s : Store} {i : Nat} {name : String} {f : Function} :
    s.meaning i name = .function f ↔ s.lookup? i name = some (.function f) := by
  unfold meaning
  split <;> simp_all

theorem meaning_eq_unknown_iff {s : Store} {i : Nat} {name : String} :
    s.meaning i name = .unknown ↔ s.lookup? i name = none := by
  unfold meaning
  split <;> simp_all

def vocabulary (s : Store) (i : Nat) : Vocabulary :=
  { meaning := s.meaning i, isStrict := (s.settings i).isStrict }

def context (s : Store) (i : Nat) : Context :=
  { constant? := s.constant? i, fallback := (s.settings i).unresolved,
    policy := (s.settings i).factorial }

def child (s : Store) (i : Nat) (settings : Option Settings) : Nat × Store :=
  (s.scopes.size, { s with scopes := s.scopes.push ⟨s.chain i, settings, ∅⟩ })

def update (s : Store) (i : Nat) (f : Bindings → Bindings) : Store :=
  { s with scopes := s.scopes.modify i fun scope => { scope with bindings := f scope.bindings } }

def bind (s : Store) (i : Nat) (name : String) (d : Definition) : Store :=
  s.update i (·.insert name d)

def undefine (s : Store) (i : Nat) (name : String) : Store :=
  s.update i (·.erase name)

def defineConstant (s : Store) (i : Nat) (name : String) (value : Number) : Store :=
  match s.local? i name with
  | some (.constant cell) => { s with cells := s.cells.setIfInBounds cell value }
  | _ => { s with cells := s.cells.push value }.bind i name (.constant s.cells.size)

theorem bindings_update (s : Store) (i j : Nat) (f : Bindings → Bindings) :
    (s.update i f).bindings j =
      if i = j ∧ j < s.scopes.size then f (s.bindings j) else s.bindings j := by
  simp only [bindings, update, Array.getElem?_modify]
  by_cases hij : i = j
  · subst hij
    by_cases hi : i < s.scopes.size <;> simp [hi]
  · simp [hij]

theorem chain_update (s : Store) (i j : Nat) (f : Bindings → Bindings) :
    (s.update i f).chain j = s.chain j := by
  simp only [chain, update, Array.getElem?_modify]
  by_cases hij : i = j
  · subst hij
    cases s.scopes[i]? <;> simp
  · simp [hij]

theorem local?_bind {s : Store} {i : Nat} (h : i < s.scopes.size) (j : Nat) (name other : String)
    (d : Definition) :
    (s.bind i name d).local? j other =
      if i = j ∧ name = other then some d else s.local? j other := by
  simp only [local?, bind, bindings_update]
  by_cases hij : i = j
  · subst hij
    simp [h, Std.TreeMap.getElem?_insert, Std.LawfulEqCmp.compare_eq_iff_eq]
  · simp [hij]

theorem local?_undefine {s : Store} {i : Nat} (h : i < s.scopes.size) (j : Nat)
    (name other : String) :
    (s.undefine i name).local? j other =
      if i = j ∧ name = other then none else s.local? j other := by
  simp only [local?, undefine, bindings_update]
  by_cases hij : i = j
  · subst hij
    simp [h, Std.TreeMap.getElem?_erase, Std.LawfulEqCmp.compare_eq_iff_eq]
  · simp [hij]

def defineFunction (s : Store) (i : Nat) (name : String) (make : Nat → Function) : Store :=
  { s with functions := s.functions + 1 }.bind i name (.function (make s.functions))

def defineNative (s : Store) (i : Nat) (name : String) (native : Native) : Store :=
  s.defineFunction i name (.native · native)

def defineCustom (s : Store) (i : Nat) (name : String) (parameters : List String) (body : Expr) :
    Store :=
  s.defineFunction i name (.custom · parameters body)

end Store
end ComplexCalculator
