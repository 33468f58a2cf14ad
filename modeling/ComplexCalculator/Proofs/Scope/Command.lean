import ComplexCalculator.Proofs.Scope.Change
import ComplexCalculator.Scope.Standard
import ComplexCalculator.Session.Line

/-!
# Runs of commands

A command is sent to a scope: it makes a scope inside, defines or removes names, or runs a line.
Each command is a list of changes in its scope, and which ones depends only on how texts are read
and trees are evaluated there. So what every change keeps is kept by every run.
-/
namespace ComplexCalculator

inductive Command
  | child (settings : Option Settings)
  | standard
  | constant (name : String) (value : Number)
  | native (name : String) (arity : Int) (apply : List Number → Option Number)
  | custom (name : String) (parameters : List String) (body : Expr)
  | undefine (name : String)
  | execute (source : Text.Source)

/-- What a tree changes when it is run as a line. -/
def Expr.changes (c : Context) : Expr → List Change
  | .define name t =>
    if (t.evaluate c).value.isUndefined then [.undefine name]
    else [.constant name (t.evaluate c).value]
  | _ => []

def Command.changes (v : Vocabulary) (c : Context) : Command → List Change
  | .child settings => [.child settings]
  | .standard =>
    Standard.constants.map (fun c => .constant c.1 c.2) ++
      Standard.natives.map fun f => .function f.1 (.native f.2)
  | .constant name value => [.constant name value]
  | .native name arity apply =>
    match Native.ofArity arity apply with
    | .ok f => [.function name (.native f)]
    | .error _ => []
  | .custom name parameters body => [.function name (.custom parameters body)]
  | .undefine name => [.undefine name]
  | .execute source =>
    match source.read? with
    | none => []
    | some text =>
      match parse v text with
      | .ok t => t.changes c
      | .error _ => []

namespace Store

def obey (s : Store) (i : Nat) : Command → Store
  | .child settings => (s.child i settings).2
  | .standard => s.defineStandard i
  | .constant name value => s.defineConstant i name value
  | .native name arity apply =>
    match Native.ofArity arity apply with
    | .ok f => s.defineNative i name f
    | .error _ => s
  | .custom name parameters body => s.defineCustom i name parameters body
  | .undefine name => s.undefine i name
  | .execute source =>
    match s.execute i source with
    | .ok r => r.store
    | .error _ => s

/-- A run of commands, each with the scope that it is sent to; there is nobody to obey where there
is no scope. -/
def run (s : Store) : List (Nat × Command) → Store
  | [] => s
  | (i, c) :: cs => run (if i < s.scopes.size then s.obey i c else s) cs

theorem run_append (s : Store) (cs ds : List (Nat × Command)) :
    s.run (cs ++ ds) = (s.run cs).run ds := by
  induction cs generalizing s with
  | nil => rfl
  | cons c cs ih => exact ih _

def changeAll (s : Store) (i : Nat) (cs : List Change) : Store :=
  cs.foldl (fun s c => s.change i c) s

theorem defineStandard_eq (s : Store) (i : Nat) :
    s.defineStandard i = s.changeAll i
      (Standard.constants.map (fun c => .constant c.1 c.2) ++
        Standard.natives.map fun f => .function f.1 (.native f.2)) := by
  rw [changeAll, List.foldl_append, List.foldl_map, List.foldl_map]
  rfl

theorem perform_store (s : Store) (i : Nat) (t : Expr) :
    (s.perform i t).store = s.changeAll i (t.changes (s.context i)) := by
  cases t with
  | define name e =>
    simp only [perform, Expr.changes]
    split <;> rfl
  | _ => rfl

theorem obey_eq (s : Store) (i : Nat) (c : Command) :
    s.obey i c = s.changeAll i (c.changes (s.vocabulary i) (s.context i)) := by
  cases c with
  | standard => exact s.defineStandard_eq i
  | native name arity apply =>
    simp only [obey, Command.changes]
    cases Native.ofArity arity apply <;> rfl
  | execute source =>
    simp only [obey, Command.changes, execute, parse]
    cases hr : source.read? with
    | none => rfl
    | some text =>
      cases hp : ComplexCalculator.parse (s.vocabulary i) text with
      | error e =>
        simp only [hp]
        rfl
      | ok t =>
        simp only [hp]
        exact s.perform_store i t
  | _ => rfl

inductive Evolves (s : Store) : Store → Prop
  | refl : Evolves s s
  | change {s'} (h : Evolves s s') {i} (hi : i < s'.scopes.size) (c : Change) :
      Evolves s (s'.change i c)

theorem evolves_changeAll {s s' : Store} (h : s.Evolves s') {i : Nat} (hi : i < s'.scopes.size)
    (cs : List Change) : s.Evolves (s'.changeAll i cs) := by
  induction cs generalizing s' with
  | nil => exact h
  | cons c cs ih =>
    exact ih (h.change hi c) (Nat.lt_of_lt_of_le hi (s'.scopes_size_change i c))

theorem evolves_run {s s' : Store} (h : s.Evolves s') (cs : List (Nat × Command)) :
    s.Evolves (s'.run cs) := by
  induction cs generalizing s' with
  | nil => exact h
  | cons c cs ih =>
    obtain ⟨i, c⟩ := c
    refine ih ?_
    split
    · rename_i hi
      rw [obey_eq]
      exact evolves_changeAll h hi _
    · exact h

theorem Evolves.sound {s s' : Store} (h : s.Evolves s') (hs : s.Sound) : s'.Sound := by
  induction h with
  | refl => exact hs
  | change h hi c ih => exact ih.change hi c

theorem Evolves.hasMade {s s' : Store} (h : s.Evolves s') {d : Definition} (hd : s.HasMade d) :
    s'.HasMade d := by
  induction h with
  | refl => exact hd
  | change h hi c ih => exact ih.change _ c

theorem Evolves.bound_before {s s' : Store} (h : s.Evolves s') {d : Definition} (hd : s.HasMade d)
    {j : Nat} {name : String} (hl : s'.local? j name = some d) : s.local? j name = some d := by
  induction h with
  | refl => exact hl
  | change h hi c ih => exact ih (Store.bound_before hi (h.hasMade hd) hl)

theorem Evolves.retired {s s' : Store} (h : s.Evolves s') (hs : s.Sound) {cell : Nat}
    (hc : s.Retired cell) : s'.Retired cell ∧ s'.read cell = s.read cell := by
  have hd : s.HasMade (.constant cell) := hc.1
  induction h with
  | refl => exact ⟨hc, rfl⟩
  | @change s' h i hi c ih =>
    have he := read_change (h.sound hs) i c (ih.1.made?_ne i c)
    exact ⟨⟨(h.change hi c).hasMade hd,
      fun j name hl => hc.2 j name ((h.change hi c).bound_before hd hl)⟩, he.trans ih.2⟩

theorem Evolves.retired_of_unbound {s s' : Store} (h : s.Evolves s') (hs : s.Sound) {i : Nat}
    {name : String} {cell : Nat} (hc : s.local? i name = some (.constant cell))
    (hl : s'.local? i name ≠ some (.constant cell)) : s'.Retired cell := by
  have hmade := hs.made i name _ hc
  refine ⟨h.hasMade hmade, fun j other hj => hl ?_⟩
  have hbefore := h.bound_before hmade hj
  obtain ⟨rfl, rfl⟩ := hs.unshared i j name other _ _ hc hbefore (beq_self_eq_true cell)
  exact hj

theorem local?_root (settings : Option Settings) (i : Nat) (name : String) :
    (root settings).local? i name = none := by
  cases i <;> simp [local?, bindings, root]

theorem chain_root (settings : Option Settings) (i : Nat) : (root settings).chain i = [i] := by
  cases i <;> simp [chain, root]

theorem sound_root (settings : Option Settings) : (root settings).Sound where
  outer i j hj := by
    rw [chain_root] at hj
    cases hj
  made i name d hd := by
    rw [local?_root] at hd
    cases hd
  unshared i j a b d e hd := by
    rw [local?_root] at hd
    cases hd

theorem sound_run (settings : Option Settings) (cs : List (Nat × Command)) :
    ((root settings).run cs).Sound :=
  (evolves_run .refl cs).sound (sound_root settings)

end Store
end ComplexCalculator
