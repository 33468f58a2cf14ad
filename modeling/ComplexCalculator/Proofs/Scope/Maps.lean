import ComplexCalculator.Proofs.Scope.Command

/-!
# Scopes as plain maps

The reference for a store: every scope is a map from names to numbers and functions, a definition
overwrites one entry of one map, and a look-up takes the first entry from the inside out. There are
no cells. A store shows such maps when its cells are read, and a change of the store is the same
change of the maps that it shows.
-/
namespace ComplexCalculator

inductive Entry
  | constant (value : Number)
  | function (function : Function)

@[ext]
structure Maps where
  size : Nat
  outer : Nat → List Nat
  settings? : Nat → Option Settings
  get? : Nat → String → Option Entry
  functions : Nat

namespace Maps

def root (settings : Option Settings) : Maps :=
  { size := 1, outer := fun _ => [], settings? := fun i => if i = 0 then settings else none,
    get? := fun _ _ => none, functions := 0 }

def chain (m : Maps) (i : Nat) : List Nat := i :: m.outer i

def lookup? (m : Maps) (i : Nat) (name : String) : Option Entry :=
  (m.chain i).findSome? fun j => m.get? j name

def constant? (m : Maps) (i : Nat) (name : String) : Option Number :=
  match m.lookup? i name with
  | some (.constant value) => some value
  | _ => none

def meaning (m : Maps) (i : Nat) (name : String) : Meaning :=
  match m.lookup? i name with
  | some (.function f) => .function f
  | some (.constant _) => .constant
  | none => .unknown

def settings (m : Maps) (i : Nat) : Settings :=
  ((m.chain i).findSome? m.settings?).getD .standard

def vocabulary (m : Maps) (i : Nat) : Vocabulary :=
  { meaning := m.meaning i, isStrict := (m.settings i).isStrict }

def context (m : Maps) (i : Nat) : Context :=
  { constant? := m.constant? i, fallback := (m.settings i).unresolved,
    policy := (m.settings i).factorial }

def set (m : Maps) (i : Nat) (name : String) (e : Option Entry) : Maps :=
  { m with get? := fun j other => if i = j ∧ name = other then e else m.get? j other }

def change (m : Maps) (i : Nat) : Change → Maps
  | .child settings =>
    { m with
      size := m.size + 1
      outer := fun j => if j = m.size then m.chain i else m.outer j
      settings? := fun j => if j = m.size then settings else m.settings? j }
  | .constant name value => m.set i name (some (.constant value))
  | .function name body =>
    { m with functions := m.functions + 1 }.set i name (some (.function (body.make m.functions)))
  | .undefine name => m.set i name none

def changeAll (m : Maps) (i : Nat) (cs : List Change) : Maps :=
  cs.foldl (fun m c => m.change i c) m

def obey (m : Maps) (i : Nat) (c : Command) : Maps :=
  m.changeAll i (c.changes (m.vocabulary i) (m.context i))

def run (m : Maps) : List (Nat × Command) → Maps
  | [] => m
  | (i, c) :: cs => run (if i < m.size then m.obey i c else m) cs

theorem run_append (m : Maps) (cs ds : List (Nat × Command)) :
    m.run (cs ++ ds) = (m.run cs).run ds := by
  induction cs generalizing m with
  | nil => rfl
  | cons c cs ih => exact ih _

end Maps

namespace Store

def entry (s : Store) : Definition → Entry
  | .constant cell => .constant (s.read cell)
  | .function f => .function f

def maps (s : Store) : Maps :=
  { size := s.scopes.size
    outer := fun i => (s.chain i).tail
    settings? := fun i => s.scopes[i]?.bind (·.settings)
    get? := fun i name => (s.local? i name).map s.entry
    functions := s.functions }

theorem maps_lookup? (s : Store) (i : Nat) (name : String) :
    s.maps.lookup? i name = (s.lookup? i name).map s.entry := by
  simp only [Maps.lookup?, lookup?, maps, List.map_findSome?]
  rfl

theorem maps_constant? (s : Store) (i : Nat) (name : String) :
    s.maps.constant? i name = s.constant? i name := by
  simp only [Maps.constant?, constant?, maps_lookup?]
  cases s.lookup? i name with
  | none => rfl
  | some d => cases d <;> rfl

theorem maps_settings (s : Store) (i : Nat) : s.maps.settings i = s.settings i := rfl

theorem maps_vocabulary (s : Store) (i : Nat) : s.maps.vocabulary i = s.vocabulary i := by
  simp only [Maps.vocabulary, vocabulary, maps_settings, Vocabulary.mk.injEq, and_true]
  funext name
  simp only [Maps.meaning, meaning, maps_lookup?]
  cases s.lookup? i name with
  | none => rfl
  | some d => cases d <;> rfl

theorem maps_context (s : Store) (i : Nat) : s.maps.context i = s.context i := by
  simp only [Maps.context, context, maps_settings, Context.mk.injEq, and_true]
  funext name
  exact s.maps_constant? i name

theorem maps_root (settings : Option Settings) : (root settings).maps = Maps.root settings := by
  apply Maps.ext
  · rfl
  · funext i
    exact congrArg List.tail (chain_root settings i)
  · funext i
    cases i <;> simp [maps, root, Maps.root]
  · funext i name
    simp only [maps, local?_root, Option.map_none, Maps.root]
  · rfl

theorem entry_change {s : Store} (h : s.Sound) {i j : Nat} {c : Change} {name : String}
    {d : Definition} (hd : s.local? j name = some d) (hj : ¬(i = j ∧ c.name? = some name)) :
    (s.change i c).entry d = s.entry d := by
  cases d with
  | constant cell =>
    -- Otherwise the cell would be bound in both places.
    have hm : s.made? i c ≠ some (.constant cell) :=
      fun hm => hj (h.eq_of_made? hm hd (beq_self_eq_true cell))
    exact congrArg Entry.constant (read_change h i c hm)
  | function f => rfl

theorem get?_change {s : Store} (h : s.Sound) {i : Nat} (hi : i < s.scopes.size) (c : Change)
    (j : Nat) (name : String) :
    (s.change i c).maps.get? j name =
      if i = j ∧ c.name? = some name then (s.made? i c).map (s.change i c).entry
      else s.maps.get? j name := by
  simp only [maps, local?_change hi]
  split
  · rfl
  · rename_i hj
    cases hd : s.local? j name with
    | none => rfl
    | some d => exact congrArg some (entry_change h hd hj)

theorem maps_child (s : Store) (i : Nat) (settings : Option Settings) :
    (s.child i settings).2.maps = s.maps.change i (.child settings) := by
  apply Maps.ext
  · exact Array.size_push _
  · funext j
    change ((s.child i settings).2.chain j).tail =
      if j = s.scopes.size then s.chain i else (s.chain j).tail
    rw [chain_child]
    split <;> rfl
  · funext j
    by_cases hj : j = s.scopes.size <;> simp [maps, Maps.change, child, Array.getElem?_push, hj]
  · funext j name
    simp only [maps, local?_child]
    rfl
  · rfl

theorem maps_binding {s : Store} (h : s.Sound) {i : Nat} (hi : i < s.scopes.size) {c : Change}
    {name : String} (hc : c.name? = some name) :
    (s.change i c).maps =
      { s.maps with functions := (s.change i c).functions }.set i name
        ((s.made? i c).map (s.change i c).entry) := by
  apply Maps.ext
  · exact s.scopes_size_binding i hc
  · funext j
    exact congrArg List.tail (s.chain_binding i hc j)
  · funext j
    exact s.scopeSettings_binding i hc j
  · funext j other
    rw [get?_change h hi, hc]
    simp only [Maps.set, Option.some.injEq]
  · rfl

theorem maps_change {s : Store} (h : s.Sound) {i : Nat} (hi : i < s.scopes.size) (c : Change) :
    (s.change i c).maps = s.maps.change i c := by
  cases c with
  | child settings => exact s.maps_child i settings
  | constant name value =>
    have hread : (s.change i (.constant name value)).read (s.cellFor i name) = value :=
      (read_defineConstant h i name value _).trans (if_pos rfl)
    have hfunctions : (s.change i (.constant name value)).functions = s.functions :=
      s.functions_defineConstant i name value
    rw [maps_binding h hi rfl, hfunctions]
    simp only [made?, Option.map_some, entry, hread]
    rfl
  | function name body => exact maps_binding h hi rfl
  | undefine name => exact maps_binding h hi rfl

theorem maps_changeAll {s : Store} (h : s.Sound) {i : Nat} (hi : i < s.scopes.size)
    (cs : List Change) : (s.changeAll i cs).maps = s.maps.changeAll i cs := by
  induction cs generalizing s with
  | nil => rfl
  | cons c cs ih =>
    have hs := ih (h.change hi c) (Nat.lt_of_lt_of_le hi (s.scopes_size_change i c))
    rw [maps_change h hi c] at hs
    exact hs

end Store
end ComplexCalculator
