import ComplexCalculator.Scope.Store

/-!
# Single changes of a store

Everything that happens to a store is one of four changes in one of its scopes: a new scope inside
of it, a constant, a function, or the removal of a name. For each of them it is said what every
scope binds and what every cell holds afterwards. A store is sound when scopes lie inside of older
ones, every definition that is bound has been made, and no definition is bound twice; every change
keeps this.
-/
namespace ComplexCalculator

inductive Body
  | native (native : Native)
  | custom (parameters : List String) (body : Expr)

def Body.make : Body → Nat → Function
  | .native f, n => .native n f
  | .custom parameters t, n => .custom n parameters t

theorem Body.make_serial (b : Body) (n : Nat) : (b.make n).serial = n := by
  cases b <;> rfl

inductive Change
  | child (settings : Option Settings)
  | constant (name : String) (value : Number)
  | function (name : String) (body : Body)
  | undefine (name : String)

def Change.name? : Change → Option String
  | .child _ => none
  | .constant name _ | .function name _ | .undefine name => some name

namespace Store

def change (s : Store) (i : Nat) : Change → Store
  | .child settings => (s.child i settings).2
  | .constant name value => s.defineConstant i name value
  | .function name body => s.defineFunction i name body.make
  | .undefine name => s.undefine i name

theorem scopes_size_update (s : Store) (i : Nat) (f : Bindings → Bindings) :
    (s.update i f).scopes.size = s.scopes.size := Array.size_modify

theorem scopeSettings_update (s : Store) (i j : Nat) (f : Bindings → Bindings) :
    (s.update i f).scopes[j]?.bind (·.settings) = s.scopes[j]?.bind (·.settings) := by
  simp only [update, Array.getElem?_modify]
  by_cases hij : i = j
  · subst hij
    cases s.scopes[i]? <;> simp
  · simp [hij]

theorem local?_child (s : Store) (i : Nat) (settings : Option Settings) (j : Nat) (name : String) :
    (s.child i settings).2.local? j name = s.local? j name := by
  simp only [local?, bindings, child, Array.getElem?_push]
  by_cases hj : j = s.scopes.size
  · simp [hj]
  · rw [if_neg hj]

theorem chain_child (s : Store) (i : Nat) (settings : Option Settings) (j : Nat) :
    (s.child i settings).2.chain j =
      if j = s.scopes.size then j :: s.chain i else s.chain j := by
  simp only [chain, child, Array.getElem?_push]
  by_cases hj : j = s.scopes.size
  · simp [hj]
  · simp [hj]

def cellFor (s : Store) (i : Nat) (name : String) : Nat :=
  match s.local? i name with
  | some (.constant cell) => cell
  | _ => s.cells.size

theorem cellFor_of_constant {s : Store} {i cell : Nat} {name : String}
    (h : s.local? i name = some (.constant cell)) : s.cellFor i name = cell := by
  simp only [cellFor, h]

theorem cellFor_of_not_constant {s : Store} {i : Nat} {name : String}
    (h : ∀ cell, s.local? i name ≠ some (.constant cell)) : s.cellFor i name = s.cells.size := by
  unfold cellFor
  split
  · rename_i cell hc
    exact absurd hc (h cell)
  · rfl

theorem defineConstant_eq (s : Store) (i : Nat) (name : String) (value : Number) :
    (∃ cell, s.local? i name = some (.constant cell) ∧
      s.defineConstant i name value = { s with cells := s.cells.setIfInBounds cell value }) ∨
    (∀ cell, s.local? i name ≠ some (.constant cell)) ∧
      s.defineConstant i name value =
        { s with cells := s.cells.push value }.bind i name (.constant s.cells.size) := by
  unfold defineConstant
  split
  · rename_i cell hc
    exact .inl ⟨cell, hc, rfl⟩
  · rename_i hc
    exact .inr ⟨hc, rfl⟩

theorem functions_defineConstant (s : Store) (i : Nat) (name : String) (value : Number) :
    (s.defineConstant i name value).functions = s.functions := by
  obtain ⟨cell, -, he⟩ | ⟨-, he⟩ := s.defineConstant_eq i name value
  · rw [he]
  · rw [he]
    rfl

theorem local?_defineConstant {s : Store} {i : Nat} (h : i < s.scopes.size) (name : String)
    (value : Number) (j : Nat) (other : String) :
    (s.defineConstant i name value).local? j other =
      if i = j ∧ name = other then some (.constant (s.cellFor i name)) else s.local? j other := by
  obtain ⟨cell, hc, he⟩ | ⟨hc, he⟩ := s.defineConstant_eq i name value
  · rw [he, cellFor_of_constant hc]
    by_cases hij : i = j ∧ name = other
    · rw [if_pos hij, ← hij.1, ← hij.2]
      exact hc
    · rw [if_neg hij]
      rfl
  · rw [he, cellFor_of_not_constant hc]
    exact local?_bind (s := { s with cells := s.cells.push value }) h j name other _

def HasMade (s : Store) : Definition → Prop
  | .constant cell => cell < s.cells.size
  | .function f => f.serial < s.functions

/-- No definition is bound twice. -/
def Unshared (s : Store) : Prop :=
  ∀ i j a b d e, s.local? i a = some d → s.local? j b = some e → d.isSame e = true → i = j ∧ a = b

structure Sound (s : Store) : Prop where
  outer : ∀ i, ∀ j ∈ (s.chain i).tail, j < i
  made : ∀ i name d, s.local? i name = some d → s.HasMade d
  unshared : s.Unshared

theorem read_defineConstant {s : Store} (h : s.Sound) (i : Nat) (name : String) (value : Number)
    (cell : Nat) :
    (s.defineConstant i name value).read cell =
      if cell = s.cellFor i name then value else s.read cell := by
  obtain ⟨c, hc, he⟩ | ⟨hc, he⟩ := s.defineConstant_eq i name value
  · have hlt : c < s.cells.size := h.made i name _ hc
    rw [he, cellFor_of_constant hc]
    simp only [read, Array.getElem?_setIfInBounds]
    by_cases hcell : c = cell
    · simp [← hcell, hlt]
    · rw [if_neg hcell, if_neg (Ne.symm hcell)]
  · rw [he, cellFor_of_not_constant hc]
    simp only [read, bind, update, Array.getElem?_push]
    by_cases hcell : cell = s.cells.size <;> simp [hcell]

def made? (s : Store) (i : Nat) : Change → Option Definition
  | .child _ | .undefine _ => none
  | .constant name _ => some (.constant (s.cellFor i name))
  | .function _ body => some (.function (body.make s.functions))

theorem local?_change {s : Store} {i : Nat} (h : i < s.scopes.size) (c : Change) (j : Nat)
    (name : String) :
    (s.change i c).local? j name =
      if i = j ∧ c.name? = some name then s.made? i c else s.local? j name := by
  cases c with
  | child settings =>
    rw [if_neg (by simp [Change.name?])]
    exact s.local?_child i settings j name
  | constant a value =>
    simp only [Change.name?, Option.some.injEq]
    exact local?_defineConstant h a value j name
  | function a body =>
    simp only [Change.name?, Option.some.injEq]
    exact local?_bind (s := { s with functions := s.functions + 1 }) h j a name _
  | undefine a =>
    simp only [Change.name?, Option.some.injEq]
    exact local?_undefine h j a name

theorem scopes_change (s : Store) (i : Nat) {c : Change} {name : String}
    (hc : c.name? = some name) : ∃ f, (s.change i c).scopes = (s.update i f).scopes := by
  cases c with
  | child settings => cases hc
  | constant a value =>
    obtain ⟨cell, -, he⟩ | ⟨-, he⟩ := s.defineConstant_eq i a value
    · refine ⟨id, ?_⟩
      have hid : (fun scope : Scope => { scope with bindings := id scope.bindings }) = id := rfl
      rw [change, he, update, hid]
      exact (Array.ext_getElem? fun j => by simp [Array.getElem?_modify]).symm
    · rw [change, he]
      exact ⟨(·.insert a (.constant s.cells.size)), rfl⟩
  | function a body => exact ⟨(·.insert a (.function (body.make s.functions))), rfl⟩
  | undefine a => exact ⟨(·.erase a), rfl⟩

theorem chain_binding (s : Store) (i : Nat) {c : Change} {name : String}
    (hc : c.name? = some name) (j : Nat) : (s.change i c).chain j = s.chain j := by
  obtain ⟨f, hf⟩ := s.scopes_change i hc
  rw [← chain_update s i j f, chain, chain, hf]

theorem scopeSettings_binding (s : Store) (i : Nat) {c : Change} {name : String}
    (hc : c.name? = some name) (j : Nat) :
    (s.change i c).scopes[j]?.bind (·.settings) = s.scopes[j]?.bind (·.settings) := by
  obtain ⟨f, hf⟩ := s.scopes_change i hc
  rw [hf, scopeSettings_update]

theorem scopes_size_binding (s : Store) (i : Nat) {c : Change} {name : String}
    (hc : c.name? = some name) : (s.change i c).scopes.size = s.scopes.size := by
  obtain ⟨f, hf⟩ := s.scopes_change i hc
  rw [hf, scopes_size_update]

theorem chain_change_cases (s : Store) (i : Nat) (c : Change) (j : Nat) :
    (s.change i c).chain j = s.chain j ∨
      j = s.scopes.size ∧ (s.change i c).chain j = j :: s.chain i := by
  cases c with
  | child settings =>
    have hc := s.chain_child i settings j
    split at hc
    · rename_i hj
      exact .inr ⟨hj, hc⟩
    · exact .inl hc
  | _ => exact .inl (s.chain_binding i rfl j)

theorem read_change {s : Store} (h : s.Sound) (i : Nat) (c : Change) {cell : Nat}
    (hc : s.made? i c ≠ some (.constant cell)) : (s.change i c).read cell = s.read cell := by
  cases c with
  | constant name value =>
    have hne : cell ≠ s.cellFor i name := fun he => hc (by rw [he]; rfl)
    exact (read_defineConstant h i name value cell).trans (if_neg hne)
  | _ => rfl

theorem scopes_size_change (s : Store) (i : Nat) (c : Change) :
    s.scopes.size ≤ (s.change i c).scopes.size := by
  cases c with
  | child settings => simp [change, child]
  | _ => exact Nat.le_of_eq (s.scopes_size_binding i rfl).symm

theorem cells_size_change (s : Store) (i : Nat) (c : Change) :
    s.cells.size ≤ (s.change i c).cells.size := by
  cases c with
  | constant name value =>
    obtain ⟨cell, -, he⟩ | ⟨-, he⟩ := s.defineConstant_eq i name value
    · simp [change, he]
    · simp [change, he, bind, update]
  | _ => exact Nat.le_refl _

theorem functions_change (s : Store) (i : Nat) (c : Change) :
    s.functions ≤ (s.change i c).functions := by
  cases c with
  | constant name value => exact Nat.le_of_eq (s.functions_defineConstant i name value).symm
  | function name body => exact Nat.le_succ _
  | _ => exact Nat.le_refl _

theorem HasMade.change {s : Store} {d : Definition} (h : s.HasMade d) (i : Nat) (c : Change) :
    (s.change i c).HasMade d := by
  cases d with
  | constant cell => exact Nat.lt_of_lt_of_le h (s.cells_size_change i c)
  | function f => exact Nat.lt_of_lt_of_le h (s.functions_change i c)

theorem isSame_symm {d e : Definition} (h : d.isSame e = true) : e.isSame d = true := by
  cases d <;> cases e <;> simp_all [Definition.isSame]

theorem hasMade_of_isSame {s : Store} {d e : Definition} (h : d.isSame e = true)
    (hd : s.HasMade d) : s.HasMade e := by
  cases d <;> cases e <;> simp_all [Definition.isSame, HasMade]

theorem made?_cases {s : Store} {i : Nat} {c : Change} {d : Definition} (h : s.made? i c = some d) :
    (∃ name, c.name? = some name ∧ s.local? i name = some d) ∨ ¬ s.HasMade d := by
  cases c with
  | child settings => cases h
  | undefine name => cases h
  | constant name value =>
    cases h
    by_cases hc : ∃ cell, s.local? i name = some (.constant cell)
    · obtain ⟨cell, hc⟩ := hc
      exact .inl ⟨name, rfl, by rw [cellFor_of_constant hc, hc]⟩
    · rw [cellFor_of_not_constant fun cell he => hc ⟨cell, he⟩]
      exact .inr (Nat.lt_irrefl _)
  | function name body =>
    cases h
    refine .inr ?_
    rw [HasMade, Body.make_serial]
    exact Nat.lt_irrefl _

theorem hasMade_made? {s : Store} (hs : s.Sound) {i : Nat} {c : Change} {d : Definition}
    (h : s.made? i c = some d) : (s.change i c).HasMade d := by
  obtain ⟨name, -, hl⟩ | hn := made?_cases h
  · exact (hs.made i name d hl).change i c
  · cases c with
    | child settings => cases h
    | undefine name => cases h
    | constant name value =>
      cases h
      obtain ⟨cell, hc, -⟩ | ⟨hc, he⟩ := s.defineConstant_eq i name value
      · rw [cellFor_of_constant hc] at hn
        exact absurd (hs.made i name _ hc) hn
      · simp [HasMade, change, he, cellFor_of_not_constant hc, bind, update]
    | function name body =>
      cases h
      rw [HasMade, Body.make_serial]
      exact Nat.lt_succ_self _

theorem Sound.eq_of_made? {s : Store} (h : s.Sound) {i j : Nat} {c : Change} {name : String}
    {d e : Definition} (hd : s.made? i c = some d) (he : s.local? j name = some e)
    (hsame : d.isSame e = true) : i = j ∧ c.name? = some name := by
  obtain ⟨other, hc, hl⟩ | hn := made?_cases hd
  · obtain ⟨hij, hname⟩ := h.unshared i j other name d e hl he hsame
    exact ⟨hij, hname ▸ hc⟩
  · exact absurd (hasMade_of_isSame (isSame_symm hsame) (h.made j name e he)) hn

theorem Sound.change {s : Store} (h : s.Sound) {i : Nat} (hi : i < s.scopes.size) (c : Change) :
    (s.change i c).Sound where
  outer := by
    intro j k hk
    obtain hc | ⟨hj, hc⟩ := s.chain_change_cases i c j
    · exact h.outer j k (hc ▸ hk)
    · rw [hc, List.tail_cons] at hk
      rcases List.mem_cons.1 hk with rfl | hk
      · exact hj ▸ hi
      · exact Nat.lt_trans (h.outer i k hk) (hj ▸ hi)
  made := by
    intro j name d hd
    rw [local?_change hi] at hd
    split at hd
    · exact hasMade_made? h hd
    · exact (h.made j name d hd).change i c
  unshared := by
    intro j k a b d e hd he hsame
    rw [local?_change hi] at hd he
    split at hd
    · rename_i hj
      split at he
      · rename_i hk
        exact ⟨hj.1.symm.trans hk.1, Option.some.inj (hj.2.symm.trans hk.2)⟩
      · rename_i hk
        exact absurd (h.eq_of_made? hd he hsame) hk
    · rename_i hj
      split at he
      · exact absurd (h.eq_of_made? he hd (isSame_symm hsame)) hj
      · exact h.unshared j k a b d e hd he hsame

theorem bound_before {s : Store} {i : Nat} (hi : i < s.scopes.size) {c : Change} {d : Definition}
    (hd : s.HasMade d) {j : Nat} {name : String} (h : (s.change i c).local? j name = some d) :
    s.local? j name = some d := by
  rw [local?_change hi] at h
  split at h
  · rename_i hj
    obtain ⟨other, hc, hl⟩ | hn := made?_cases h
    · rw [← hj.1, ← Option.some.inj (hc.symm.trans hj.2)]
      exact hl
    · exact absurd hd hn
  · exact h

def Retired (s : Store) (cell : Nat) : Prop :=
  cell < s.cells.size ∧ ∀ i name, s.local? i name ≠ some (.constant cell)

theorem Retired.made?_ne {s : Store} {cell : Nat} (h : s.Retired cell) (i : Nat) (c : Change) :
    s.made? i c ≠ some (.constant cell) := by
  intro hm
  obtain ⟨name, -, hl⟩ | hn := made?_cases hm
  · exact h.2 i name hl
  · exact hn h.1

end Store
end ComplexCalculator
