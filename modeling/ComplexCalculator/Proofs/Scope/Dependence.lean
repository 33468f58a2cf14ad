import ComplexCalculator.Proofs.Parse.RoundTrip
import ComplexCalculator.Proofs.Expr.Names
import ComplexCalculator.Proofs.Scope.Evaluation

/-!
# What a value may depend on

Two scopes, of one store or of two, give a tree the same value when they have the same settings and
the same constants under its free names. What else is bound does not count, in particular not what
the names of its calls are bound to later, unless such a name is free in the tree as well: the body
of a function may read as a symbol what the tree calls.
-/
namespace ComplexCalculator.Store

/-- What becomes of a store by new scopes and by changes of the bindings of some names. -/
inductive Rebinds (names : List String) (s : Store) : Store → Prop
  | refl : Rebinds names s s
  | child {s'} (h : Rebinds names s s') {i} (hi : i < s'.scopes.size) :
      Rebinds names s (s'.change i (.child none))
  | binding {s'} (h : Rebinds names s s') {i} (hi : i < s'.scopes.size) {c : Change} {name}
      (hc : c.name? = some name) (hname : name ∈ names) : Rebinds names s (s'.change i c)

/-- A scope of the later store is the scope of the earlier one, or a new scope inside of it. -/
def Inside (s s' : Store) (i j : Nat) : Prop :=
  ∃ inner, s'.chain j = inner ++ s.chain i ∧ ∀ k ∈ inner, s.scopes.size ≤ k

namespace Rebinds
variable {names : List String} {s s' : Store}

theorem evolves (h : s.Rebinds names s') : s.Evolves s' := by
  induction h with
  | refl => exact .refl
  | child h hi ih => exact ih.change hi _
  | binding h hi hc hname ih => exact ih.change hi _

theorem get?_eq (h : s.Rebinds names s') (hs : s.Sound) {name : String} (hn : name ∉ names)
    (k : Nat) : s'.maps.get? k name = s.maps.get? k name := by
  induction h with
  | refl => rfl
  | child h hi ih =>
    rw [get?_change (h.evolves.sound hs) hi, if_neg (by simp [Change.name?]), ih]
  | @binding s' h i hi c other hc hother ih =>
    have hne : ¬(i = k ∧ c.name? = some name) := by
      rintro ⟨-, hname⟩
      obtain rfl := Option.some.inj (hc.symm.trans hname)
      exact hn hother
    rw [get?_change (h.evolves.sound hs) hi, if_neg hne, ih]

theorem settings?_eq (h : s.Rebinds names s') (k : Nat) :
    s'.maps.settings? k = s.maps.settings? k := by
  induction h with
  | refl => rfl
  | @child s' h i hi ih =>
    rw [← ih]
    by_cases hk : k = s'.scopes.size <;>
      simp [maps, change, Store.child, Array.getElem?_push, hk]
  | binding h hi hc hname ih => exact (scopeSettings_binding _ _ hc k).trans ih

theorem get?_fresh (s : Store) {k : Nat} (hk : s.scopes.size ≤ k) (name : String) :
    s.maps.get? k name = none :=
  congrArg (Option.map s.entry) (local?_fresh s hk name)

theorem settings?_fresh (s : Store) {k : Nat} (hk : s.scopes.size ≤ k) :
    s.maps.settings? k = none := by
  simp [maps, Array.getElem?_eq_none hk]

theorem constant?_eq (h : s.Rebinds names s') (hs : s.Sound) {i j : Nat} (hj : s.Inside s' i j)
    {name : String} (hn : name ∉ names) : s'.constant? j name = s.constant? i name := by
  obtain ⟨inner, hchain, hinner⟩ := hj
  have hnone : inner.findSome? (fun k => s.maps.get? k name) = none :=
    List.findSome?_eq_none_iff.2 fun k hk => get?_fresh s (hinner k hk) name
  have hlookup : s'.maps.lookup? j name = s.maps.lookup? i name := by
    change (s'.chain j).findSome? (fun k => s'.maps.get? k name) =
      (s.chain i).findSome? fun k => s.maps.get? k name
    rw [hchain, funext (h.get?_eq hs hn), List.findSome?_append, hnone, Option.none_or]
  rw [← maps_constant?, ← maps_constant?, Maps.constant?, Maps.constant?, hlookup]

theorem settings_eq (h : s.Rebinds names s') {i j : Nat} (hj : s.Inside s' i j) :
    s'.settings j = s.settings i := by
  obtain ⟨inner, hchain, hinner⟩ := hj
  have hnone : inner.findSome? s.maps.settings? = none :=
    List.findSome?_eq_none_iff.2 fun k hk => settings?_fresh s (hinner k hk)
  change ((s'.chain j).findSome? s'.maps.settings?).getD _ =
    ((s.chain i).findSome? s.maps.settings?).getD _
  rw [hchain, funext h.settings?_eq, List.findSome?_append, hnone, Option.none_or]

end Rebinds

/-- A tree has the same value and the same reports wherever the settings are the same and its free
names show the same constants. So whatever becomes of the names of its calls, in its scope, around
it or in new scopes inside of it, does not matter as long as those of them that are free in the tree
show the same constants. In the scope of a call a parameter shows its argument. -/
theorem evaluation_depends_on_free_names (t : Expr) :
    (∀ (s s' : Store) (i j : Nat),
      (s.settings i).unresolved = (s'.settings j).unresolved →
      (s.settings i).factorial = (s'.settings j).factorial →
      (∀ a ∈ t.free, s.constant? i a = s'.constant? j a) →
      t.evaluate (s.context i) = t.evaluate (s'.context j)) ∧
    ∀ (settings : Option Settings) (cs : List (Nat × Command)),
      let s := (root settings).run cs
      (∀ s', s.Rebinds t.called s' → ∀ i j, s.Inside s' i j →
        (∀ a ∈ t.called, a ∈ t.free → s'.constant? j a = s.constant? i a) →
        t.evaluate (s'.context j) = t.evaluate (s.context i)) ∧
      ∀ i < s.scopes.size, ∀ (parameters : List String) (arguments : List Number),
        arguments.length = parameters.length → ∀ a ∈ parameters,
          ∃ v ∈ arguments, argument? parameters arguments a = some v ∧
            (s.enter i parameters arguments).constant? s.scopes.size a = some v := by
  refine ⟨fun s s' i j hu hf hc => Expr.evaluate_congr ⟨hu, hf, hc⟩,
    fun settings cs => ?_⟩
  intro s
  have hs : s.Sound := sound_run settings cs
  refine ⟨fun s' h i j hj hc => ?_, fun i hi parameters arguments hl a ha => ?_⟩
  · have hsettings := h.settings_eq hj
    refine Expr.evaluate_congr ⟨congrArg Settings.unresolved hsettings,
      congrArg Settings.factorial hsettings, fun a ha => ?_⟩
    by_cases hcalled : a ∈ t.called
    · exact hc a hcalled ha
    · exact h.constant?_eq hs hj hcalled
  · obtain ⟨v, hv, hargument⟩ := Context.exists_argument hl ha
    have hcontext := context_enter hs hi parameters arguments
    have hbind : ((s.context i).bind parameters arguments).constant? a = some v := by
      rw [Context.bind_constant?, hargument, Option.some_or]
    exact ⟨v, hv, hargument, (congrFun (congrArg Context.constant? hcontext) a).trans hbind⟩

/-- The body of `h` reads the symbol `g`. While `g` is a function it has no value there, and when the
function is removed an outer constant shows: so the value of `h(g(1))` changes with the binding of a
name that it calls. -/
theorem undefine_called_name_changes_value :
    let negate : List Number → Option Number
      | [x] => some (-x)
      | _ => none
    let s := (root none).run [(0, .constant "g" (.ofReal 5)), (0, .custom "h" ["x"] (.symbol "g")),
      (0, .child none), (1, .native "g" 1 negate)]
    let g := Function.native 1 (.unary fun x => some (-x))
    let h := Function.custom 0 ["x"] (.symbol "g")
    let t := Expr.call "h" (some h) [.call "g" (some g) [.number (.ofReal 1)]]
    s.parse 1 (.text "h(g(1))") = .ok t ∧ "g" ∈ t.called ∧
      t.evaluate ((s.undefine 1 "g").context 1) ≠ t.evaluate (s.context 1) := by
  intro negate s g h t
  have hone : Number.IsLiteral (.ofReal 1) := ⟨Number.isReal_ofReal _, .inr (by decide +kernel)⟩
  have hg : Expr.WellFormed (s.vocabulary 1) (.call "g" (some g) [.number (.ofReal 1)]) :=
    .call (isName_of_all (by decide) (by decide)) rfl (by simp) (by simpa using .number hone)
  have ht : t.WellFormed (s.vocabulary 1) :=
    .call (isName_of_all (by decide) (by decide)) rfl (by simp) (by simpa using hg)
  refine ⟨parse_text.2 (Parse.parse_render ht), by decide, fun he => ?_⟩
  have hevents := congrArg Traced.events he
  revert hevents
  decide +kernel

end ComplexCalculator.Store
