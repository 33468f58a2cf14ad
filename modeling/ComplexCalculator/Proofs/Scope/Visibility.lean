import Mathlib
import ComplexCalculator.Scope.Listing

/-!
# What a listing shows

A look-up goes outwards and takes the first binding; a listing starts with the outermost scope and
lets every scope inside of it overwrite what is there. Both find the same definition for every name,
whatever is hidden or removed on the way, since an overwriting scope decides exactly where it binds
the name itself. The keys of a sorted map are in order and distinct, so a listing has one line for
each name that a look-up finds.
-/
namespace ComplexCalculator

/-- The order of texts by the codes of their characters. -/
def Text.Precedes (a b : String) : Prop :=
  List.Lex (fun c d : Char => c.toNat < d.toNat) a.toList b.toList

namespace Store

theorem getElem?_foldl_insert (m all : Bindings) (name : String) :
    (m.foldl (fun all other d => all.insert other d) all)[name]? = m[name]?.or all[name]? := by
  rw [Std.TreeMap.foldl_eq_foldl_toList,
    ← (Std.TreeMap.insertMany_list_equiv_foldl (l := m.toList)).getElem?_eq]
  cases hd : m[name]? with
  | some d =>
    have hmem : (name, d) ∈ m.toList := Std.TreeMap.mem_toList_iff_getElem?_eq_some.2 hd
    exact Std.TreeMap.getElem?_insertMany_list_of_mem Std.ReflCmp.compare_self
      Std.TreeMap.distinct_keys_toList hmem
  | none =>
    have hkey : name ∉ m := by
      rw [← Std.TreeMap.isSome_getElem?_iff_mem, hd]
      exact Bool.false_ne_true
    refine Std.TreeMap.getElem?_insertMany_list_of_contains_eq_false ?_
    rw [Std.TreeMap.map_fst_toList_eq_keys]
    simpa using hkey

theorem getElem?_overwrite (s : Store) (scopes : List Nat) (name : String) :
    (scopes.foldr (fun j all => (s.bindings j).foldl (fun all other d => all.insert other d) all)
      (∅ : Bindings))[name]? = scopes.findSome? fun j => s.local? j name := by
  induction scopes with
  | nil => exact Std.TreeMap.getElem?_emptyc
  | cons j scopes ih =>
    rw [List.foldr_cons, getElem?_foldl_insert, ih, List.findSome?_cons, local?]
    cases (s.bindings j)[name]? <;> rfl

theorem getElem?_visible (s : Store) (i : Nat) (name : String) :
    (s.visible i)[name]? = s.lookup? i name :=
  s.getElem?_overwrite (s.chain i) name

section
variable {s : Store} {i : Nat} {name : String}

theorem mem_toList_visible {d : Definition} :
    (name, d) ∈ (s.visible i).toList ↔ s.lookup? i name = some d := by
  rw [Std.TreeMap.mem_toList_iff_getElem?_eq_some, getElem?_visible]

theorem mem_keys_visible :
    name ∈ (s.visible i).keys ↔ (s.lookup? i name).isSome = true := by
  rw [Std.TreeMap.mem_keys, ← getElem?_visible, Std.TreeMap.isSome_getElem?_iff_mem]

theorem keys_pairwise_precedes (m : Bindings) : m.keys.Pairwise Text.Precedes := by
  refine Std.TreeMap.ordered_keys.imp fun {a b} h => ?_
  have hlt : a < b := compareOfLessAndEq_eq_lt.1 h
  exact String.lt_iff_toList_lt.1 hlt

theorem toList_visible_of_chain (h : s.chain i = [i]) :
    (s.visible i).toList = (s.bindings i).toList := by
  refine Std.TreeMap.Equiv.toList_eq (Std.TreeMap.Equiv.of_forall_constGet?_eq fun name => ?_)
  rw [getElem?_visible, lookup?, h, List.findSome?_singleton, local?]

end

/-- What is visible from a scope is what a look-up finds there, each name once and in order. The
listing has a line for each of these names, in this order, with what the look-up finds; and for a
scope with nothing around it, it is the listing of its own bindings. -/
theorem listing_agrees_with_lookup (s : Store) (i : Nat) :
    let names := (s.visible i).toList.map Prod.fst
    names.Pairwise Text.Precedes ∧
    (∀ name, name ∈ names ↔ (s.lookup? i name).isSome = true) ∧
    (∀ name d, (name, d) ∈ (s.visible i).toList ↔ s.lookup? i name = some d) ∧
    ∀ precision : Option Nat,
      let shown := some (precision.getD (s.settings i).precision)
      List.Forall₂ (fun name line => ∃ d, s.lookup? i name = some d ∧ line = s.line shown name d)
        names (s.dumpVisible i precision) ∧
      (s.chain i = [i] → s.dumpVisible i precision = s.dump i precision) := by
  intro names
  have hnames : names = (s.visible i).keys := Std.TreeMap.map_fst_toList_eq_keys
  refine ⟨hnames ▸ keys_pairwise_precedes _, fun name => hnames ▸ mem_keys_visible,
    fun name d => mem_toList_visible, fun precision => ⟨?_, fun h => ?_⟩⟩
  · refine List.forall₂_map_left_iff.2 (List.forall₂_map_right_iff.2 (List.forall₂_same.2 ?_))
    rintro ⟨name, d⟩ hmem
    exact ⟨d, mem_toList_visible.1 hmem, rfl⟩
  · rw [dumpVisible, dump, lines, lines, toList_visible_of_chain h]

end Store
end ComplexCalculator
