import ComplexCalculator.Proofs.Session.Transition
import ComplexCalculator.Proofs.Expr.Reference

/-!
# What calls refer to

A name that is called is looked up while its text is read, so a call holds a function that has been
made by then. A notebook goes along with a store: it lists all functions in the order in which they
are made, also those that are no longer bound anywhere, and it keeps trees with the number of
functions that there were when they were read. Whatever is asked of the scopes, every call in a body
or in a kept tree refers to a function that is listed before, so that no function ever calls itself
through any number of others, and evaluation comes to an end.
-/
namespace ComplexCalculator

inductive Request
  | child (settings : Option Settings)
  | standard
  | constant (name : String) (value : Number)
  | native (name : String) (arity : Int) (apply : List Number → Option Number)
  | function (name : String) (parameters : List String) (body : Text.Source)
  | undefine (name : String)
  | execute (source : Text.Source)
  | parse (key : String) (source : Text.Source)
  | clone (key copy : String)

structure Kept where
  tree : Expr
  made : Nat

structure Notebook where
  store : Store
  made : List Function
  kept : List (String × Kept)

def Change.function? (n : Nat) : Change → Option Function
  | .function _ body => some (body.make n)
  | _ => none

def Change.RefersTo (fs : List Function) : Change → Prop
  | .function _ (.custom _ body) => body.RefersTo fs
  | _ => True

theorem Change.RefersTo.append {fs : List Function} {c : Change} (h : c.RefersTo fs)
    (gs : List Function) : c.RefersTo (fs ++ gs) := by
  cases c with
  | function name body =>
    cases body with
    | native native => exact h
    | custom parameters t => exact Expr.RefersTo.append h gs
  | _ => exact h

theorem Expr.changes_refersTo {fs : List Function} {x : Context} {t : Expr} :
    ∀ c ∈ t.changes x, c.RefersTo fs := by
  cases t with
  | define name t =>
    rw [Expr.changes]
    split <;> exact List.forall_mem_singleton.2 trivial
  | _ => exact List.forall_mem_nil _

theorem Command.changes_refersTo {fs : List Function} {v : Vocabulary} {x : Context} {c : Command}
    (h : ∀ name parameters body, c = .custom name parameters body → body.RefersTo fs) :
    ∀ change ∈ c.changes v x, change.RefersTo fs := by
  cases c with
  | child settings => exact List.forall_mem_singleton.2 trivial
  | standard =>
    refine List.forall_mem_append.2 ⟨?_, ?_⟩ <;>
    · refine List.forall_mem_map.2 fun _ _ => ?_
      trivial
  | constant name value => exact List.forall_mem_singleton.2 trivial
  | native name arity apply =>
    simp only [Command.changes]
    split
    · exact List.forall_mem_singleton.2 trivial
    · exact List.forall_mem_nil _
  | custom name parameters body => exact List.forall_mem_singleton.2 (h name parameters body rfl)
  | undefine name => exact List.forall_mem_singleton.2 trivial
  | execute source =>
    simp only [Command.changes]
    split
    · exact List.forall_mem_nil _
    · split
      · exact Expr.changes_refersTo
      · exact List.forall_mem_nil _

namespace Notebook

def start (settings : Option Settings) : Notebook := ⟨.root settings, [], []⟩

def change (d : Notebook) (i : Nat) (c : Change) : Notebook :=
  { d with
    store := d.store.change i c
    made := d.made ++ (c.function? d.store.functions).toList }

def changeAll (d : Notebook) (i : Nat) (cs : List Change) : Notebook :=
  cs.foldl (fun d c => d.change i c) d

def command (d : Notebook) (i : Nat) (c : Command) : Notebook :=
  { d.changeAll i (c.changes (d.store.vocabulary i) (d.store.context i)) with
    store := d.store.obey i c }

def keep (d : Notebook) (key : String) (k : Kept) : Notebook :=
  { d with kept := (key, k) :: d.kept }

def serve (d : Notebook) (i : Nat) : Request → Notebook
  | .child settings => d.command i (.child settings)
  | .standard => d.command i .standard
  | .constant name value => d.command i (.constant name value)
  | .native name arity apply => d.command i (.native name arity apply)
  | .function name parameters body =>
    match d.store.parse i body with
    | .ok t => d.command i (.custom name parameters t)
    | .error _ => d
  | .undefine name => d.command i (.undefine name)
  | .execute source => d.command i (.execute source)
  | .parse key source =>
    match d.store.parse i source with
    | .ok t => d.keep key ⟨t, d.made.length⟩
    | .error _ => d
  | .clone key copy =>
    match d.kept.lookup key with
    | some k => d.keep copy k
    | none => d

def run (d : Notebook) : List (Nat × Request) → Notebook
  | [] => d
  | (i, r) :: rs => run (if i < d.store.scopes.size then d.serve i r else d) rs

theorem store_changeAll (d : Notebook) (i : Nat) (cs : List Change) :
    (d.changeAll i cs).store = d.store.changeAll i cs := by
  induction cs generalizing d with
  | nil => rfl
  | cons c cs ih => exact ih (d.change i c)

theorem command_eq (d : Notebook) (i : Nat) (c : Command) :
    d.command i c = d.changeAll i (c.changes (d.store.vocabulary i) (d.store.context i)) := by
  rw [command, Store.obey_eq, ← store_changeAll]

structure Sound (d : Notebook) : Prop where
  length : d.made.length = d.store.functions
  ordered : Function.Ordered d.made
  bound : ∀ i name f, d.store.local? i name = some (.function f) → d.made[f.serial]? = some f
  kept : ∀ e ∈ d.kept,
    e.2.made ≤ d.made.length ∧ e.2.tree.RefersTo (d.made.take e.2.made)

variable {d : Notebook}

theorem sound_start (settings : Option Settings) : (start settings).Sound where
  length := rfl
  ordered := ⟨nofun, nofun⟩
  bound i name _ hf := nomatch (Store.local?_root settings i name).symm.trans hf
  kept := nofun

theorem Sound.made_of_lookup? (h : d.Sound) {i : Nat} {name : String} {f : Function}
    (hl : d.store.lookup? i name = some (.function f)) : d.made[f.serial]? = some f := by
  obtain ⟨j, -, hj⟩ := List.exists_of_findSome?_eq_some hl
  exact h.bound j name f hj

theorem Sound.refersTo_of_parse (h : d.Sound) {i : Nat} {source : Text.Source} {t : Expr}
    (hp : d.store.parse i source = .ok t) : t.RefersTo d.made := by
  intro c hc
  obtain ⟨f, hf, hl⟩ := Store.lookup?_of_mem_calls hp c hc
  exact ⟨f, hf, h.made_of_lookup? hl⟩

theorem Sound.take_append (h : d.Sound) {e : String × Kept} (he : e ∈ d.kept) (fs : List Function) :
    e.2.made ≤ (d.made ++ fs).length ∧ e.2.tree.RefersTo ((d.made ++ fs).take e.2.made) := by
  obtain ⟨hle, ht⟩ := h.kept e he
  rw [List.take_append_of_le_length hle, List.length_append]
  exact ⟨Nat.le_add_right_of_le hle, ht⟩

theorem Sound.change (h : d.Sound) {i : Nat} (hi : i < d.store.scopes.size) {c : Change}
    (hc : c.RefersTo d.made) : (d.change i c).Sound where
  length := by
    have hfunctions : (d.store.change i c).functions =
        d.store.functions + (c.function? d.store.functions).toList.length := by
      cases c with
      | constant name value => exact d.store.functions_defineConstant i name value
      | _ => rfl
    simp only [Notebook.change, List.length_append, h.length, hfunctions]
  ordered := by
    cases c with
    | function name body =>
      refine h.ordered.append (by rw [Body.make_serial, h.length]) ?_
      intro m parameters t ht
      cases body <;> cases ht
      exact hc
    | _ => simpa [Notebook.change, Change.function?] using h.ordered
  bound := by
    intro j name f hf
    have hf' : (if i = j ∧ c.name? = some name then d.store.made? i c
        else d.store.local? j name) = some (.function f) :=
      (Store.local?_change hi c j name).symm.trans hf
    split at hf'
    · -- The name is bound by this change, and then to the function that is listed last.
      cases c with
      | function other body =>
        cases hf'
        simp only [Notebook.change, Change.function?, Option.toList_some, Body.make_serial,
          ← h.length]
        exact List.getElem?_concat_length
      | _ => cases hf'
    · have hplace := h.bound j name f hf'
      exact (List.getElem?_append_left (List.getElem?_eq_some_iff.1 hplace).1).trans hplace
  kept e he := h.take_append he _

theorem Sound.changeAll (h : d.Sound) {i : Nat} (hi : i < d.store.scopes.size) {cs : List Change}
    (hcs : ∀ c ∈ cs, c.RefersTo d.made) : (d.changeAll i cs).Sound := by
  induction cs generalizing d with
  | nil => exact h
  | cons c cs ih =>
    obtain ⟨hc, hcs⟩ := List.forall_mem_cons.1 hcs
    exact ih (h.change hi hc) (Nat.lt_of_lt_of_le hi (d.store.scopes_size_change i c))
      fun c hc => Change.RefersTo.append (hcs c hc) _

theorem Sound.command (h : d.Sound) {i : Nat} (hi : i < d.store.scopes.size) {c : Command}
    (hc : ∀ name parameters body, c = .custom name parameters body → body.RefersTo d.made) :
    (d.command i c).Sound := by
  rw [command_eq]
  exact h.changeAll hi (Command.changes_refersTo hc)

theorem Sound.keep (h : d.Sound) (key : String) {k : Kept} (hk : k.made ≤ d.made.length)
    (ht : k.tree.RefersTo (d.made.take k.made)) : (d.keep key k).Sound where
  length := h.length
  ordered := h.ordered
  bound := h.bound
  kept := List.forall_mem_cons.2 ⟨⟨hk, ht⟩, h.kept⟩

theorem Sound.serve (h : d.Sound) {i : Nat} (hi : i < d.store.scopes.size) (r : Request) :
    (d.serve i r).Sound := by
  cases r with
  | function name parameters source =>
    simp only [Notebook.serve]
    split
    · rename_i t hp
      refine h.command hi fun _ _ body hbody => ?_
      cases hbody
      exact h.refersTo_of_parse hp
    · exact h
  | parse key source =>
    simp only [Notebook.serve]
    split
    · -- The tree is kept with the number of all functions, so none is left out of the list.
      rename_i t hp
      refine h.keep key (Nat.le_refl _) ?_
      rw [List.take_length]
      exact h.refersTo_of_parse hp
    · exact h
  | clone key copy =>
    simp only [Notebook.serve]
    split
    · rename_i k hk
      obtain ⟨before, after, hkept, -⟩ := List.lookup_eq_some_iff.1 hk
      obtain ⟨hle, ht⟩ := h.kept (key, k) (by simp [hkept])
      exact h.keep copy hle ht
    · exact h
  | _ => exact h.command hi nofun

theorem Sound.run (h : d.Sound) (rs : List (Nat × Request)) : (d.run rs).Sound := by
  induction rs generalizing d with
  | nil => exact h
  | cons r rs ih =>
    obtain ⟨i, r⟩ := r
    refine ih ?_
    split
    · rename_i hi
      exact h.serve hi r
    · exact h

theorem Sound.redefinition (h : d.Sound) {i : Nat} (hi : i < d.store.scopes.size) {name : String}
    {parameters : List String} {source : Text.Source} {body : Expr} {f : Function}
    (hp : d.store.parse i source = .ok body)
    (hl : d.store.lookup? i name = some (.function f)) :
    (d.serve i (.function name parameters source)).store.local? i name =
        some (.function (.custom d.made.length parameters body)) ∧
      f.serial < d.made.length ∧ ∀ c ∈ body.calls, c.1 = name → c.2 = some f := by
  refine ⟨?_, ?_, ?_⟩
  · simp only [Notebook.serve, hp]
    refine (Store.local?_change hi (.function name (.custom parameters body)) i name).trans ?_
    rw [h.length]
    exact if_pos ⟨rfl, rfl⟩
  · exact (List.getElem?_eq_some_iff.1 (h.made_of_lookup? hl)).1
  · rintro c hc rfl
    obtain ⟨g, hg, hlookup⟩ := Store.lookup?_of_mem_calls hp c hc
    cases hl.symm.trans hlookup
    exact hg

/-- In any tree of scopes, whatever is asked of them: every bound function is listed at its number,
the calls in a body refer to functions before it, and those in a kept tree to functions from before
the tree was read. A body that calls the name under which it is defined calls what the name has
meant. So no function calls itself, and kept trees are evaluated with never more calls active than
there are functions of the user. -/
theorem calls_refer_to_earlier_functions (settings : Option Settings) (rs : List (Nat × Request)) :
    let d := (start settings).run rs
    (∀ i name f, d.store.local? i name = some (.function f) → d.made[f.serial]? = some f) ∧
    (∀ n m parameters body, d.made[n]? = some (Function.custom m parameters body) →
      m = n ∧ body.RefersTo (d.made.take n)) ∧
    (∀ e ∈ d.kept, e.2.made ≤ d.made.length ∧ e.2.tree.RefersTo (d.made.take e.2.made)) ∧
    (∀ i < d.store.scopes.size, ∀ name parameters source body f,
      d.store.parse i source = .ok body → d.store.lookup? i name = some (.function f) →
        (d.serve i (.function name parameters source)).store.local? i name =
            some (.function (.custom d.made.length parameters body)) ∧
          f.serial < d.made.length ∧ ∀ c ∈ body.calls, c.1 = name → c.2 = some f) ∧
    (∀ n, ¬ Relation.TransGen (Function.Calls d.made) n n) ∧
    ∀ e ∈ d.kept, ∀ i,
      e.2.tree.evaluateBy (Function.dispatch d.made (d.made.countP (·.isCustom)))
        (d.store.context i) = some (e.2.tree.evaluate (d.store.context i)) := by
  intro d
  have h : d.Sound := (sound_start settings).run rs
  refine ⟨h.bound, fun n m parameters body hf => ⟨h.ordered.serial n _ hf, ?_⟩, h.kept, ?_, ?_, ?_⟩
  · exact h.ordered.body n m parameters body hf
  · exact fun i hi name parameters source body f hp hl => h.redefinition hi hp hl
  · exact fun n hn => Nat.lt_irrefl n (h.ordered.lt_of_calls hn)
  · intro e he i
    have ht := (h.kept e he).2.append (d.made.drop e.2.made)
    rw [List.take_append_drop] at ht
    exact h.ordered.evaluateBy_eq ht _

/-- The second function calls the first one, whose name it takes. -/
example :
    let d := (start none).run [(0, .function "f" ["x"] (.text "x + 1")),
      (0, .function "f" ["x"] (.text "f(f(x))")), (0, .parse "t" (.text "f(2)"))]
    let numbers (t : Expr) := t.calls.map fun c => c.2.map (·.serial)
    d.made.map (fun f => match f with
      | .custom n _ body => (n, numbers body)
      | .native n _ => (n, [])) = [(0, []), (1, [some 0, some 0])] ∧
    d.kept.map (fun e => (numbers e.2.tree, e.2.made)) = [([some 1], 2)] := by
  decide +kernel

end Notebook
end ComplexCalculator
