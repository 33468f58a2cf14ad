import ComplexCalculator.Proofs.Expr.Spelling
import ComplexCalculator.Expr.Evaluate

/-!
# Names in a tree

A tree names symbols, and it names the functions that it calls. The value of a tree depends on the
constants of its free names only: its symbols, and the free names of the functions that its calls
hold, which are those of their bodies without the parameters. What the names of the calls mean does
not matter, since the functions are in the tree.
-/
namespace ComplexCalculator

mutual
/-- The calls of a tree, by their names and with the functions that they hold; what the bodies of
these functions call is not among them. -/
def Expr.calls : Expr → List (String × Option Function)
  | .number _ => []
  | .symbol _ => []
  | .negate t => t.calls
  | .factorial t => t.calls
  | .binary _ l r => l.calls ++ r.calls
  | .define _ t => t.calls
  | .call name callee ts => (name, callee) :: Expr.callsAll ts

def Expr.callsAll : List Expr → List (String × Option Function)
  | [] => []
  | t :: ts => t.calls ++ Expr.callsAll ts
end

def Expr.called (t : Expr) : List String := t.calls.map Prod.fst

theorem Expr.mem_callsAll {c : String × Option Function} {ts : List Expr} :
    c ∈ Expr.callsAll ts ↔ ∃ t ∈ ts, c ∈ t.calls := by
  induction ts with
  | nil => simp [Expr.callsAll]
  | cons t ts ih => simp [Expr.callsAll, ih]

theorem Expr.WellFormed.calls {v : Vocabulary} {t : Expr} (h : t.WellFormed v) :
    ∀ c ∈ t.calls, ∃ f, c.2 = some f ∧ v.meaning c.1 = .function f := by
  induction h with
  | number hz => nofun
  | symbol hn hf hs => nofun
  | negate ht iht => exact iht
  | factorial ht iht => exact iht
  | binary hl hr ihl ihr => exact List.forall_mem_append.2 ⟨ihl, ihr⟩
  | define hn hf ht iht => exact iht
  | call hn hf hs ht iht =>
    refine List.forall_mem_cons.2 ⟨⟨_, rfl, hf⟩, fun c hc => ?_⟩
    obtain ⟨t, ht, hct⟩ := Expr.mem_callsAll.1 hc
    exact iht t ht c hct

mutual
def Expr.targets : Expr → List String
  | .number _ => []
  | .symbol _ => []
  | .negate t => t.targets
  | .factorial t => t.targets
  | .binary _ l r => l.targets ++ r.targets
  | .define name t => name :: t.targets
  | .call _ _ ts => Expr.targetsAll ts

def Expr.targetsAll : List Expr → List String
  | [] => []
  | t :: ts => t.targets ++ Expr.targetsAll ts
end

mutual
def Expr.free : Expr → List String
  | .number _ => []
  | .symbol name => [name]
  | .negate t => t.free
  | .factorial t => t.free
  | .binary _ l r => l.free ++ r.free
  | .define name t => name :: t.free
  | .call _ callee ts =>
    (match callee with
      | some f => f.free
      | none => []) ++ Expr.freeAll ts

def Expr.freeAll : List Expr → List String
  | [] => []
  | t :: ts => t.free ++ Expr.freeAll ts

def Function.free : Function → List String
  | .native _ _ => []
  | .custom _ parameters body => body.free.filter (· ∉ parameters)
end

/-- The argument of a parameter; of two equal parameters the last one counts. -/
def argument? (parameters : List String) (arguments : List Number) (name : String) :
    Option Number :=
  (parameters.zip arguments).reverse.lookup name

/-- Two contexts with the same settings and the same constants under some names. -/
structure Context.Agree (c d : Context) (names : List String) : Prop where
  fallback : c.fallback = d.fallback
  policy : c.policy = d.policy
  constant? : ∀ name ∈ names, c.constant? name = d.constant? name

namespace Context
variable {c d : Context}

theorem Agree.mono {names others : List String} (h : c.Agree d names)
    (hs : ∀ name ∈ others, name ∈ names) : c.Agree d others :=
  ⟨h.fallback, h.policy, fun name hname => h.constant? name (hs name hname)⟩

theorem Agree.left {names others : List String} (h : c.Agree d (names ++ others)) :
    c.Agree d names :=
  h.mono fun _ hname => List.mem_append_left _ hname

theorem Agree.right {names others : List String} (h : c.Agree d (names ++ others)) :
    c.Agree d others :=
  h.mono fun _ hname => List.mem_append_right _ hname

theorem Agree.head {name : String} {names : List String} (h : c.Agree d (name :: names)) :
    c.Agree d [name] :=
  h.mono fun _ hname => List.mem_singleton.1 hname ▸ List.mem_cons_self

theorem Agree.tail {name : String} {names : List String} (h : c.Agree d (name :: names)) :
    c.Agree d names :=
  h.mono fun _ hname => List.mem_cons_of_mem _ hname

theorem Agree.symbol {name : String} (h : c.Agree d [name]) : c.symbol name = d.symbol name := by
  simp only [Context.symbol, h.constant? name List.mem_cons_self, h.fallback]

theorem bind_constant? (c : Context) (parameters : List String) (arguments : List Number)
    (name : String) : (c.bind parameters arguments).constant? name =
      (argument? parameters arguments name).or (c.constant? name) := rfl

theorem exists_argument {parameters : List String} {arguments : List Number}
    (hl : arguments.length = parameters.length) {name : String} (hp : name ∈ parameters) :
    ∃ v ∈ arguments, argument? parameters arguments name = some v := by
  cases hv : argument? parameters arguments name with
  | none =>
    -- The parameters are the names of the pairs, so that one of them is the name.
    rw [← List.map_fst_zip (Nat.le_of_eq hl.symm)] at hp
    obtain ⟨p, hmem, rfl⟩ := List.mem_map.1 hp
    have hne := List.lookup_eq_none_iff.1 hv p (List.mem_reverse.2 hmem)
    simp at hne
  | some v =>
    obtain ⟨before, after, hs, -⟩ := List.lookup_eq_some_iff.1 hv
    have hmem : (name, v) ∈ parameters.zip arguments := by
      rw [← List.mem_reverse, hs]
      simp
    exact ⟨v, (List.of_mem_zip hmem).2, rfl⟩

theorem Agree.bind {n : Nat} {parameters : List String} {body : Expr} {arguments : List Number}
    (h : c.Agree d (Function.custom n parameters body).free)
    (hl : arguments.length = parameters.length) :
    (c.bind parameters arguments).Agree (d.bind parameters arguments) body.free where
  fallback := h.fallback
  policy := h.policy
  constant? name hname := by
    by_cases hp : name ∈ parameters
    · obtain ⟨v, -, hv⟩ := exists_argument hl hp
      rw [bind_constant?, bind_constant?, hv, Option.some_or, Option.some_or]
    · have hfree : name ∈ (Function.custom n parameters body).free := by
        rw [Function.free]
        exact List.mem_filter.2 ⟨hname, decide_eq_true hp⟩
      rw [bind_constant?, bind_constant?, h.constant? name hfree]

end Context

mutual
theorem Expr.evaluate_congr {c d : Context} :
    ∀ {t : Expr}, c.Agree d t.free → t.evaluate c = t.evaluate d
  | .number v, _ => by rw [Expr.evaluate, Expr.evaluate]
  | .symbol name, h => by
    rw [Expr.free] at h
    rw [Expr.evaluate, Expr.evaluate, h.symbol]
  | .negate t, h => by
    rw [Expr.free] at h
    rw [Expr.evaluate, Expr.evaluate, Expr.evaluate_congr h]
  | .factorial t, h => by
    rw [Expr.free] at h
    rw [Expr.evaluate, Expr.evaluate, Expr.evaluate_congr h, h.policy]
  | .binary op l r, h => by
    rw [Expr.free] at h
    rw [Expr.evaluate, Expr.evaluate, Expr.evaluate_congr h.left, Expr.evaluate_congr h.right]
  | .define name t, h => by
    rw [Expr.free] at h
    rw [Expr.evaluate, Expr.evaluate, h.head.symbol, Expr.evaluate_congr h.tail]
  | .call name none ts, h => by
    rw [Expr.free] at h
    rw [Expr.evaluate, Expr.evaluate, Expr.evaluateAll_congr h.right]
  | .call name (some f) ts, h => by
    rw [Expr.free] at h
    rw [Expr.evaluate, Expr.evaluate, Expr.evaluateAll_congr h.right, Function.invoke_congr h.left]

theorem Expr.evaluateAll_congr {c d : Context} :
    ∀ {ts : List Expr}, c.Agree d (Expr.freeAll ts) →
      Expr.evaluateAll c ts = Expr.evaluateAll d ts
  | [], _ => by rw [Expr.evaluateAll, Expr.evaluateAll]
  | t :: ts, h => by
    rw [Expr.freeAll] at h
    rw [Expr.evaluateAll, Expr.evaluateAll, Expr.evaluate_congr h.left,
      Expr.evaluateAll_congr h.right]

theorem Function.invoke_congr {c d : Context} {arguments : List Number} :
    ∀ {f : Function}, c.Agree d f.free → f.invoke c arguments = f.invoke d arguments
  | .native n f, _ => by rw [Function.invoke, Function.invoke]
  | .custom n parameters body, h => by
    rw [Function.invoke, Function.invoke]
    split
    · rename_i hl
      exact Expr.evaluate_congr (h.bind hl)
    · rfl
end

end ComplexCalculator
