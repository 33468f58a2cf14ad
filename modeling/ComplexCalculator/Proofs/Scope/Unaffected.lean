import ComplexCalculator.Proofs.Number.Factorial
import ComplexCalculator.Proofs.Scope.Evaluation

/-!
# Evaluations that the settings do not affect

The settings of a scope have a say in an evaluation at two places only: what a symbol is that
resolves to nothing, and what the factorial is of a number that is no natural one. To tell whether
an evaluation comes to the second place, the operands of its factorials are collected beside its
value, those in the bodies of called functions among them. An evaluation that comes to neither place
has the same value and the same reports under all settings; the precision and the strictness of
reading play no part in any evaluation.
-/
namespace ComplexCalculator
open Binary64

def Number.IsNatural (n : Number) : Prop :=
  (n.im == 0) = true ∧ n.re.isFinite = true ∧ ∃ k : Nat, exact n.re = k

theorem Number.IsNatural.factorial_eq {n : Number} (h : n.IsNatural) (policy : FactorialPolicy) :
    n.factorial policy = ofReal (roundedFactorial ⌊exact n.re⌋₊) := by
  obtain ⟨him, hre, k, hk⟩ := h
  refine factorial_of_factors ?_
  cases policy with
  | strict =>
    rw [hk, Nat.floor_natCast]
    exact (factors?_strict hre).2 ⟨him, hk⟩
  | staircase => exact factors?_staircase hre

theorem Number.isNatural_ofNat {k : Nat} (h : k < 2 ^ 53) : (ofReal (ofNat k)).IsNatural := by
  obtain ⟨hfinite, hexact⟩ := exact_ofNat h
  exact ⟨isReal_ofReal _, hfinite, k, hexact⟩

mutual
/-- The operands of all factorials that an evaluation computes. -/
def Expr.factorialOperands (c : Context) : Expr → List Number
  | .number _ => []
  | .symbol _ => []
  | .negate t => t.factorialOperands c
  | .factorial t => (t.evaluate c).value :: t.factorialOperands c
  | .binary _ l r => l.factorialOperands c ++ r.factorialOperands c
  | .define _ t => t.factorialOperands c
  | .call _ callee ts =>
    Expr.factorialOperandsAll c ts ++
      match callee with
      | some f => f.factorialOperands c (Expr.evaluateAll c ts).value
      | none => []

def Expr.factorialOperandsAll (c : Context) : List Expr → List Number
  | [] => []
  | t :: ts => t.factorialOperands c ++ Expr.factorialOperandsAll c ts

def Function.factorialOperands (c : Context) (arguments : List Number) : Function → List Number
  | .native _ _ => []
  | .custom _ parameters body =>
    if arguments.length = parameters.length then
      body.factorialOperands (c.bind parameters arguments)
    else []
end

/-- Nothing has been reported as unresolved, and all operands of factorials are natural. -/
structure Unaffected (events : List Event) (operands : List Number) : Prop where
  resolved : ∀ name fallback, .unresolved name fallback ∉ events
  natural : ∀ n ∈ operands, n.IsNatural

namespace Unaffected
variable {events events' : List Event} {operands operands' : List Number} {n : Number}

theorem left (h : Unaffected (events ++ events') (operands ++ operands')) :
    Unaffected events operands where
  resolved name fallback he := h.resolved name fallback (List.mem_append_left _ he)
  natural n hn := h.natural n (List.mem_append_left _ hn)

theorem right (h : Unaffected (events ++ events') (operands ++ operands')) :
    Unaffected events' operands' where
  resolved name fallback he := h.resolved name fallback (List.mem_append_right _ he)
  natural n hn := h.natural n (List.mem_append_right _ hn)

theorem head (h : Unaffected events (n :: operands)) : n.IsNatural :=
  h.natural n List.mem_cons_self

theorem tail (h : Unaffected events (n :: operands)) : Unaffected events operands where
  resolved := h.resolved
  natural m hm := h.natural m (List.mem_cons_of_mem n hm)

end Unaffected

namespace Context
variable {c d : Context}

theorem symbol_unaffected (h : c.constant? = d.constant?) {name : String} {operands : List Number}
    (hu : Unaffected (c.symbol name).events operands) : d.symbol name = c.symbol name := by
  cases hv : c.constant? name with
  | some v => simp only [symbol, ← h, hv]
  | none =>
    have hevents : (c.symbol name).events = [.unresolved name c.fallback] := by
      simp only [symbol, hv]
    exact absurd (hevents ▸ List.mem_cons_self) (hu.resolved name c.fallback)

theorem constant?_bind (h : c.constant? = d.constant?) (parameters : List String)
    (arguments : List Number) :
    (c.bind parameters arguments).constant? = (d.bind parameters arguments).constant? := by
  simp only [bind, h]

end Context

mutual
theorem Expr.evaluate_unaffected {c d : Context} (h : c.constant? = d.constant?) :
    ∀ {t : Expr}, Unaffected (t.evaluate c).events (t.factorialOperands c) →
      t.evaluate d = t.evaluate c
  | .number v, _ => by rw [Expr.evaluate, Expr.evaluate]
  | .symbol name, hu => by
    rw [Expr.evaluate] at hu
    rw [Expr.evaluate, Expr.evaluate, Context.symbol_unaffected h hu]
  | .negate t, hu => by
    rw [Expr.evaluate, Expr.factorialOperands] at hu
    rw [Expr.evaluate, Expr.evaluate, Expr.evaluate_unaffected h hu]
  | .factorial t, hu => by
    rw [Expr.evaluate, Expr.factorialOperands] at hu
    rw [Expr.evaluate, Expr.evaluate, Expr.evaluate_unaffected h hu.tail,
      hu.head.factorial_eq d.policy, hu.head.factorial_eq c.policy]
  | .binary op l r, hu => by
    rw [Expr.evaluate, Expr.factorialOperands] at hu
    rw [Expr.evaluate, Expr.evaluate, Expr.evaluate_unaffected h hu.left,
      Expr.evaluate_unaffected h hu.right]
  | .define name t, hu => by
    rw [Expr.evaluate, Expr.factorialOperands, ← List.nil_append (t.factorialOperands c)] at hu
    rw [Expr.evaluate, Expr.evaluate, Context.symbol_unaffected h hu.left,
      Expr.evaluate_unaffected h hu.right]
  | .call name none ts, hu => by
    rw [Expr.evaluate, Expr.factorialOperands, List.append_nil] at hu
    rw [Expr.evaluate, Expr.evaluate, Expr.evaluateAll_unaffected h hu]
  | .call name (some f) ts, hu => by
    rw [Expr.evaluate, Expr.factorialOperands] at hu
    rw [Expr.evaluate, Expr.evaluate, Expr.evaluateAll_unaffected h hu.left,
      Function.invoke_unaffected h hu.right]

theorem Expr.evaluateAll_unaffected {c d : Context} (h : c.constant? = d.constant?) :
    ∀ {ts : List Expr},
      Unaffected (Expr.evaluateAll c ts).events (Expr.factorialOperandsAll c ts) →
      Expr.evaluateAll d ts = Expr.evaluateAll c ts
  | [], _ => by rw [Expr.evaluateAll, Expr.evaluateAll]
  | t :: ts, hu => by
    rw [Expr.evaluateAll, Expr.factorialOperandsAll] at hu
    rw [Expr.evaluateAll, Expr.evaluateAll, Expr.evaluate_unaffected h hu.left,
      Expr.evaluateAll_unaffected h hu.right]

theorem Function.invoke_unaffected {c d : Context} (h : c.constant? = d.constant?)
    {arguments : List Number} : ∀ {f : Function},
      Unaffected (f.invoke c arguments).events (f.factorialOperands c arguments) →
      f.invoke d arguments = f.invoke c arguments
  | .native n f, _ => by rw [Function.invoke, Function.invoke]
  | .custom n parameters body, hu => by
    rw [Function.invoke, Function.factorialOperands] at hu
    rw [Function.invoke, Function.invoke]
    split
    · rename_i hl
      rw [if_pos hl, if_pos hl] at hu
      exact Expr.evaluate_unaffected (Context.constant?_bind h parameters arguments) hu
    · rfl
end

namespace Store

def withSettings (s : Store) (own : Nat → Option Settings) : Store :=
  { s with scopes := s.scopes.mapIdx fun j scope => { scope with settings := own j } }

variable {s : Store} {own : Nat → Option Settings}

theorem chain_withSettings (s : Store) (own : Nat → Option Settings) (i : Nat) :
    (s.withSettings own).chain i = s.chain i := by
  simp only [chain, withSettings, Array.getElem?_mapIdx]
  cases s.scopes[i]? <;> rfl

theorem local?_withSettings (s : Store) (own : Nat → Option Settings) (i : Nat) (name : String) :
    (s.withSettings own).local? i name = s.local? i name := by
  simp only [local?, bindings, withSettings, Array.getElem?_mapIdx]
  cases s.scopes[i]? <;> rfl

theorem constant?_withSettings (s : Store) (own : Nat → Option Settings) (i : Nat) :
    (s.withSettings own).constant? i = s.constant? i := by
  funext name
  simp only [constant?, lookup?, chain_withSettings, local?_withSettings]
  rfl

theorem settings_withSettings {i : Nat} (hi : i < s.scopes.size) (σ : Settings) :
    (s.withSettings fun _ => some σ).settings i = σ := by
  simp only [settings, chain, List.findSome?_cons, withSettings, Array.getElem?_mapIdx,
    Array.getElem?_eq_getElem hi]
  rfl

theorem Sound.withSettings (h : s.Sound) (own : Nat → Option Settings) :
    (s.withSettings own).Sound where
  outer i j hj := h.outer i j (by rwa [chain_withSettings] at hj)
  made i name d hd := h.made i name d (by rwa [local?_withSettings] at hd)
  unshared i j a b d e hd he := by
    rw [local?_withSettings] at hd he
    exact h.unshared i j a b d e hd he

theorem scopes_size_withSettings (s : Store) (own : Nat → Option Settings) :
    (s.withSettings own).scopes.size = s.scopes.size :=
  Array.size_mapIdx

/-- Let the scopes of a store have any settings of their own, and any others. An evaluation that
meets no unresolved symbol and computes factorials of natural numbers only has the same value and
the same reports under both, and any evaluation has when the two agree on the fallback and on the
policy, whatever the precision and the strictness are. All settings can be those of a scope, and an
evaluation that is carried out in the store, where the scope of a call finds the settings around
it, gives what plain evaluation gives. -/
theorem settings_matter_where_they_apply (s : Store) (i : Nat) (t : Expr)
    (own own' : Nat → Option Settings) :
    let a := s.withSettings own
    let b := s.withSettings own'
    (Unaffected (t.evaluate (a.context i)).events (t.factorialOperands (a.context i)) →
      t.evaluate (b.context i) = t.evaluate (a.context i)) ∧
    ((a.settings i).unresolved = (b.settings i).unresolved →
      (a.settings i).factorial = (b.settings i).factorial →
      t.evaluate (b.context i) = t.evaluate (a.context i)) ∧
    (i < s.scopes.size → ∀ σ, (s.withSettings fun _ => some σ).settings i = σ) ∧
    (s.Sound → i < s.scopes.size →
      (t.evaluateIn a i).1 = t.evaluate (a.context i) ∧
      (t.evaluateIn b i).1 = t.evaluate (b.context i)) := by
  intro a b
  have hconstants : (a.context i).constant? = (b.context i).constant? :=
    (constant?_withSettings s own i).trans (constant?_withSettings s own' i).symm
  refine ⟨Expr.evaluate_unaffected hconstants, fun hu hf => ?_, settings_withSettings,
    fun hs hi => ⟨?_, ?_⟩⟩
  · have hcontext : b.context i = a.context i := by
      simp only [context, Context.mk.injEq]
      exact ⟨hconstants.symm, hu.symm, hf.symm⟩
    rw [hcontext]
  · exact (Expr.evaluateIn_eq (hs.withSettings own)
      ((scopes_size_withSettings s own).symm ▸ hi) t).1
  · exact (Expr.evaluateIn_eq (hs.withSettings own')
      ((scopes_size_withSettings s own').symm ▸ hi) t).1

theorem settings_matter_where_they_apply_call :
    let f := Function.custom 0 ["x"] (.factorial (.symbol "x"))
    let s := (root none).run [(0, .custom "f" ["x"] (.factorial (.symbol "x")))]
    let t := Expr.call "f" (some f) [.number (.ofReal (ofNat 3))]
    let σ : Settings := { Settings.standard with unresolved := .zero, factorial := .staircase }
    let a := s.withSettings fun _ => none
    let b := s.withSettings fun _ => some σ
    t.factorialOperands (a.context 0) = [.ofReal (ofNat 3)] ∧ b.settings 0 = σ ∧
      t.evaluate (b.context 0) = t.evaluate (a.context 0) := by
  intro f s t σ a b
  have hoperands : t.factorialOperands (a.context 0) = [.ofReal (ofNat 3)] := by decide +kernel
  have hevents : (t.evaluate (a.context 0)).events = [] := by decide +kernel
  have hu : Unaffected (t.evaluate (a.context 0)).events (t.factorialOperands (a.context 0)) := by
    rw [hoperands, hevents]
    refine ⟨fun name fallback => List.not_mem_nil, fun n hn => ?_⟩
    rw [List.mem_singleton.1 hn]
    exact Number.isNatural_ofNat (by decide)
  obtain ⟨hsame, -, hsettings, -⟩ :=
    settings_matter_where_they_apply s 0 t (fun _ => none) fun _ => some σ
  exact ⟨hoperands, hsettings Nat.one_pos σ, hsame hu⟩

end Store
end ComplexCalculator
