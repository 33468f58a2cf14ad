import ComplexCalculator.Proofs.Expr.Names
import ComplexCalculator.Proofs.Scope.Evaluation

/-!
# Calls as substitution

A call of a user's function gives what its body gives in the caller's own scope with the arguments
put in place of the parameters, as long as putting them there catches no name. Two places keep a
name that is a parameter: the target of a definition, which has to be a name, and the body of a
function that is called in turn, which sees the parameters of its caller. The arguments stand as
literals, so nothing is reported of them.
-/
namespace ComplexCalculator

mutual
def Expr.substitute (values : String → Option Number) : Expr → Expr
  | .number v => .number v
  | .symbol name =>
    match values name with
    | some v => .number v
    | none => .symbol name
  | .negate t => .negate (t.substitute values)
  | .factorial t => .factorial (t.substitute values)
  | .binary op l r => .binary op (l.substitute values) (r.substitute values)
  | .define name t => .define name (t.substitute values)
  | .call name callee ts => .call name callee (Expr.substituteAll values ts)

def Expr.substituteAll (values : String → Option Number) : List Expr → List Expr
  | [] => []
  | t :: ts => t.substitute values :: Expr.substituteAll values ts
end

/-- Names are spared by calls and targets when none of them is a target or free in a function that
is called. -/
structure Spares (parameters : List String) (calls : List (String × Option Function))
    (targets : List String) : Prop where
  calls : ∀ e ∈ calls, ∀ f, e.2 = some f → ∀ name ∈ parameters, name ∉ f.free
  targets : ∀ name ∈ parameters, name ∉ targets

namespace Spares
variable {parameters targets targets' : List String}
  {calls calls' : List (String × Option Function)}

theorem mono (h : Spares parameters calls targets) (hc : ∀ e ∈ calls', e ∈ calls)
    (ht : ∀ name ∈ targets', name ∈ targets) : Spares parameters calls' targets' where
  calls e he := h.calls e (hc e he)
  targets name hname hmem := h.targets name hname (ht name hmem)

theorem left (h : Spares parameters (calls ++ calls') (targets ++ targets')) :
    Spares parameters calls targets :=
  h.mono (fun _ => List.mem_append_left _) fun _ => List.mem_append_left _

theorem right (h : Spares parameters (calls ++ calls') (targets ++ targets')) :
    Spares parameters calls' targets' :=
  h.mono (fun _ => List.mem_append_right _) fun _ => List.mem_append_right _

theorem agree_bind {names : List String} (h : ∀ name ∈ parameters, name ∉ names) (c : Context)
    (arguments : List Number) : c.Agree (c.bind parameters arguments) names where
  fallback := rfl
  policy := rfl
  constant? name hname := by
    have hnone : argument? parameters arguments name = none := by
      refine List.lookup_eq_none_iff.2 fun p hp => ?_
      have hmem := (List.of_mem_zip (List.mem_reverse.1 hp)).1
      have hne : name ≠ p.1 := fun heq => h p.1 hmem (heq ▸ hname)
      exact bne_iff_ne.2 hne
    rw [Context.bind_constant?, hnone, Option.none_or]

end Spares

mutual
theorem Expr.evaluate_substitute {parameters : List String} (c : Context)
    (arguments : List Number) : ∀ {t : Expr}, Spares parameters t.calls t.targets →
      (t.substitute (argument? parameters arguments)).evaluate c =
        t.evaluate (c.bind parameters arguments)
  | .number v, _ => by rw [Expr.substitute, Expr.evaluate, Expr.evaluate]
  | .symbol name, _ => by
    rw [Expr.substitute, Expr.evaluate, Context.symbol, Context.bind_constant?]
    cases argument? parameters arguments name with
    | none => rw [Expr.evaluate, Context.symbol, Option.none_or]; rfl
    | some v => rw [Expr.evaluate, Option.some_or]
  | .negate t, h => by
    rw [Expr.calls, Expr.targets] at h
    rw [Expr.substitute, Expr.evaluate, Expr.evaluate, Expr.evaluate_substitute c arguments h]
  | .factorial t, h => by
    rw [Expr.calls, Expr.targets] at h
    rw [Expr.substitute, Expr.evaluate, Expr.evaluate, Expr.evaluate_substitute c arguments h]
    rfl
  | .binary op l r, h => by
    rw [Expr.calls, Expr.targets] at h
    rw [Expr.substitute, Expr.evaluate, Expr.evaluate, Expr.evaluate_substitute c arguments h.left,
      Expr.evaluate_substitute c arguments h.right]
  | .define name t, h => by
    rw [Expr.calls, Expr.targets] at h
    have hname : c.Agree (c.bind parameters arguments) [name] := by
      refine Spares.agree_bind (fun p hp hmem => h.targets p hp ?_) c arguments
      exact List.mem_singleton.1 hmem ▸ List.mem_cons_self
    have ht : Spares parameters t.calls t.targets :=
      h.mono (fun _ => id) fun _ => List.mem_cons_of_mem _
    rw [Expr.substitute, Expr.evaluate, Expr.evaluate, Expr.evaluate_substitute c arguments ht,
      hname.symbol]
  | .call name callee ts, h => by
    rw [Expr.calls, Expr.targets] at h
    have hts : Spares parameters (Expr.callsAll ts) (Expr.targetsAll ts) :=
      h.mono (fun _ => List.mem_cons_of_mem _) fun _ => id
    have hall := Expr.evaluateAll_substitute c arguments hts
    rw [Expr.substitute]
    cases callee with
    | none => rw [Expr.evaluate, Expr.evaluate, hall]
    | some f =>
      have hf := Spares.agree_bind (h.calls _ List.mem_cons_self f rfl) c arguments
      rw [Expr.evaluate, Expr.evaluate, hall, Function.invoke_congr hf]

theorem Expr.evaluateAll_substitute {parameters : List String} (c : Context)
    (arguments : List Number) : ∀ {ts : List Expr},
      Spares parameters (Expr.callsAll ts) (Expr.targetsAll ts) →
      Expr.evaluateAll c (Expr.substituteAll (argument? parameters arguments) ts) =
        Expr.evaluateAll (c.bind parameters arguments) ts
  | [], _ => by rw [Expr.substituteAll, Expr.evaluateAll, Expr.evaluateAll]
  | t :: ts, h => by
    rw [Expr.callsAll, Expr.targetsAll] at h
    rw [Expr.substituteAll, Expr.evaluateAll, Expr.evaluateAll,
      Expr.evaluate_substitute c arguments h.left, Expr.evaluateAll_substitute c arguments h.right]
end

namespace Store

/-- A call with as many arguments as parameters gives the value and the reports of its body with the
arguments in place of the parameters, when these are spared. The scope that the call has been
carried out in is left behind, and all that was there before is as it was. -/
theorem call_is_substitution (settings : Option Settings) (cs : List (Nat × Command)) :
    let s := (root settings).run cs
    ∀ i < s.scopes.size, ∀ (n : Nat) (parameters : List String) (body : Expr)
      (arguments : List Number), arguments.length = parameters.length →
      Spares parameters body.calls body.targets →
      let f := Function.custom n parameters body
      let replaced := body.substitute (argument? parameters arguments)
      let after := (f.invokeIn s i arguments).2
      f.invoke (s.context i) arguments = replaced.evaluate (s.context i) ∧
        (f.invokeIn s i arguments).1 = (replaced.evaluateIn s i).1 ∧
        (∀ j < s.scopes.size, after.scopes[j]? = s.scopes[j]?) ∧
        ∀ cell < s.cells.size, after.cells[cell]? = s.cells[cell]? := by
  intro s i hi n parameters body arguments hl hspares f replaced after
  have hs : s.Sound := sound_run settings cs
  have hplain : f.invoke (s.context i) arguments = replaced.evaluate (s.context i) := by
    rw [Function.invoke, if_pos hl]
    exact (Expr.evaluate_substitute (s.context i) arguments hspares).symm
  obtain ⟨hcall, hextends⟩ := Function.invokeIn_eq hs hi arguments f
  obtain ⟨hreplaced, -⟩ := Expr.evaluateIn_eq hs hi replaced
  exact ⟨hplain, hcall.trans (hplain.trans hreplaced.symm), hextends.scopes, hextends.cells⟩

theorem call_is_substitution_repeated :
    let s := (root none).run [(0, .constant "y" (.ofReal 5)),
      (0, .custom "g" ["x"] (.binary .add (.symbol "x") (.symbol "y")))]
    let g := Function.custom 0 ["x"] (.binary .add (.symbol "x") (.symbol "y"))
    let body := Expr.define "w" (.call "g" (some g) [.symbol "x"])
    let f := Function.custom 1 ["x", "x"] body
    let replaced := Expr.define "w" (.call "g" (some g) [.number (.ofReal 2)])
    s.scopes.size = 1 ∧ Spares ["x", "x"] body.calls body.targets ∧
      f.invoke (s.context 0) [.ofReal 1, .ofReal 2] = replaced.evaluate (s.context 0) ∧
      (f.invokeIn s 0 [.ofReal 1, .ofReal 2]).2.scopes[0]? = s.scopes[0]? := by
  intro s g body f replaced
  have hsize : s.scopes.size = 1 := rfl
  have hspares : Spares ["x", "x"] body.calls body.targets := by
    refine ⟨fun e he h hh => ?_, by decide⟩
    obtain rfl : e = ("g", some g) := List.mem_singleton.1 he
    obtain rfl := Option.some.inj hh
    decide
  have hcall := call_is_substitution none _ 0 (hsize ▸ Nat.one_pos) 1 ["x", "x"] body
    [.ofReal 1, .ofReal 2] rfl hspares
  exact ⟨hsize, hspares, hcall.1, hcall.2.2.1 0 (hsize ▸ Nat.one_pos)⟩

end Store
end ComplexCalculator
