import ComplexCalculator.Proofs.Parse.RoundTrip
import ComplexCalculator.Proofs.Expr.Names
import ComplexCalculator.Proofs.Scope.Evaluation

/-!
# What a line does

A line that cannot be read changes nothing, and neither does one that is only evaluated. A
definition sets or removes the binding of its target in its own scope, according to the value, and
leaves everything else as it is.
-/
namespace ComplexCalculator.Store

variable {s s' : Store} {i : Nat} {name : String}

structure SameBut (s s' : Store) (i : Nat) (name : String) : Prop where
  size : s'.scopes.size = s.scopes.size
  chain : ∀ j, s'.chain j = s.chain j
  settings : ∀ j : Nat, s'.scopes[j]?.bind (·.settings) = s.scopes[j]?.bind (·.settings)
  local? : ∀ j other, ¬(i = j ∧ name = other) → s'.local? j other = s.local? j other
  read : ∀ cell < s.cells.size, s.local? i name ≠ some (.constant cell) → s'.read cell = s.read cell
  functions : s'.functions = s.functions

theorem sameBut_change (h : s.Sound) (hi : i < s.scopes.size) {c : Change}
    (hc : c.name? = some name) (hf : (s.change i c).functions = s.functions) :
    s.SameBut (s.change i c) i name where
  size := s.scopes_size_binding i hc
  chain := s.chain_binding i hc
  settings := s.scopeSettings_binding i hc
  local? j other hj := by
    rw [local?_change hi, hc]
    exact if_neg fun hname => hj ⟨hname.1, Option.some.inj hname.2⟩
  read cell hcell hl := by
    refine read_change h i c fun hm => ?_
    obtain ⟨other, hother, hbound⟩ | hnew := made?_cases hm
    · obtain rfl := Option.some.inj (hc.symm.trans hother)
      exact hl hbound
    · exact hnew hcell
  functions := hf

theorem settings_congr (hc : s'.chain i = s.chain i)
    (h : ∀ j : Nat, s'.scopes[j]?.bind (·.settings) = s.scopes[j]?.bind (·.settings)) :
    s'.settings i = s.settings i := by
  rw [settings, settings, hc]
  exact congrArg (Option.getD · _) (findSome?_congr fun j _ => h j)

theorem SameBut.function_iff (h : s.SameBut s' i name)
    (hs : ∀ f, s.local? i name ≠ some (.function f))
    (hs' : ∀ f, s'.local? i name ≠ some (.function f)) (j : Nat) (other : String) (f : Function) :
    s'.local? j other = some (.function f) ↔ s.local? j other = some (.function f) := by
  by_cases hj : i = j ∧ name = other
  · obtain ⟨rfl, rfl⟩ := hj
    exact ⟨fun hl => absurd hl (hs' f), fun hl => absurd hl (hs f)⟩
  · rw [h.local? j other hj]

theorem lookup?_of_local? {d : Definition} (h : s.local? i name = some d) :
    s.lookup? i name = some d := by
  rw [lookup?, chain, List.findSome?_cons, h]

theorem lookup?_of_unbound (h : s.local? i name = none) :
    s.lookup? i name = (s.chain i).tail.findSome? fun j => s.local? j name := by
  rw [lookup?, chain, List.findSome?_cons, h, List.tail_cons]

theorem target_shows_no_function {source : Text.Source} {t : Expr}
    (h : s.parse i source = .ok (.define name t)) (f : Function) :
    s.lookup? i name ≠ some (.function f) := by
  intro hl
  obtain ⟨text, -, hp⟩ := parse_eq_ok h
  cases (Parse.isPlain_of_parse hp).1 with
  | define hn hf ht => exact hf f (meaning_eq_function_iff.2 hl)

theorem target_not_function {source : Text.Source} {t : Expr}
    (h : s.parse i source = .ok (.define name t)) (f : Function) :
    s.local? i name ≠ some (.function f) :=
  fun hl => target_shows_no_function h f (lookup?_of_local? hl)

theorem lookup?_of_mem_calls {source : Text.Source} {t : Expr}
    (hp : s.parse i source = .ok t) :
    ∀ c ∈ t.calls, ∃ f, c.2 = some f ∧ s.lookup? i c.1 = some (.function f) := by
  intro c hc
  obtain ⟨text, -, hparse⟩ := parse_eq_ok hp
  obtain ⟨f, hf, hmeaning⟩ := (Parse.isPlain_of_parse hparse).1.calls c hc
  exact ⟨f, hf, meaning_eq_function_iff.1 hmeaning⟩

theorem execute_of_parse {source : Text.Source} {t : Expr} (h : s.parse i source = .ok t) :
    s.execute i source = .ok (s.perform i t) := by
  rw [execute, h]

theorem obey_of_execute {source : Text.Source} {r : Executed} (h : s.execute i source = .ok r) :
    s.obey i (.execute source) = r.store := by
  rw [obey, h]

theorem perform_undefined (name : String) {t : Expr}
    (hv : (t.evaluate (s.context i)).value.isUndefined = true) :
    ∃ events, s.perform i (.define name t) =
      ⟨⟨.undefine, .define name t, (t.evaluate (s.context i)).value, (s.settings i).precision⟩,
        events, s.change i (.undefine name)⟩ := by
  simp only [perform, if_pos hv]
  exact ⟨_, rfl⟩

theorem perform_defined (name : String) {t : Expr}
    (hv : ¬(t.evaluate (s.context i)).value.isUndefined = true) :
    ∃ events, s.perform i (.define name t) =
      ⟨⟨.define, .define name t, (t.evaluate (s.context i)).value, (s.settings i).precision⟩,
        events, s.change i (.constant name (t.evaluate (s.context i)).value)⟩ := by
  simp only [perform, if_neg hv]
  exact ⟨_, rfl⟩

theorem lookup?_undefine (h : s.Sound) (hi : i < s.scopes.size) (name : String) :
    (s.change i (.undefine name)).local? i name = none ∧
      (s.change i (.undefine name)).lookup? i name =
        (s.chain i).tail.findSome? fun j => s.local? j name := by
  have hlocal : (s.change i (.undefine name)).local? i name = none := by
    rw [local?_change hi]
    exact if_pos ⟨rfl, rfl⟩
  have hsame := sameBut_change h hi (c := .undefine name) rfl rfl
  refine ⟨hlocal, ?_⟩
  rw [lookup?_of_unbound hlocal, hsame.chain]
  refine findSome?_congr fun j hj => hsame.local? j name ?_
  exact fun hij => Nat.ne_of_gt (h.outer i j hj) hij.1

theorem constant?_defineConstant (h : s.Sound) (hi : i < s.scopes.size) (name : String)
    (value : Number) :
    (s.change i (.constant name value)).constant? i name = some value ∧
      ∃ cell, (s.change i (.constant name value)).local? i name = some (.constant cell) ∧
        (s.change i (.constant name value)).read cell = value := by
  have hlocal : (s.change i (.constant name value)).local? i name =
      some (.constant (s.cellFor i name)) := by
    rw [local?_change hi]
    exact if_pos ⟨rfl, rfl⟩
  have hread : (s.change i (.constant name value)).read (s.cellFor i name) = value :=
    (read_defineConstant h i name value _).trans (if_pos rfl)
  refine ⟨?_, _, hlocal, hread⟩
  rw [constant?, lookup?_of_local? hlocal]
  exact congrArg some hread

/-- In any tree of scopes a source is refused, evaluated, or run as a definition; the value is the
one before. -/
theorem execute_transition (settings : Option Settings) (cs : List (Nat × Command)) (i : Nat)
    (hi : i < ((root settings).run cs).scopes.size) (source : Text.Source) :
    let s := (root settings).run cs
    let value (t : Expr) := (t.evaluate (s.context i)).value
    (match s.parse i source with
      | .error e => s.execute i source = .error e ∧ s.obey i (.execute source) = s
      | .ok (.define a t) =>
        ∃ r, s.execute i source = .ok r ∧ s.obey i (.execute source) = r.store ∧
          s.SameBut r.store i a ∧
          (∀ j b f, r.store.local? j b = some (.function f) ↔ s.local? j b = some (.function f)) ∧
          r.outcome.expr = .define a t ∧ r.outcome.value = value t ∧
          if ((value t).re.isNaN || (value t).im.isNaN) &&
              !((value t).re.isInf || (value t).im.isInf) then
            r.outcome.action = .undefine ∧ r.store.local? i a = none ∧
              r.store.lookup? i a = (s.chain i).tail.findSome? (fun j => s.local? j a) ∧
              ∀ cell, r.store.read cell = s.read cell
          else
            r.outcome.action = .define ∧ r.store.constant? i a = some (value t) ∧
              ∃ cell, r.store.local? i a = some (.constant cell) ∧ r.store.read cell = value t
      | .ok t =>
        ∃ r, s.execute i source = .ok r ∧ s.obey i (.execute source) = r.store ∧ r.store = s ∧
          r.outcome.expr = t ∧ r.outcome.value = value t ∧ r.outcome.action = .evaluate) ∧
    ∀ t : Expr,
      (t.evaluateIn s i).1 = t.evaluate (s.context i) ∧ s.Extends (t.evaluateIn s i).2 := by
  intro s value
  have hs : s.Sound := sound_run settings cs
  refine ⟨?_, fun t => Expr.evaluateIn_eq hs hi t⟩
  cases hp : s.parse i source with
  | error e =>
    have he : s.execute i source = .error e := by rw [execute, hp]
    exact ⟨he, by rw [obey, he]⟩
  | ok t =>
    have he := execute_of_parse hp
    cases t with
    | define a t =>
      have hf := target_not_function hp
      by_cases hv : (value t).isUndefined = true
      · obtain ⟨events, hr⟩ := perform_undefined a hv
        obtain ⟨hlocal, hlookup⟩ := lookup?_undefine hs hi a
        have hsame : s.SameBut (s.change i (.undefine a)) i a := sameBut_change hs hi rfl rfl
        rw [hr] at he
        refine ⟨_, he, obey_of_execute he, hsame, ?_, rfl, rfl, ?_⟩
        · exact hsame.function_iff hf fun f hl => by cases hlocal.symm.trans hl
        · exact (if_pos hv).mpr ⟨rfl, hlocal, hlookup, fun cell => rfl⟩
      · obtain ⟨events, hr⟩ := perform_defined a hv
        obtain ⟨hconstant, cell, hlocal, hread⟩ := constant?_defineConstant hs hi a (value t)
        have hsame : s.SameBut (s.change i (.constant a (value t))) i a :=
          sameBut_change hs hi rfl (s.functions_defineConstant i a _)
        rw [hr] at he
        refine ⟨_, he, obey_of_execute he, hsame, ?_, rfl, rfl, ?_⟩
        · exact hsame.function_iff hf fun f hl => by cases hlocal.symm.trans hl
        · exact (if_neg hv).mpr ⟨rfl, hconstant, cell, hlocal, hread⟩
    | _ => exact ⟨_, he, obey_of_execute he, rfl, rfl, rfl, rfl⟩

theorem execute_transition_outer :
    let s := (root none).run [(0, .constant "a" .one), (0, .child none)]
    1 < s.scopes.size ∧ ∃ r, s.execute 1 (.text "a := b") = .ok r ∧
      r.outcome.action = .undefine ∧ r.store.lookup? 1 "a" = s.local? 0 "a" := by
  intro s
  have hi : 1 < s.scopes.size := by decide
  have hw : Expr.WellFormed (s.vocabulary 1) (.define "a" (.symbol "b")) :=
    .define (isName_of_all (by decide) (by decide)) nofun
      (.symbol (isName_of_all (by decide) (by decide)) nofun nofun)
  have hp : s.parse 1 (.text "a := b") = .ok (.define "a" (.symbol "b")) :=
    parse_text.2 (Parse.parse_render hw)
  have h := (execute_transition none [(0, .constant "a" .one), (0, .child none)] 1 hi
    (.text "a := b")).1
  rw [hp] at h
  obtain ⟨r, he, -, -, -, -, -, h⟩ := h
  have hv : (Number.nan.re.isNaN || Number.nan.im.isNaN) &&
      !(Number.nan.re.isInf || Number.nan.im.isInf) := by decide +kernel
  obtain ⟨haction, -, hlookup, -⟩ := (if_pos hv).mp h
  exact ⟨hi, r, he, haction, hlookup⟩

end ComplexCalculator.Store
