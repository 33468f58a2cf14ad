import ComplexCalculator.Proofs.Parse.Content
import ComplexCalculator.Proofs.Scope.Dependence
import ComplexCalculator.Proofs.Session.Lines

/-!
# Independent definitions

A definition that does not mention a name is read to the same tree, with the same value, after the
name has been defined or removed by another line: the names of a text are those of its tree, and
they mean what they meant. And assignments of different names in one scope commute on the maps that
a store shows. So two definitions of which neither mentions the target of the other can be run in
either order.
-/
namespace ComplexCalculator

theorem Maps.set_comm (m : Maps) (i : Nat) {a b : String} (h : a ≠ b) (d e : Option Entry) :
    (m.set i a d).set i b e = (m.set i b e).set i a d := by
  simp only [Maps.set, Maps.mk.injEq, true_and, and_true]
  funext j name
  by_cases ha : a = name
  · have hb : b ≠ name := fun hb => h (ha.trans hb.symm)
    simp [ha, hb]
  · simp [ha]

theorem Maps.change_assignment (m : Maps) (i : Nat) (name : String) (value : Number) :
    m.change i (Store.assignment name value) =
      m.set i name (if value.isUndefined then none else some (.constant value)) := by
  unfold Store.assignment
  split <;> rfl

namespace Store

variable {s s' : Store} {i : Nat} {a b : String}

theorem maps_assignment_comm (hs : s.Sound) (hi : i < s.scopes.size) (h : a ≠ b)
    (x y : Number) :
    ((s.change i (assignment a x)).change i (assignment b y)).maps =
      ((s.change i (assignment b y)).change i (assignment a x)).maps := by
  have hia := Nat.lt_of_lt_of_le hi (s.scopes_size_change i (assignment a x))
  have hib := Nat.lt_of_lt_of_le hi (s.scopes_size_change i (assignment b y))
  rw [maps_change (hs.change hi _) hia, maps_change hs hi, maps_change (hs.change hi _) hib,
    maps_change hs hi]
  simp only [Maps.change_assignment]
  exact s.maps.set_comm i h _ _

theorem SameBut.lookup?_eq (h : s.SameBut s' i a) {name : String} (hn : a ≠ name) (j : Nat) :
    s'.lookup? j name = s.lookup? j name := by
  rw [lookup?, lookup?, h.chain]
  exact findSome?_congr fun k _ => h.local? k name fun hk => hn hk.2

theorem SameBut.parse_eq (h : s.SameBut s' i a) {j : Nat} {source : Text.Source} {t : Expr}
    (hp : s.parse j source = .ok t) (hf : a ∉ t.free) (hc : a ∉ t.called) :
    s'.parse j source = .ok t := by
  obtain ⟨text, hr, ht⟩ := parse_eq_ok hp
  have hs : (s'.vocabulary j).isStrict = (s.vocabulary j).isStrict :=
    congrArg Settings.isStrict (settings_congr (h.chain j) h.settings)
  have heq : ComplexCalculator.parse (s'.vocabulary j) text = .ok t := by
    refine (parse_congr hs fun k hk name hn => ?_).trans ht
    have hne : a ≠ name := by
      rintro rfl
      exact (Parse.name_mem_of_parse ht hk hn).elim hf hc
    refine Vocabulary.concur_of_meaning ?_
    simp only [vocabulary, meaning, h.lookup?_eq hne]
  simp only [parse, hr, heq]

theorem evaluate_assignment (hs : s.Sound) (hi : i < s.scopes.size) (value : Number) {t : Expr}
    (hf : a ∉ t.free) :
    t.evaluate ((s.change i (assignment a value)).context i) = t.evaluate (s.context i) := by
  have hr : s.Rebinds [a] (s.change i (assignment a value)) :=
    .binding .refl hi (assignment_name? a value) List.mem_cons_self
  have hj : s.Inside (s.change i (assignment a value)) i i :=
    ⟨[], (sameBut_assignment hs hi a value).chain i, nofun⟩
  have hsettings := hr.settings_eq hj
  refine Expr.evaluate_congr ⟨congrArg Settings.unresolved hsettings,
    congrArg Settings.factorial hsettings, fun name hname => hr.constant?_eq hs hj ?_⟩
  rw [List.mem_singleton]
  rintro rfl
  exact hf hname

theorem perform_outcome_congr {name : String} {t : Expr}
    (hv : t.evaluate (s'.context i) = t.evaluate (s.context i))
    (hp : s'.settings i = s.settings i) :
    (s'.perform i (.define name t)).outcome = (s.perform i (.define name t)).outcome := by
  simp only [perform, hv, hp]
  split <;> rfl

theorem execute_after_assignment (hs : s.Sound) (hi : i < s.scopes.size) {source : Text.Source}
    {t : Expr} (hp : s.parse i source = .ok (.define b t)) (hab : a ≠ b) (ht : a ∉ t.free)
    (ha : ∀ f, s.lookup? i a ≠ some (.function f)) (value : Number) :
    ∃ r, (s.change i (assignment a value)).execute i source = .ok r ∧
      r.outcome = (s.perform i (.define b t)).outcome ∧
      r.store = (s.change i (assignment a value)).change i
        (assignment b (t.evaluate (s.context i)).value) := by
  have hsame := sameBut_assignment hs hi a value
  have hfree : a ∉ (Expr.define b t).free := by
    rw [Expr.free, List.mem_cons]
    exact not_or.2 ⟨hab, ht⟩
  have hcalled : a ∉ (Expr.define b t).called := by
    intro hc
    obtain ⟨c, hmem, rfl⟩ := List.mem_map.1 hc
    obtain ⟨f, -, hl⟩ := lookup?_of_mem_calls hp c hmem
    exact ha f hl
  have hv := evaluate_assignment hs hi value ht
  refine ⟨_, execute_of_parse (hsame.parse_eq hp hfree hcalled), ?_, ?_⟩
  · exact perform_outcome_congr hv (settings_congr (hsame.chain i) hsame.settings)
  · rw [perform_define_store, hv]

/-- Two lines of a scope that define different names, each without reading the name of the other:
in either order both have the same outcomes, and in the end every scope shows the same functions and
the same values. -/
theorem independent_definitions_commute (settings : Option Settings) (cs : List (Nat × Command))
    (i : Nat) (first second : Text.Source) (a b : String) (t u : Expr)
    (hi : i < ((root settings).run cs).scopes.size)
    (hfirst : ((root settings).run cs).parse i first = .ok (.define a t))
    (hsecond : ((root settings).run cs).parse i second = .ok (.define b u))
    (hab : a ≠ b) (ha : a ∉ u.free) (hb : b ∉ t.free) :
    let s := (root settings).run cs
    ∃ r₁ r₂ r₁' r₂',
      s.execute i first = .ok r₁ ∧ r₁.store.execute i second = .ok r₂ ∧
      s.execute i second = .ok r₂' ∧ r₂'.store.execute i first = .ok r₁' ∧
      r₁'.outcome = r₁.outcome ∧ r₂'.outcome = r₂.outcome ∧
      ∀ j name, (r₂.store.lookup? j name).map r₂.store.entry =
        (r₁'.store.lookup? j name).map r₁'.store.entry := by
  intro s
  have hs : s.Sound := sound_run settings cs
  obtain ⟨r₂, he₂, ho₂, hr₂⟩ := execute_after_assignment hs hi hsecond hab ha
    (target_shows_no_function hfirst) (t.evaluate (s.context i)).value
  obtain ⟨r₁', he₁', ho₁', hr₁'⟩ := execute_after_assignment hs hi hfirst hab.symm hb
    (target_shows_no_function hsecond) (u.evaluate (s.context i)).value
  rw [← perform_define_store] at he₂ he₁'
  refine ⟨s.perform i (.define a t), r₂, r₁', s.perform i (.define b u),
    execute_of_parse hfirst, he₂, execute_of_parse hsecond, he₁', ho₁', ho₂.symm, fun j name => ?_⟩
  rw [← maps_lookup?, ← maps_lookup?, hr₂, hr₁', maps_assignment_comm hs hi hab]

theorem independent_definitions_commute_removal :
    let s := (root none).run [(0, .constant "a" .one), (0, .custom "f" ["x"] (.symbol "x")),
      (0, .child none), (1, .constant "a" .zero)]
    let f := Function.custom 0 ["x"] (.symbol "x")
    let u := Expr.call "f" (some f) [.number (.ofReal 2)]
    s.parse 1 (.text "a := c") = .ok (.define "a" (.symbol "c")) ∧
    s.parse 1 (.text "b := f(2)") = .ok (.define "b" u) ∧ "a" ∉ u.free ∧
    ∃ r₁ r₂ r₁' r₂',
      s.execute 1 (.text "a := c") = .ok r₁ ∧ r₁.store.execute 1 (.text "b := f(2)") = .ok r₂ ∧
      s.execute 1 (.text "b := f(2)") = .ok r₂' ∧ r₂'.store.execute 1 (.text "a := c") = .ok r₁' ∧
      r₁'.outcome = r₁.outcome ∧ r₂'.outcome = r₂.outcome ∧
      ∀ j name, (r₂.store.lookup? j name).map r₂.store.entry =
        (r₁'.store.lookup? j name).map r₁'.store.entry := by
  intro s f u
  have ht : Expr.WellFormed (s.vocabulary 1) (.define "a" (.symbol "c")) :=
    .define (isName_of_all (by decide) (by decide)) nofun
      (.symbol (isName_of_all (by decide) (by decide)) nofun nofun)
  have htwo : Number.IsLiteral (.ofReal 2) := ⟨Number.isReal_ofReal _, .inr (by decide +kernel)⟩
  have hu : Expr.WellFormed (s.vocabulary 1) (.define "b" u) :=
    .define (isName_of_all (by decide) (by decide)) nofun
      (.call (isName_of_all (by decide) (by decide)) rfl (by simp) (by simpa using .number htwo))
  have hfirst : s.parse 1 (.text "a := c") = .ok (.define "a" (.symbol "c")) :=
    parse_text.2 (Parse.parse_render ht)
  have hsecond : s.parse 1 (.text "b := f(2)") = .ok (.define "b" u) :=
    parse_text.2 (Parse.parse_render hu)
  have ha : "a" ∉ u.free := by decide
  exact ⟨hfirst, hsecond, ha, independent_definitions_commute none _ 1 _ _ "a" "b" _ _ (by decide)
    hfirst hsecond (by decide) ha (by decide)⟩

end Store
end ComplexCalculator
