import ComplexCalculator.Proofs.Scope.Evaluation

/-!
# Stores refine maps

Runs of commands on a store show what the same commands do to the maps, and the cells do not come
between them: no definition is ever bound twice.
-/
namespace ComplexCalculator.Store

theorem maps_run {s : Store} (h : s.Sound) (cs : List (Nat × Command)) :
    (s.run cs).maps = s.maps.run cs := by
  induction cs generalizing s with
  | nil => rfl
  | cons c cs ih =>
    obtain ⟨i, c⟩ := c
    have hsize : s.maps.size = s.scopes.size := rfl
    simp only [run, Maps.run, hsize]
    by_cases hi : i < s.scopes.size
    · have hobey : (s.obey i c).maps = s.maps.obey i c := by
        rw [obey_eq, maps_changeAll h hi, Maps.obey, maps_vocabulary, maps_context]
      have hs : (s.obey i c).Sound := by
        rw [obey_eq]
        exact (evolves_changeAll .refl hi _).sound h
      rw [if_pos hi, if_pos hi, ih hs, hobey]
    · rw [if_neg hi, if_neg hi, ih h]

theorem maps_run_root (settings : Option Settings) (cs : List (Nat × Command)) :
    ((root settings).run cs).maps = (Maps.root settings).run cs := by
  rw [maps_run (sound_root settings), maps_root]

/-- Whatever has happened to a tree of scopes, no definition is bound twice, also not while calls
have scopes of their own, and every look-up of a constant gives what the maps give. A new value of a
constant goes into the cell that its name has in the very scope, or into one that no name has ever
had. From any moment on a cell shows the latest value as long as it is bound, and its last value for
ever after. -/
theorem definitions_refine_maps (settings : Option Settings) (cs : List (Nat × Command)) :
    let s := (root settings).run cs
    (s.Unshared ∧ ∀ i < s.scopes.size, ∀ t : Expr,
      s.Extends (t.evaluateIn s i).2 ∧ (t.evaluateIn s i).2.Unshared) ∧
    (∀ i a, s.constant? i a = ((Maps.root settings).run cs).constant? i a) ∧
    (∀ i a value, i < s.scopes.size → ∃ cell,
      (s.defineConstant i a value).local? i a = some (.constant cell) ∧
      (s.local? i a = some (.constant cell) ↔ ∃ old, s.local? i a = some (.constant old)) ∧
      (s.local? i a ≠ some (.constant cell) → ∀ before after, cs = before ++ after →
        ∀ j b, ((root settings).run before).local? j b ≠ some (.constant cell))) ∧
    ∀ i a cell, s.local? i a = some (.constant cell) → ∀ later,
      ((s.run later).local? i a = some (.constant cell) →
        ((Maps.root settings).run (cs ++ later)).get? i a =
          some (.constant ((s.run later).read cell))) ∧
      ((s.run later).local? i a ≠ some (.constant cell) → ∀ rest,
        ((s.run later).run rest).read cell = (s.run later).read cell ∧
        ∀ j b, ((s.run later).run rest).local? j b ≠ some (.constant cell)) := by
  intro s
  have hs : s.Sound := sound_run settings cs
  refine ⟨⟨hs.unshared, fun i hi t => ?_⟩, fun i a => ?_, fun i a value hi => ?_,
    fun i a cell hc later => ⟨?_, ?_⟩⟩
  · have he := (Expr.evaluateIn_eq hs hi t).2
    exact ⟨he, (he.sound hs).unshared⟩
  · rw [← maps_run_root, maps_constant?]
  · refine ⟨s.cellFor i a, (local?_defineConstant hi a value i a).trans (if_pos ⟨rfl, rfl⟩),
      ⟨fun hc => ⟨_, hc⟩, ?_⟩, ?_⟩
    · rintro ⟨old, hold⟩
      rw [cellFor_of_constant hold, hold]
    · rintro hnew before after rfl j b hb
      have hn : ∀ old, s.local? i a ≠ some (.constant old) := fun old hold =>
        hnew (by rw [cellFor_of_constant hold, hold])
      have hmade := (sound_run settings before).made j b _ hb
      have hlater := (evolves_run .refl after).hasMade hmade
      rw [← run_append, cellFor_of_not_constant hn] at hlater
      exact Nat.lt_irrefl _ hlater
  · intro hl
    have he : (s.run later).maps.get? i a = some (.constant ((s.run later).read cell)) :=
      congrArg (Option.map (s.run later).entry) hl
    rwa [maps_run hs, maps_run_root, ← Maps.run_append] at he
  · intro hl rest
    have hlater : s.Evolves (s.run later) := evolves_run .refl later
    have hr : (s.run later).Retired cell := hlater.retired_of_unbound hs hc hl
    obtain ⟨hrest, hread⟩ := (evolves_run .refl rest).retired (hlater.sound hs) hr
    exact ⟨hread, hrest.2⟩

end ComplexCalculator.Store
