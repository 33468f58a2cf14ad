import ComplexCalculator.Proofs.Parse.Vocabulary
import ComplexCalculator.Proofs.Session.Transition

/-!
# Lines and functions

A name that means a function is a call wherever a line reads it, so no line defines or removes it:
not in its own scope, nor in any scope that a look-up passes on its way to the function. Hence lines
keep all functions that a scope shows. A scope with nothing around it shows its own bindings only,
so it gets no new functions either, and its lax reading stays as it is.
-/
namespace ComplexCalculator.Store

variable {s s' s'' : Store} {i : Nat}

/-- The way out of a scope goes on as it does from every scope on it. -/
def Nested (s : Store) : Prop :=
  ∀ j before i after, s.chain j = before ++ i :: after → s.chain i = i :: after

theorem chain_fresh (s : Store) {j : Nat} (hj : s.scopes.size ≤ j) : s.chain j = [j] := by
  simp [chain, Array.getElem?_eq_none hj]

theorem Sound.lt_size_of_mem_tail (h : s.Sound) {j k : Nat} (hk : k ∈ (s.chain j).tail) :
    k < s.scopes.size := by
  by_cases hj : j < s.scopes.size
  · exact Nat.lt_trans (h.outer j k hk) hj
  · simp [chain_fresh s (Nat.not_lt.1 hj)] at hk

theorem nested_root (settings : Option Settings) : (root settings).Nested := by
  intro j before i after h
  rw [chain_root] at h
  cases before with
  | nil =>
    obtain ⟨rfl, rfl⟩ := List.cons.inj h
    exact chain_root settings j
  | cons b before => simp at h

theorem Nested.change (h : s.Nested) (hs : s.Sound) (hi : i < s.scopes.size) (c : Change) :
    (s.change i c).Nested := by
  intro j before k after hj
  cases before with
  | nil =>
    obtain ⟨rfl, -⟩ := List.cons.inj hj
    exact hj
  | cons b before =>
    -- Beyond the first scope the way out is an old one.
    have hold : s.chain k = k :: after ∧ k < s.scopes.size := by
      obtain hc | ⟨-, hc⟩ := s.chain_change_cases i c j
      · rw [hc] at hj
        refine ⟨h j (b :: before) k after hj, hs.lt_size_of_mem_tail (j := j) ?_⟩
        simp [hj]
      · obtain ⟨-, ho⟩ := List.cons.inj (hc.symm.trans hj)
        exact ⟨h i before k after ho, hs.lt_of_mem_chain hi (by simp [ho])⟩
    obtain hc | ⟨hk, -⟩ := s.chain_change_cases i c k
    · exact hc.trans hold.1
    · exact absurd hold.2 (Nat.not_lt_of_le (Nat.le_of_eq hk.symm))

theorem Evolves.nested (h : s.Evolves s') (hs : s.Sound) (hn : s.Nested) : s'.Nested := by
  induction h with
  | refl => exact hn
  | change h hi c ih => exact ih.change (h.sound hs) hi c

theorem nested_run (settings : Option Settings) (cs : List (Nat × Command)) :
    ((root settings).run cs).Nested :=
  (evolves_run .refl cs).nested (sound_root settings) (nested_root settings)

theorem Nested.lookup?_split (h : s.Nested) {j : Nat} {name : String} {d : Definition}
    (hl : s.lookup? j name = some d) :
    ∃ before k after, s.chain j = before ++ k :: after ∧ s.local? k name = some d ∧
      ∀ i ∈ before, s.local? i name = none ∧ s.lookup? i name = some d := by
  obtain ⟨before, k, after, hc, hk, hnone⟩ := List.findSome?_eq_some_iff.1 hl
  refine ⟨before, k, after, hc, hk, fun i hi => ⟨hnone i hi, ?_⟩⟩
  obtain ⟨outside, inside, rfl⟩ := List.append_of_mem hi
  rw [List.append_assoc, List.cons_append] at hc
  rw [lookup?, h j outside i _ hc]
  exact List.findSome?_eq_some_iff.2 ⟨i :: inside, k, after, rfl, hk,
    fun x hx => hnone x (List.mem_append_right _ hx)⟩

def assignment (name : String) (value : Number) : Change :=
  if value.isUndefined then .undefine name else .constant name value

theorem assignment_name? (name : String) (value : Number) :
    (assignment name value).name? = some name := by
  unfold assignment
  split <;> rfl

theorem functions_assignment (s : Store) (i : Nat) (name : String) (value : Number) :
    (s.change i (assignment name value)).functions = s.functions := by
  unfold assignment
  split
  · rfl
  · exact s.functions_defineConstant i name value

theorem made?_assignment (s : Store) (i : Nat) (name : String) (value : Number) (f : Function) :
    s.made? i (assignment name value) ≠ some (.function f) := by
  unfold assignment
  split <;> simp [made?]

theorem perform_define_store (s : Store) (i : Nat) (name : String) (t : Expr) :
    (s.perform i (.define name t)).store =
      s.change i (assignment name (t.evaluate (s.context i)).value) := by
  simp only [perform, assignment]
  split <;> rfl

theorem sameBut_assignment (hs : s.Sound) (hi : i < s.scopes.size) (name : String)
    (value : Number) : s.SameBut (s.change i (assignment name value)) i name :=
  sameBut_change hs hi (assignment_name? name value) (s.functions_assignment i name value)

theorem obey_execute_cases (hs : s.Sound) (hi : i < s.scopes.size) (source : Text.Source) :
    s.obey i (.execute source) = s ∨
      ∃ name, (∀ f, s.lookup? i name ≠ some (.function f)) ∧
        s.SameBut (s.obey i (.execute source)) i name ∧
        ∀ f, (s.obey i (.execute source)).local? i name ≠ some (.function f) := by
  cases hp : s.parse i source with
  | error e => exact .inl (by rw [obey, execute, hp])
  | ok t =>
    rw [obey_of_execute (execute_of_parse hp)]
    cases t with
    | define name t =>
      rw [perform_define_store]
      refine .inr ⟨name, target_shows_no_function hp, sameBut_assignment hs hi name _, fun f hl => ?_⟩
      rw [local?_change hi, if_pos ⟨rfl, assignment_name? name _⟩] at hl
      exact s.made?_assignment i name _ f hl
    | _ => exact .inl rfl

structure KeepsFunctions (s s' : Store) : Prop where
  chain : ∀ j, s'.chain j = s.chain j
  settings : ∀ j : Nat, s'.scopes[j]?.bind (·.settings) = s.scopes[j]?.bind (·.settings)
  local? : ∀ j name f, s'.local? j name = some (.function f) ↔ s.local? j name = some (.function f)
  lookup? : ∀ j name f, s.lookup? j name = some (.function f) →
    s'.lookup? j name = some (.function f)

theorem KeepsFunctions.refl (s : Store) : s.KeepsFunctions s :=
  ⟨fun _ => rfl, fun _ => rfl, fun _ _ _ => .rfl, fun _ _ _ h => h⟩

theorem KeepsFunctions.trans (h : s.KeepsFunctions s') (h' : s'.KeepsFunctions s'') :
    s.KeepsFunctions s'' where
  chain j := (h'.chain j).trans (h.chain j)
  settings j := (h'.settings j).trans (h.settings j)
  local? j name f := (h'.local? j name f).trans (h.local? j name f)
  lookup? j name f hl := h'.lookup? j name f (h.lookup? j name f hl)

theorem keepsFunctions_line (hs : s.Sound) (hn : s.Nested) (hi : i < s.scopes.size)
    (source : Text.Source) : s.KeepsFunctions (s.obey i (.execute source)) := by
  obtain he | ⟨target, hf, hsame, hf'⟩ := obey_execute_cases hs hi source
  · rw [he]
    exact .refl s
  · have hlocal := hsame.function_iff (fun f hl => hf f (lookup?_of_local? hl)) hf'
    refine ⟨hsame.chain, hsame.settings, hlocal, fun j name f hl => ?_⟩
    obtain ⟨before, k, after, hc, hk, hpassed⟩ := hn.lookup?_split hl
    rw [lookup?, hsame.chain, hc]
    refine List.findSome?_eq_some_iff.2 ⟨before, k, after, rfl, (hlocal k name f).2 hk, ?_⟩
    intro x hx
    obtain ⟨hnone, hshown⟩ := hpassed x hx
    -- The scope of the line is not passed on the way to a function of the target's name.
    have hne : ¬(i = x ∧ target = name) := by
      rintro ⟨rfl, rfl⟩
      exact hf f hshown
    exact (hsame.local? x name hne).trans hnone

def lineCommands (lines : List (Nat × Text.Source)) : List (Nat × Command) :=
  lines.map fun line => (line.1, .execute line.2)

theorem keepsFunctions_lines (hs : s.Sound) (hn : s.Nested) (lines : List (Nat × Text.Source)) :
    s.KeepsFunctions (s.run (lineCommands lines)) := by
  induction lines generalizing s with
  | nil => exact .refl s
  | cons line lines ih =>
    obtain ⟨i, source⟩ := line
    change s.KeepsFunctions
      ((if i < s.scopes.size then s.obey i (.execute source) else s).run (lineCommands lines))
    split
    · rename_i hi
      have he : s.Evolves (s.obey i (.execute source)) := by
        rw [obey_eq]
        exact evolves_changeAll .refl hi _
      exact (keepsFunctions_line hs hn hi source).trans (ih (he.sound hs) (he.nested hs hn))
    · exact ih hs hn

theorem lookup?_of_chain {i : Nat} (h : s.chain i = [i]) (name : String) :
    s.lookup? i name = s.local? i name := by
  rw [lookup?, h, List.findSome?_singleton]

theorem KeepsFunctions.concur (h : s.KeepsFunctions s') (hc : s.chain i = [i])
    (hi : (s.settings i).isStrict = false) (name : String) :
    (s'.vocabulary i).Concur (s.vocabulary i) name where
  function f := by
    have hlocal := h.local? i name f
    rw [← lookup?_of_chain hc, ← lookup?_of_chain ((h.chain i).trans hc)] at hlocal
    exact meaning_eq_function_iff.trans (hlocal.trans meaning_eq_function_iff.symm)
  unknown hs := by
    have hs : (s'.settings i).isStrict = true := hs
    rw [settings_congr (h.chain i) h.settings, hi] at hs
    cases hs

theorem KeepsFunctions.parse_eq (h : s.KeepsFunctions s') (hc : s.chain i = [i])
    (hi : (s.settings i).isStrict = false) (source : Text.Source) :
    s'.parse i source = s.parse i source := by
  have hs : (s'.vocabulary i).isStrict = (s.vocabulary i).isStrict :=
    congrArg Settings.isStrict (settings_congr (h.chain i) h.settings)
  have htext (text : String) : ComplexCalculator.parse (s'.vocabulary i) text =
      ComplexCalculator.parse (s.vocabulary i) text :=
    parse_congr hs fun _ _ name _ => h.concur hc hi name
  simp only [parse, htext]

/-- In any tree of scopes, whatever lines are run in them: a name that means a function in a scope
goes on to mean this very function there. And in a scope without a parent that reads laxly every
source is read as before, to the same tree with the same functions or to the same error. -/
theorem lines_keep_functions (settings : Option Settings) (cs : List (Nat × Command))
    (lines : List (Nat × Text.Source)) :
    let s := (root settings).run cs
    let s' := s.run (lineCommands lines)
    (∀ i name f, s.lookup? i name = some (.function f) → s'.lookup? i name = some (.function f)) ∧
    ∀ i, s.chain i = [i] → (s.settings i).isStrict = false →
      ∀ source, s'.parse i source = s.parse i source := by
  intro s s'
  have h : s.KeepsFunctions s' :=
    keepsFunctions_lines (sound_run settings cs) (nested_run settings cs) lines
  exact ⟨h.lookup?, fun i hc hi source => h.parse_eq hc hi source⟩

end ComplexCalculator.Store
