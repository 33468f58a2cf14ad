import ComplexCalculator.Proofs.Expr.Names
import ComplexCalculator.Proofs.Parse.Lockstep
import ComplexCalculator.Proofs.Scope.Evaluation

/-!
# What strict reading resolves

A tree that has been read strictly has a constant for each of its symbols but the targets of
definitions, so its evaluation in the same scope finds them all. To say so the reports of an
evaluation are told apart by the places of the tree that they come from: symbols, targets and calls.
A name that is reported as unresolved is a target, or it stands in the body of a function that is
called.
-/
namespace ComplexCalculator

inductive Origin
  | symbol
  | target
  | call (callee : Function)

mutual
def Expr.reports (c : Context) : Expr → List (Origin × Event)
  | .number _ => []
  | .symbol name => (c.symbol name).events.map (.symbol, ·)
  | .negate t => t.reports c
  | .factorial t => t.reports c
  | .binary _ l r => l.reports c ++ r.reports c
  | .define name t => (c.symbol name).events.map (.target, ·) ++ t.reports c
  | .call _ callee ts =>
    Expr.reportsAll c ts ++
      match callee with
      | some f => (f.invoke c (Expr.evaluateAll c ts).value).events.map (.call f, ·)
      | none => []

def Expr.reportsAll (c : Context) : List Expr → List (Origin × Event)
  | [] => []
  | t :: ts => t.reports c ++ Expr.reportsAll c ts
end

theorem map_snd_origin (o : Origin) (es : List Event) : (es.map (o, ·)).map Prod.snd = es := by
  rw [List.map_map]
  exact List.map_id es

mutual
theorem Expr.map_snd_reports (c : Context) :
    ∀ t : Expr, (t.reports c).map Prod.snd = (t.evaluate c).events
  | .number v => by rw [Expr.reports, Expr.evaluate]; rfl
  | .symbol name => by rw [Expr.reports, Expr.evaluate, map_snd_origin]
  | .negate t => by rw [Expr.reports, Expr.evaluate, Expr.map_snd_reports c t]
  | .factorial t => by rw [Expr.reports, Expr.evaluate, Expr.map_snd_reports c t]
  | .binary op l r => by
    rw [Expr.reports, Expr.evaluate, List.map_append, Expr.map_snd_reports c l,
      Expr.map_snd_reports c r]
  | .define name t => by
    rw [Expr.reports, Expr.evaluate, List.map_append, map_snd_origin, Expr.map_snd_reports c t]
  | .call name none ts => by
    rw [Expr.reports, Expr.evaluate, List.map_append, Expr.map_snd_reportsAll c ts]
    exact List.append_nil _
  | .call name (some f) ts => by
    rw [Expr.reports, Expr.evaluate, List.map_append, Expr.map_snd_reportsAll c ts, map_snd_origin]

theorem Expr.map_snd_reportsAll (c : Context) :
    ∀ ts : List Expr, (Expr.reportsAll c ts).map Prod.snd = (Expr.evaluateAll c ts).events
  | [] => by rw [Expr.reportsAll, Expr.evaluateAll]; rfl
  | t :: ts => by
    rw [Expr.reportsAll, Expr.evaluateAll, List.map_append, Expr.map_snd_reports c t,
      Expr.map_snd_reportsAll c ts]
end

/-- Among some targets and calls, the origins from which a name may be reported as unresolved
although all symbols are constants: it is a target, or the body of a called function reports it. -/
inductive Unresolvable (c : Context) (targets : List String)
    (calls : List (String × Option Function)) : Origin → Event → Prop
  | target {name fallback} (hname : name ∈ targets) :
      Unresolvable c targets calls .target (.unresolved name fallback)
  | body {called n parameters body arguments e}
      (hcall : (called, some (.custom n parameters body)) ∈ calls)
      (hlength : arguments.length = parameters.length)
      (he : e ∈ (body.evaluate (c.bind parameters arguments)).events) :
      Unresolvable c targets calls (.call (.custom n parameters body)) e

section
variable {c : Context} {targets targets' names names' : List String}
  {calls calls' : List (String × Option Function)} {o : Origin} {e : Event}

theorem Unresolvable.mono (h : Unresolvable c targets calls o e)
    (ht : ∀ name ∈ targets, name ∈ targets') (hc : ∀ call ∈ calls, call ∈ calls') :
    Unresolvable c targets' calls' o e := by
  cases h with
  | target hname => exact .target (ht _ hname)
  | body hcall hlength he => exact .body (hc _ hcall) hlength he

theorem Unresolvable.left (h : Unresolvable c targets calls o e) :
    Unresolvable c (targets ++ targets') (calls ++ calls') o e :=
  h.mono (fun _ => List.mem_append_left _) fun _ => List.mem_append_left _

theorem Unresolvable.right (h : Unresolvable c targets' calls' o e) :
    Unresolvable c (targets ++ targets') (calls ++ calls') o e :=
  h.mono (fun _ => List.mem_append_right _) fun _ => List.mem_append_right _

def Context.Resolves (c : Context) (names : List String) : Prop :=
  ∀ name ∈ names, ∃ v, c.constant? name = some v

theorem Context.Resolves.left (h : c.Resolves (names ++ names')) : c.Resolves names :=
  (List.forall_mem_append.1 h).1

theorem Context.Resolves.right (h : c.Resolves (names ++ names')) : c.Resolves names' :=
  (List.forall_mem_append.1 h).2

theorem Context.events_symbol {name : String} (he : e ∈ (c.symbol name).events) :
    c.constant? name = none ∧ e = .unresolved name c.fallback := by
  unfold Context.symbol at he
  cases hv : c.constant? name with
  | some v => simp [hv] at he
  | none =>
    rw [hv] at he
    exact ⟨rfl, List.mem_singleton.1 he⟩

theorem Function.unresolved_events {f : Function} {arguments : List Number} {called name : String}
    {fallback : Fallback} (h : .unresolved name fallback ∈ (f.invoke c arguments).events)
    (hf : (called, some f) ∈ calls) :
    Unresolvable c targets calls (.call f) (.unresolved name fallback) := by
  cases f with
  | native n f =>
    rw [Function.invoke] at h
    split at h <;> simp at h
  | custom n parameters body =>
    rw [Function.invoke] at h
    split at h
    · rename_i hlength
      exact .body hf hlength h
    · simp at h
end

mutual
theorem Expr.unresolvable_of_reports {c : Context} {o : Origin} {name : String}
    {fallback : Fallback} : ∀ {t : Expr}, c.Resolves t.symbols →
      (o, .unresolved name fallback) ∈ t.reports c →
      Unresolvable c t.targets t.calls o (.unresolved name fallback)
  | .number v, _, h => by
    rw [Expr.reports] at h
    cases h
  | .symbol other, hc, h => by
    obtain ⟨v, hv⟩ := hc other (by rw [Expr.symbols]; exact List.mem_cons_self)
    rw [Expr.reports] at h
    obtain ⟨e, he, -⟩ := List.mem_map.1 h
    cases hv.symm.trans (Context.events_symbol he).1
  | .negate t, hc, h => by
    rw [Expr.reports] at h
    rw [Expr.targets, Expr.calls]
    exact Expr.unresolvable_of_reports (by rwa [Expr.symbols] at hc) h
  | .factorial t, hc, h => by
    rw [Expr.reports] at h
    rw [Expr.targets, Expr.calls]
    exact Expr.unresolvable_of_reports (by rwa [Expr.symbols] at hc) h
  | .binary op l r, hc, h => by
    rw [Expr.symbols] at hc
    rw [Expr.reports] at h
    rw [Expr.targets, Expr.calls]
    rcases List.mem_append.1 h with h | h
    · exact (Expr.unresolvable_of_reports hc.left h).left
    · exact (Expr.unresolvable_of_reports hc.right h).right
  | .define other t, hc, h => by
    rw [Expr.symbols] at hc
    rw [Expr.reports] at h
    rw [Expr.targets, Expr.calls]
    rcases List.mem_append.1 h with h | h
    · obtain ⟨e, he, heq⟩ := List.mem_map.1 h
      obtain ⟨rfl, rfl⟩ := Prod.mk.inj heq
      cases (Context.events_symbol he).2
      exact .target List.mem_cons_self
    · exact (Expr.unresolvable_of_reports hc h).mono (fun _ => List.mem_cons_of_mem _) fun _ => id
  | .call called none ts, hc, h => by
    rw [Expr.symbols] at hc
    rw [Expr.reports, List.append_nil] at h
    rw [Expr.targets, Expr.calls]
    exact (Expr.unresolvable_of_reportsAll hc h).mono (fun _ => id) fun _ => List.mem_cons_of_mem _
  | .call called (some f) ts, hc, h => by
    rw [Expr.symbols] at hc
    rw [Expr.reports] at h
    rw [Expr.targets, Expr.calls]
    rcases List.mem_append.1 h with h | h
    · have hts := Expr.unresolvable_of_reportsAll hc h
      exact hts.mono (fun _ => id) fun _ => List.mem_cons_of_mem _
    · obtain ⟨e, he, heq⟩ := List.mem_map.1 h
      obtain ⟨rfl, rfl⟩ := Prod.mk.inj heq
      exact Function.unresolved_events he List.mem_cons_self

theorem Expr.unresolvable_of_reportsAll {c : Context} {o : Origin} {name : String}
    {fallback : Fallback} : ∀ {ts : List Expr}, c.Resolves (Expr.symbolsAll ts) →
      (o, .unresolved name fallback) ∈ Expr.reportsAll c ts →
      Unresolvable c (Expr.targetsAll ts) (Expr.callsAll ts) o (.unresolved name fallback)
  | [], _, h => by
    rw [Expr.reportsAll] at h
    cases h
  | t :: ts, hc, h => by
    rw [Expr.symbolsAll] at hc
    rw [Expr.reportsAll] at h
    rw [Expr.targetsAll, Expr.callsAll]
    rcases List.mem_append.1 h with h | h
    · exact (Expr.unresolvable_of_reports hc.left h).left
    · exact (Expr.unresolvable_of_reportsAll hc.right h).right
end

namespace Store

theorem exists_constant {s : Store} {i : Nat} {name : String} (hu : s.meaning i name ≠ .unknown)
    (hf : ∀ f, s.meaning i name ≠ .function f) : ∃ v, s.constant? i name = some v := by
  cases hl : s.lookup? i name with
  | none => exact absurd (by simp [meaning, hl]) hu
  | some d =>
    cases d with
    | function f => exact absurd (by simp [meaning, hl]) (hf f)
    | constant cell => exact ⟨s.read cell, by simp [constant?, hl]⟩

/-- Strict reading in a scope gives a tree that lax reading gives as well, and in which all symbols
but the targets of definitions are constants of the scope; or it refuses a name that the scope does
not know and that no `:=` follows in the text; or it fails as lax reading does. -/
theorem strict_restricts_lax (s : Store) (i : Nat) (text : String) :
    let v := s.vocabulary i
    match ComplexCalculator.parse v.strict text with
    | .ok t =>
      ComplexCalculator.parse v.lax text = .ok t ∧
        (∀ name ∈ t.symbols, ∃ value, s.constant? i name = some value) ∧
        (t.reports (s.context i)).map Prod.snd = (t.evaluate (s.context i)).events ∧
        ∀ o name fallback, (o, .unresolved name fallback) ∈ t.reports (s.context i) →
          Unresolvable (s.context i) t.targets t.calls o (.unresolved name fallback)
    | .error (.unknown name n) =>
      s.lookup? i name = none ∧ ∃ ks k rest,
        (Stream.ofString text).tokens = ks ++ ⟨.name name, n⟩ :: k :: rest ∧
          k.lexeme ≠ .mark .define
    | .error e => ComplexCalculator.parse v.lax text = .error e := by
  intro v
  have hlax := @Parse.parse_lax_eq v text
  split
  · rename_i t ht
    have hsymbols : (s.context i).Resolves t.symbols := by
      intro name hname
      obtain ⟨hf, hu⟩ := (Parse.isPlain_of_parse ht).1.symbols name hname
      exact exists_constant (hu rfl) hf
    rw [ht] at hlax
    exact ⟨hlax nofun, hsymbols, t.map_snd_reports _,
      fun o name fallback => Expr.unresolvable_of_reports hsymbols⟩
  · rename_i name n hname
    obtain ⟨hmeaning, htokens⟩ := Parse.parse_refuses hname
    exact ⟨meaning_eq_unknown_iff.1 hmeaning, htokens⟩
  · rename_i e hne he
    rw [he] at hlax
    exact hlax fun name n heq => hne name n (Except.error.inj heq)

end Store
end ComplexCalculator
