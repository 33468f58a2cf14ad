import ComplexCalculator.Proofs.Parse.RoundTrip

/-!
# Replaying a session

A session runs lines, each in one of the scopes of a store. A line that was accepted echoes the tree
that it was read to, and the text of this tree is read to it again as long as the scope means the
same by its names. So the echoes of a session, run from the same store, go through the same stores,
one after the other, and give the same answers.
-/
namespace ComplexCalculator.Store
open Text

def after (s : Store) : Except LineError Executed → Store
  | .ok r => r.store
  | .error _ => s

def executeAll (s : Store) : List (Nat × Source) → List (Except LineError Executed) × Store
  | [] => ([], s)
  | (i, source) :: lines =>
    let answer := s.execute i source
    let rest := (s.after answer).executeAll lines
    (answer :: rest.1, rest.2)

/-- The lines that were accepted, each with the text of its tree in place of what was given. -/
def echoes (lines : List (Nat × Source)) (answers : List (Except LineError Executed)) :
    List (Nat × Source) :=
  (lines.zip answers).filterMap fun p =>
    p.2.toOption.map fun r => (p.1.1, .text r.outcome.expr.render)

theorem parse_render_of_parse {s : Store} {i : Nat} {source : Source} {t : Expr}
    (h : s.parse i source = .ok t) : s.parse i (.text t.render) = .ok t := by
  obtain ⟨text, -, hp⟩ := parse_eq_ok h
  obtain ⟨hw, hu⟩ := Parse.isPlain_of_parse hp
  exact parse_text.2 ((Parse.parse_render hw).trans (congrArg _ hu))

theorem perform_expr (s : Store) (i : Nat) (t : Expr) : (s.perform i t).outcome.expr = t := by
  cases t with
  | define name t =>
    simp only [perform]
    split <;> rfl
  | _ => rfl

theorem execute_render_of_execute {s : Store} {i : Nat} {source : Source} {r : Executed}
    (h : s.execute i source = .ok r) : s.execute i (.text r.outcome.expr.render) = .ok r := by
  cases hp : s.parse i source with
  | error e =>
    rw [execute, hp] at h
    cases h
  | ok t =>
    rw [execute, hp] at h
    cases h
    rw [perform_expr, execute, parse_render_of_parse hp]

theorem executeAll_of_ok {s : Store} {i : Nat} {source : Source} {r : Executed}
    (h : s.execute i source = .ok r) (lines : List (Nat × Source)) :
    s.executeAll ((i, source) :: lines) =
      (.ok r :: (r.store.executeAll lines).1, (r.store.executeAll lines).2) := by
  simp only [executeAll, h, after]

theorem executeAll_of_error {s : Store} {i : Nat} {source : Source} {e : LineError}
    (h : s.execute i source = .error e) (lines : List (Nat × Source)) :
    s.executeAll ((i, source) :: lines) =
      (.error e :: (s.executeAll lines).1, (s.executeAll lines).2) := by
  simp only [executeAll, h, after]

/-- Replaying the echoes of a session from where it began answers what the accepted lines have
answered: every line is accepted, with the action, the value, the echo at any precision and the
store of the line that it stands for. In the end every scope binds what it bound. -/
theorem replay_repeats_session (s : Store) (lines : List (Nat × Source)) :
    let session := s.executeAll lines
    let replay := s.executeAll (echoes lines session.1)
    replay.1 = session.1.filter (·.isOk) ∧ replay.2 = session.2 := by
  induction lines generalizing s with
  | nil => exact ⟨rfl, rfl⟩
  | cons line lines ih =>
    obtain ⟨i, source⟩ := line
    cases he : s.execute i source with
    | error e =>
      rw [executeAll_of_error he]
      exact ih s
    | ok r =>
      obtain ⟨hanswers, hstore⟩ := ih r.store
      -- The echo of the line comes first, and it leads to the same store.
      have hagain := executeAll_of_ok (execute_render_of_execute he)
        (echoes lines (r.store.executeAll lines).1)
      rw [executeAll_of_ok he]
      exact ⟨(congrArg Prod.fst hagain).trans (congrArg (.ok r :: ·) hanswers),
        (congrArg Prod.snd hagain).trans hstore⟩

end ComplexCalculator.Store
