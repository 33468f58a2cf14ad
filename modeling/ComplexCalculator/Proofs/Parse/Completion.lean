import ComplexCalculator.Proofs.Token.Continuation
import ComplexCalculator.Proofs.Parse.Derivation
import ComplexCalculator.Proofs.Parse.Steps

/-!
# Errors at the first token that cannot continue

The machine takes every token that some text could go on with: whatever is on its stack can be
closed, by a closing bracket for every open one and an argument for every function that still waits
behind its exponent, after an operand if one is due. What is closed so may fail for the target of a
definition only. So a token that the machine refuses is one that no text has after the tokens before
it, up to a wrong target, and what comes after it does not matter.
-/
namespace ComplexCalculator.Parse

variable {v : Vocabulary}

def one : Lexeme := .number (Binary64.ofNat 1)

def closers : List Frame → List Lexeme
  | [] => []
  | .group :: fs | .arguments _ true :: fs => .mark .closing :: closers fs
  | .exponent _ _ :: fs => one :: closers fs
  | .minus :: fs | .power _ :: fs | .chain _ _ :: fs | .arguments _ false :: fs => closers fs

def State.completion (a : State) : List Lexeme :=
  match a.focus with
  | .operand | .callee _ _ => one :: closers a.stack
  | _ => closers a.stack

theorem mem_closers (stack : List Frame) : ∀ l ∈ closers stack, l = .mark .closing ∨ l = one := by
  induction stack with
  | nil => exact List.forall_mem_nil _
  | cons f fs ih =>
    cases f with
    | minus | power base | chain link left => exact ih
    | exponent name f => exact List.forall_mem_cons.2 ⟨.inr rfl, ih⟩
    | group => exact List.forall_mem_cons.2 ⟨.inl rfl, ih⟩
    | arguments call isBracketed =>
      cases isBracketed with
      | false => exact ih
      | true => exact List.forall_mem_cons.2 ⟨.inl rfl, ih⟩

theorem isRead_closers (stack : List Frame) : ∀ l ∈ closers stack, l.IsRead := by
  intro l hl
  rcases mem_closers stack l hl with rfl | rfl
  · trivial
  · exact ⟨1, rfl⟩

theorem isRead_completion (a : State) : ∀ l ∈ a.completion, l.IsRead := by
  unfold State.completion
  split
  · exact List.forall_mem_cons.2 ⟨⟨1, rfl⟩, isRead_closers _⟩
  · exact List.forall_mem_cons.2 ⟨⟨1, rfl⟩, isRead_closers _⟩
  · exact isRead_closers _

theorem front_closers (stack : List Frame) :
    (front (closers stack)).lexeme = .ending ∨ (front (closers stack)).lexeme = .mark .closing ∨
      (front (closers stack)).lexeme = one := by
  cases h : closers stack with
  | nil => exact .inl rfl
  | cons l ls => exact .inr (mem_closers stack l (h ▸ List.mem_cons_self))

theorem closers_ne_comma (fs : List Frame) : (front (closers fs)).lexeme ≠ .mark .comma := by
  rcases front_closers fs with h | h | h <;> rw [h] <;> simp [one]

theorem step_closers (fs stack : List Frame) (g : Grade) (t : Expr) :
    step v ⟨stack, .value g t⟩ (front (closers fs)) = close v (front (closers fs)) t stack := by
  refine resume_of_not_takes ?_
  rcases front_closers fs with h | h | h <;> rw [h] <;> rfl

def Finishes : Except ParseError Expr → Prop
  | .ok _ => True
  | .error e => ∃ shown, e = .target shown

theorem finishes_bare {fs : List Frame}
    (h : ∀ g t, Finishes (reads v ⟨fs, .value g t⟩ (closers fs))) (c : Pending) (g : Grade)
    (t : Expr) : Finishes (reads v ⟨.arguments c false :: fs, .value g t⟩ (closers fs)) := by
  have hstep := step_closers (v := v) fs (.arguments c false :: fs) g t
  rw [close, if_neg (closers_ne_comma fs)] at hstep
  rw [reads_congr (b := ⟨fs, .value .primary (c.complete t)⟩) hstep]
  exact h _ _

theorem finishes_closers (stack : List Frame) (g : Grade) (t : Expr) :
    Finishes (reads v ⟨stack, .value g t⟩ (closers stack)) := by
  induction stack generalizing g t with
  | nil =>
    rw [closers, reads_nil]
    trivial
  | cons f fs ih =>
    have hstep := step_closers (v := v) (f :: fs) (f :: fs) g t
    cases f with
    | minus =>
      rw [reads_congr (b := ⟨fs, .value .primary (.negate t)⟩) hstep]
      exact ih _ _
    | power base =>
      rw [reads_congr (b := ⟨fs, .value .compound (.binary .pow base t)⟩) hstep]
      exact ih _ _
    | chain link left =>
      rw [close] at hstep
      cases hj : link.join left t with
      | ok u =>
        rw [hj] at hstep
        rw [reads_congr (b := ⟨fs, .value .compound u⟩) hstep]
        exact ih _ _
      | error e =>
        rw [hj] at hstep
        rw [reads_of_error hstep]
        exact join_error hj
    | exponent name f =>
      rw [closers, reads_of_step hstep]
      exact finishes_bare ih _ _ _
    | group =>
      rw [closers, reads_of_step hstep]
      exact ih _ _
    | arguments call isBracketed =>
      cases isBracketed with
      | false => exact finishes_bare ih call g t
      | true =>
        rw [closers, reads_of_step hstep]
        exact ih _ _

theorem finishes_completion {a : State} (h : a.focus.IsOpen) :
    Finishes (reads v a a.completion) := by
  obtain ⟨stack, focus⟩ := a
  cases focus with
  | operand =>
    have hstep : step v ⟨stack, .operand⟩ (front (one :: closers stack)) =
        .ok ⟨stack, .value .primary (.number (.ofReal (Binary64.ofNat 1)))⟩ := rfl
    rw [State.completion, reads_of_step hstep]
    exact finishes_closers _ _ _
  | callee name f =>
    have hstep : step v ⟨stack, .callee name f⟩ (front (one :: closers stack)) =
        .ok ⟨.arguments ⟨name, f, none, []⟩ false :: stack,
          .value .primary (.number (.ofReal (Binary64.ofNat 1)))⟩ := rfl
    rw [State.completion, reads_of_step hstep]
    exact finishes_closers (.arguments _ false :: stack) _ _
  | value g t => exact finishes_closers _ _ _
  | unknown name n => exact h.elim
  | complete t => exact h.elim

theorem run_prepend {a b : State} {ks : List Token} (h : steps v a ks = .ok b) (s : Stream) :
    run v a (s.prepend ks) = run v b s := by
  induction ks generalizing a with
  | nil =>
    cases h
    rfl
  | cons k ks ih =>
    obtain ⟨c, hc, hks⟩ := steps_cons.1 h
    rw [Stream.prepend_cons, run, hc]
    exact ih hks

theorem State.unplaced_of_open {a : State} (h : a.focus.IsOpen) : a.unplaced = a := by
  obtain ⟨stack, focus⟩ := a
  cases focus with
  | unknown name n => exact h.elim
  | _ => rfl

theorem finishes_unplaced {r : Except ParseError Expr} :
    Finishes (r.mapError ParseError.unplaced) ↔ Finishes r := by
  cases r with
  | ok t => exact Iff.rfl
  | error e => cases e <;> simp [Finishes, Except.mapError, ParseError.unplaced]

theorem finishes_run {a : State} {s : Stream} (h : a.focus.IsOpen)
    (hs : s.lexemes? = some a.completion) : Finishes (run v a s) := by
  rw [← finishes_unplaced, ← run_unplaced, State.unplaced_of_open h, Stream.unplaced_eq_ofLexemes hs]
  exact finishes_completion h

/-- Some text goes on with further tokens after these ones and then ends, and it is read to a tree or
fails for the target of a definition only. -/
def Completable (v : Vocabulary) (ks : List Token) : Prop :=
  ∃ other, ks <+: (Stream.ofString other).tokens ∧ (Stream.ofString other).stray? = none ∧
    ((∃ t, parse v other = .ok t) ∨ ∃ shown, parse v other = .error (.target shown))

theorem completable_of_steps {text : String} {ks rest : List Token} {k : Token} {b : State}
    (hv : v.isStrict = false) (htokens : (Stream.ofString text).tokens = ks ++ k :: rest)
    (hb : steps v .start ks = .ok b) : Completable v ks := by
  have hks : ∀ k ∈ ks, k.lexeme ≠ .ending := by
    intro k hk he
    have hread := isRead_of_tokens htokens k hk
    rw [he] at hread
    exact hread
  have hopen : b.focus.IsOpen := steps_open (a := .start) hv hks trivial hb
  obtain ⟨other, s, hother, hs⟩ := exists_continuation htokens (isRead_completion b)
  have hparse : parse v other = run v b s := by
    rw [parse, hother]
    exact run_prepend hb s
  have hfinishes : Finishes (parse v other) := hparse ▸ finishes_run hopen hs
  refine ⟨other, ?_, ?_, ?_⟩
  · rw [hother, Stream.tokens_prepend]
    exact List.prefix_append _ _
  · rw [hother, Stream.stray?_prepend, Stream.stray?_of_lexemes? hs]
  · cases hp : parse v other with
    | ok t => exact .inl ⟨t, rfl⟩
    | error e =>
      rw [hp] at hfinishes
      obtain ⟨shown, rfl⟩ := hfinishes
      exact .inr ⟨shown, rfl⟩

theorem unexpected_eq_token {k : Token} {l : Lexeme} {p : Nat}
    (h : .unexpected k = ParseError.token l p) : k = ⟨l, p⟩ ∧ k.lexeme ≠ .ending := by
  unfold ParseError.unexpected at h
  split at h
  · cases h
  · rename_i hk
    cases h
    exact ⟨rfl, hk⟩

theorem unexpected_eq_ending {k : Token} {p : Nat} (h : .unexpected k = ParseError.ending p) :
    k = ⟨.ending, p⟩ := by
  unfold ParseError.unexpected at h
  split at h
  · rename_i hk
    cases h
    exact congrArg (Token.mk · k.position) hk
  · cases h

theorem exists_unexpected {text : String} {e : ParseError} (h : parse v text = .error e)
    (he : (∃ l p, e = .token l p) ∨ ∃ p, e = .ending p) :
    ∃ ks k rest b, (Stream.ofString text).tokens = ks ++ k :: rest ∧ steps v .start ks = .ok b ∧
      e = .unexpected k ∧ (k.lexeme ≠ .ending → step v b k = .error e) := by
  obtain ⟨c, n, rfl⟩ | ⟨ks, k, rest, b, htokens, hb, hk | ⟨hl, rfl⟩⟩ := run_error h
  · obtain ⟨l, p, ⟨⟩⟩ | ⟨p, ⟨⟩⟩ := he
  · obtain heq | ⟨shown, rfl⟩ | ⟨name, n, rfl⟩ := step_error hk
    · exact ⟨ks, k, rest, b, htokens, hb, heq, fun _ => hk⟩
    · obtain ⟨l, p, ⟨⟩⟩ | ⟨p, ⟨⟩⟩ := he
    · obtain ⟨l, p, ⟨⟩⟩ | ⟨p, ⟨⟩⟩ := he
  · exact ⟨ks, k, rest, b, htokens, hb, (if_pos hl).symm, fun hn => absurd hl hn⟩

/-- An unexpected token is the first one that cannot continue what is before it. Every text that
begins with the same tokens up to it has the same error, whatever follows, and the tokens before it
can be completed. When the end is unexpected, all the tokens of the text can be completed. -/
theorem unexpected_token_cannot_continue (v : Vocabulary) (hv : v.isStrict = false)
    (text : String) :
    (∀ l p, parse v text = .error (.token l p) →
      ∃ ks rest, (Stream.ofString text).tokens = ks ++ ⟨l, p⟩ :: rest ∧
        (∀ other, ks ++ [⟨l, p⟩] <+: (Stream.ofString other).tokens →
          parse v other = .error (.token l p)) ∧
        Completable v ks) ∧
    ∀ p, parse v text = .error (.ending p) →
      ∃ ks, (Stream.ofString text).tokens = ks ++ [⟨.ending, p⟩] ∧ Completable v ks := by
  constructor
  · intro l p h
    obtain ⟨ks, k, rest, b, htokens, hb, he, hk⟩ := exists_unexpected h (.inl ⟨l, p, rfl⟩)
    obtain ⟨rfl, hl⟩ := unexpected_eq_token he.symm
    refine ⟨ks, rest, htokens, fun other hother => ?_, completable_of_steps hv htokens hb⟩
    exact run_error_of_steps hb (hk hl) hother
  · intro p h
    obtain ⟨ks, k, rest, b, htokens, hb, he, -⟩ := exists_unexpected h (.inr ⟨p, rfl⟩)
    obtain rfl := unexpected_eq_ending he.symm
    obtain rfl := eq_nil_of_ending htokens rfl
    exact ⟨ks, htokens, completable_of_steps hv htokens hb⟩

theorem unexpected_token_cannot_continue_exponent :
    let v : Vocabulary :=
      ⟨fun name => if name = "f" then .function (.custom 0 ["x"] (.symbol "x")) else .unknown, false⟩
    v.isStrict = false ∧ parse v "f^(2+*3" = .error (.token (.mark .times) 5) ∧
      ∃ ks rest, (Stream.ofString "f^(2+*3").tokens = ks ++ ⟨.mark .times, 5⟩ :: rest ∧
        (∀ other, ks ++ [⟨.mark .times, 5⟩] <+: (Stream.ofString other).tokens →
          parse v other = .error (.token (.mark .times) 5)) ∧
        Completable v ks := by
  intro v
  have hs : Stream.ofString "f^(2+*3" =
      .token ⟨.name "f", 0⟩ (.token ⟨.mark .power, 1⟩ (.token ⟨.mark .opening, 2⟩
        (.token ⟨.number (Binary64.ofNat 2), 3⟩ (.token ⟨.mark .plus, 4⟩
          (.token ⟨.mark .times, 5⟩ (.token ⟨.number (Binary64.ofNat 3), 6⟩ (.ending 7))))))) := by
    decide +kernel
  have herror : parse v "f^(2+*3" = .error (.token (.mark .times) 5) := by
    rw [parse, hs]
    rfl
  exact ⟨rfl, herror, (unexpected_token_cannot_continue v rfl "f^(2+*3").1 _ _ herror⟩

end ComplexCalculator.Parse
