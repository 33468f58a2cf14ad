import ComplexCalculator.Proofs.Parse.Positions

/-!
# What a step can answer

A step refuses the token at hand, refuses a definition with something else than a name on its left,
or, in strict reading, the unknown name behind it. Otherwise the machine is before or behind an
operand, or behind a function, unless strict reading has come to an unknown name or the text is at
its end. A run is the fold of the steps over the tokens of its stream, so it fails at the first token
whose step fails, and so does every other run that begins with the same tokens.
-/
namespace ComplexCalculator.Parse

variable {v : Vocabulary} {k : Token} {a b : State}

def Focus.IsOpen : Focus → Prop
  | .operand | .callee _ _ | .value _ _ => True
  | .unknown _ _ | .complete _ => False

inductive Answers (v : Vocabulary) (k : Token) : Except ParseError State → Prop
  | refused : Answers v k (.error (.unexpected k))
  | target (shown : String) : Answers v k (.error (.target shown))
  | inside {a : State} (h : a.focus.IsOpen) : Answers v k (.ok a)
  | unknown {stack name n} (hv : v.isStrict = true) : Answers v k (.ok ⟨stack, .unknown name n⟩)
  | complete {t} (hk : k.lexeme = .ending) : Answers v k (.ok ⟨[], .complete t⟩)

theorem begin_answers (v : Vocabulary) (stack : List Frame) (k : Token) :
    Answers v k (begin v stack k) := by
  unfold begin
  split
  · exact .inside trivial
  · split
    · exact .inside trivial
    · exact .inside trivial
    · split
      · rename_i hv
        exact .unknown hv
      · exact .inside trivial
  · exact .inside trivial
  · exact .inside trivial
  · exact .refused

theorem beginArguments_answers (v : Vocabulary) (stack : List Frame) (c : Pending) (k : Token) :
    Answers v k (beginArguments v stack c k) := by
  unfold beginArguments
  split
  · exact .inside trivial
  · exact begin_answers v _ k

theorem shift_open (stack : List Frame) (t : Expr) (e : Extension) :
    (e.shift stack t).focus.IsOpen := by
  cases e <;> trivial

theorem join_error {link : Link} {l r : Expr} {e : ParseError} (h : link.join l r = .error e) :
    ∃ shown, e = .target shown := by
  cases link with
  | operator op => cases h
  | definition =>
    cases l with
    | symbol name => cases h
    | _ =>
      cases h
      exact ⟨_, rfl⟩

theorem resume_answers (v : Vocabulary) (k : Token) (stack : List Frame) (g : Grade) (t : Expr) :
    Answers v k (resume v k stack g t) := by
  induction stack generalizing g t with
  | nil =>
    rw [resume_eq]
    split
    · exact .inside (shift_open _ _ _)
    · rw [close]
      split
      · rename_i hk
        exact .complete hk
      · exact .refused
  | cons f fs ih =>
    rw [resume_eq]
    split
    · exact .inside (shift_open _ _ _)
    · cases f with
      | minus | power base => exact ih _ _
      | chain link left =>
        rw [close]
        cases hj : link.join left t with
        | ok u => exact ih _ _
        | error e =>
          obtain ⟨shown, rfl⟩ := join_error hj
          exact .target shown
      | exponent name f => exact beginArguments_answers v fs _ k
      | group =>
        rw [close]
        split
        · exact .inside trivial
        · exact .refused
      | arguments call isBracketed =>
        rw [close]
        split
        · exact .inside trivial
        · split
          · exact ih _ _
          · split
            · exact .inside trivial
            · exact .refused

theorem step_answers (v : Vocabulary) (a : State) (k : Token) :
    Answers v k (step v a k) ∨
      ∃ name n, a.focus = .unknown name n ∧ step v a k = .error (.unknown name n) := by
  obtain ⟨stack, focus⟩ := a
  cases focus with
  | operand => exact .inl (begin_answers v stack k)
  | callee name f =>
    refine .inl ?_
    simp only [step]
    split
    · exact .inside trivial
    · exact beginArguments_answers v stack _ k
  | unknown name n =>
    simp only [step]
    split
    · exact .inl (resume_answers v k stack _ _)
    · exact .inr ⟨name, n, rfl, rfl⟩
  | value g t => exact .inl (resume_answers v k stack g t)
  | complete t => exact .inl .refused

theorem step_error {e : ParseError} (h : step v a k = .error e) :
    e = .unexpected k ∨ (∃ shown, e = .target shown) ∨ ∃ name n, e = .unknown name n := by
  obtain hanswers | ⟨name, n, -, hunknown⟩ := step_answers v a k
  · rw [h] at hanswers
    cases hanswers with
    | refused => exact .inl rfl
    | target shown => exact .inr (.inl ⟨shown, rfl⟩)
  · cases h.symm.trans hunknown
    exact .inr (.inr ⟨name, n, rfl⟩)

theorem step_open (hv : v.isStrict = false) (hk : k.lexeme ≠ .ending) (h : step v a k = .ok b) :
    b.focus.IsOpen := by
  obtain hanswers | ⟨name, n, -, hunknown⟩ := step_answers v a k
  · rw [h] at hanswers
    cases hanswers with
    | inside hb => exact hb
    | unknown hv' => cases hv.symm.trans hv'
    | complete hk' => exact absurd hk' hk
  · cases h.symm.trans hunknown

def steps (v : Vocabulary) (a : State) (ks : List Token) : Except ParseError State :=
  ks.foldlM (step v) a

theorem steps_cons {ks : List Token} :
    steps v a (k :: ks) = .ok b ↔ ∃ c, step v a k = .ok c ∧ steps v c ks = .ok b := by
  simp only [steps, List.foldlM_cons]
  cases step v a k <;> simp [bind, Except.bind]

theorem steps_open {ks : List Token} (hv : v.isStrict = false)
    (hks : ∀ k ∈ ks, k.lexeme ≠ .ending) (ha : a.focus.IsOpen) (h : steps v a ks = .ok b) :
    b.focus.IsOpen := by
  induction ks generalizing a with
  | nil =>
    cases h
    exact ha
  | cons k ks ih =>
    obtain ⟨hk, hks⟩ := List.forall_mem_cons.1 hks
    obtain ⟨c, hc, hb⟩ := steps_cons.1 h
    exact ih hks (step_open hv hk hc) hb

theorem run_error_of_steps {ks : List Token} {s : Stream} {e : ParseError}
    (hks : steps v a ks = .ok b) (hk : step v b k = .error e) (h : ks ++ [k] <+: s.tokens) :
    run v a s = .error e := by
  induction s generalizing ks a with
  | token k' rest ih =>
    cases ks with
    | nil =>
      cases hks
      obtain ⟨rfl, -⟩ := List.cons_prefix_cons.1 h
      rw [run, hk]
    | cons k'' ks =>
      obtain ⟨rfl, hrest⟩ := List.cons_prefix_cons.1 h
      obtain ⟨c, hc, hks⟩ := steps_cons.1 hks
      rw [run, hc]
      exact ih hks hrest
  | ending n =>
    cases ks with
    | nil =>
      cases hks
      obtain ⟨rfl, -⟩ := List.cons_prefix_cons.1 h
      rw [run, hk]
    | cons k'' ks =>
      have hlength := h.length_le
      simp [Stream.tokens] at hlength
  | stray c n =>
    have hlength := h.length_le
    simp [Stream.tokens] at hlength

theorem run_error {s : Stream} {e : ParseError} (h : run v a s = .error e) :
    (∃ c n, e = .character c n) ∨
      ∃ ks k rest b, s.tokens = ks ++ k :: rest ∧ steps v a ks = .ok b ∧
        (step v b k = .error e ∨ k.lexeme = .ending ∧ e = .ending k.position) := by
  induction s generalizing a with
  | token k rest ih =>
    simp only [run] at h
    cases hk : step v a k with
    | ok c =>
      rw [hk] at h
      rcases ih h with hstray | ⟨ks, k', rest', b, htokens, hks, hfails⟩
      · exact .inl hstray
      · refine .inr ⟨k :: ks, k', rest', b, ?_, steps_cons.2 ⟨c, hk, hks⟩, hfails⟩
        rw [Stream.tokens, htokens, List.cons_append]
    | error e' =>
      rw [hk] at h
      cases h
      exact .inr ⟨[], k, rest.tokens, a, rfl, rfl, .inl hk⟩
  | ending n =>
    refine .inr ⟨[], ⟨.ending, n⟩, [], a, rfl, rfl, ?_⟩
    simp only [run] at h
    split at h
    · cases h
    · cases h
      exact .inr ⟨rfl, rfl⟩
    · rename_i e' he
      cases h
      exact .inl he
  | stray c n =>
    cases h
    exact .inl ⟨c, n, rfl⟩

end ComplexCalculator.Parse
