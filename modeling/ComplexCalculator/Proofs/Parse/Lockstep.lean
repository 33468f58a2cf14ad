import ComplexCalculator.Proofs.Parse.Steps
import ComplexCalculator.Proofs.Parse.Strict

/-!
# Strict and lax reading in step

Strict and lax reading do the same with every token until strict reading has refused an unknown
name, which it does when it sees what stands behind the name. Until then its state is that of lax
reading, except that behind an unknown name it still holds the name for what it is. So strict
reading either refuses a name or ends as lax reading does, with the same tree or the same error.
-/
namespace ComplexCalculator.Parse

variable {v : Vocabulary} {k : Token} {stack fs : List Frame} {name : String} {n : Nat}

def State.lax (a : State) : State :=
  match a.focus with
  | .unknown name _ => ⟨a.stack, .value .primary (.symbol name)⟩
  | _ => a

theorem begin_lax (stack : List Frame) (k : Token) :
    begin v.lax stack k = (begin v.strict stack k).map State.lax := by
  unfold begin
  cases k.lexeme with
  | number x => rfl
  | name name =>
    simp only [Vocabulary.lax, Vocabulary.strict]
    cases v.meaning name <;> rfl
  | mark m => cases m <;> rfl
  | ending => rfl

theorem beginArguments_lax (stack : List Frame) (c : Pending) (k : Token) :
    beginArguments v.lax stack c k = (beginArguments v.strict stack c k).map State.lax := by
  unfold beginArguments
  split
  · rfl
  · exact begin_lax _ k

theorem shift_lax (stack : List Frame) (t : Expr) (e : Extension) :
    (e.shift stack t).lax = e.shift stack t := by
  cases e <;> rfl

theorem resume_lax (stack : List Frame) (g : Grade) (t : Expr) :
    resume v.lax k stack g t = (resume v.strict k stack g t).map State.lax := by
  induction stack generalizing g t with
  | nil =>
    rw [resume_eq, resume_eq]
    cases takes? [] g k.lexeme with
    | some e => exact congrArg Except.ok (shift_lax [] t e).symm
    | none =>
      simp only [close]
      split <;> rfl
  | cons f fs ih =>
    rw [resume_eq, resume_eq]
    cases takes? (f :: fs) g k.lexeme with
    | some e => exact congrArg Except.ok (shift_lax (f :: fs) t e).symm
    | none =>
      cases f with
      | minus | power base => exact ih _ _
      | chain link left =>
        simp only [close]
        cases link.join left t with
        | ok u => exact ih _ _
        | error e => rfl
      | exponent name f => exact beginArguments_lax fs _ k
      | group =>
        simp only [close]
        split <;> rfl
      | arguments call isBracketed =>
        simp only [close]
        split
        · rfl
        · split
          · exact ih _ _
          · split <;> rfl

theorem step_lax (a : State) (k : Token) :
    (∃ name n, step v.strict a k = .error (.unknown name n)) ∨
      step v.lax a.lax k = (step v.strict a k).map State.lax := by
  obtain ⟨stack, focus⟩ := a
  cases focus with
  | operand => exact .inr (begin_lax stack k)
  | callee name f =>
    refine .inr ?_
    simp only [step, State.lax]
    split
    · rfl
    · exact beginArguments_lax stack _ k
  | unknown name n =>
    simp only [step, State.lax]
    split
    · exact .inr (resume_lax stack _ _)
    · exact .inl ⟨name, n, rfl⟩
  | value g t => exact .inr (resume_lax stack g t)
  | complete t => exact .inr rfl

theorem run_lax (a : State) (s : Stream) :
    (∃ name n, run v.strict a s = .error (.unknown name n)) ∨
      run v.lax a.lax s = run v.strict a s := by
  induction s generalizing a with
  | token k rest ih =>
    obtain ⟨name, n, hstep⟩ | hstep := step_lax (v := v) a k
    · exact .inl ⟨name, n, by simp only [run, hstep]⟩
    · simp only [run, hstep]
      cases step v.strict a k with
      | ok b => exact ih b
      | error e => exact .inr rfl
  | ending n =>
    obtain ⟨name, p, hstep⟩ | hstep := step_lax (v := v) a ⟨.ending, n⟩
    · exact .inl ⟨name, p, by simp only [run, hstep]⟩
    · simp only [run, hstep]
      cases step v.strict a ⟨.ending, n⟩ with
      | ok b =>
        obtain ⟨stack, focus⟩ := b
        cases focus <;> exact .inr rfl
      | error e => exact .inr rfl
  | stray c n => exact .inr rfl

theorem parse_lax_eq {text : String}
    (h : ∀ name n, parse v.strict text ≠ .error (.unknown name n)) :
    parse v.lax text = parse v.strict text := by
  obtain ⟨name, n, hrun⟩ | hrun := run_lax (v := v) .start (Stream.ofString text)
  · exact absurd hrun (h name n)
  · exact hrun

theorem begin_unknown (h : begin v stack k = .ok ⟨fs, .unknown name n⟩) :
    k = ⟨.name name, n⟩ ∧ v.meaning name = .unknown := by
  obtain ⟨lexeme, position⟩ := k
  unfold begin at h
  cases lexeme with
  | name other =>
    cases hm : v.meaning other with
    | function f => simp [hm] at h
    | constant => simp [hm] at h
    | unknown =>
      cases hs : v.isStrict with
      | false => simp [hm, hs] at h
      | true =>
        obtain ⟨-, rfl, rfl⟩ : stack = fs ∧ other = name ∧ position = n := by
          simpa [hm, hs] using h
        exact ⟨rfl, hm⟩
  | number x => cases h
  | mark m => cases m <;> cases h
  | ending => cases h

theorem beginArguments_unknown {c : Pending}
    (h : beginArguments v stack c k = .ok ⟨fs, .unknown name n⟩) :
    k = ⟨.name name, n⟩ ∧ v.meaning name = .unknown := by
  unfold beginArguments at h
  split at h
  · cases h
  · exact begin_unknown h

theorem resume_unknown {g : Grade} {t : Expr}
    (h : resume v k stack g t = .ok ⟨fs, .unknown name n⟩) :
    k = ⟨.name name, n⟩ ∧ v.meaning name = .unknown := by
  induction stack generalizing g t with
  | nil =>
    rw [resume_eq] at h
    split at h
    · rename_i e _
      cases e <;> cases h
    · rw [close] at h
      split at h <;> cases h
  | cons f fs' ih =>
    rw [resume_eq] at h
    split at h
    · rename_i e _
      cases e <;> cases h
    · cases f with
      | minus | power base => exact ih h
      | chain link left =>
        rw [close] at h
        split at h
        · exact ih h
        · cases h
      | exponent name f => exact beginArguments_unknown h
      | group =>
        rw [close] at h
        split at h <;> cases h
      | arguments call isBracketed =>
        rw [close] at h
        split at h
        · cases h
        · split at h
          · exact ih h
          · split at h <;> cases h

theorem step_unknown {a : State} (h : step v a k = .ok ⟨fs, .unknown name n⟩) :
    k = ⟨.name name, n⟩ ∧ v.meaning name = .unknown := by
  obtain ⟨stack, focus⟩ := a
  cases focus with
  | operand => exact begin_unknown h
  | callee name f =>
    simp only [step] at h
    split at h
    · cases h
    · exact beginArguments_unknown h
  | unknown name n =>
    simp only [step] at h
    split at h
    · exact resume_unknown h
    · cases h
  | value g t => exact resume_unknown h
  | complete t => cases h

theorem Answers.ne_unknown {r : Except ParseError State} (h : Answers v k r) :
    r ≠ .error (.unknown name n) := by
  cases h with
  | refused =>
    unfold ParseError.unexpected
    split <;> nofun
  | target shown => nofun
  | inside ha => nofun
  | unknown hv => nofun
  | complete hk => nofun

theorem step_refuses {a : State} (h : step v a k = .error (.unknown name n)) :
    a.focus = .unknown name n ∧ k.lexeme ≠ .mark .define := by
  obtain hanswers | ⟨other, m, hfocus, hstep⟩ := step_answers v a k
  · exact absurd h hanswers.ne_unknown
  · cases h.symm.trans hstep
    refine ⟨hfocus, fun hk => ?_⟩
    have hresume : step v a k = resume v k a.stack .primary (.symbol name) := by
      simp only [step, hfocus, hk, if_true]
    exact (resume_answers v k a.stack _ _).ne_unknown (hresume.symm.trans h)

theorem steps_concat {a b : State} {ks : List Token} :
    steps v a (ks ++ [k]) = .ok b ↔ ∃ c, steps v a ks = .ok c ∧ step v c k = .ok b := by
  simp only [steps, List.foldlM_append, List.foldlM_cons, List.foldlM_nil, bind_pure]
  cases List.foldlM (step v) a ks <;> simp [bind, Except.bind]

theorem parse_refuses {text : String} (h : parse v text = .error (.unknown name n)) :
    v.meaning name = .unknown ∧ ∃ ks k rest,
      (Stream.ofString text).tokens = ks ++ ⟨.name name, n⟩ :: k :: rest ∧
        k.lexeme ≠ .mark .define := by
  obtain ⟨c, m, ⟨⟩⟩ | ⟨ks, k, rest, b, htokens, hks, hfails⟩ := run_error h
  have hstep : step v b k = .error (.unknown name n) := hfails.resolve_right fun he => nomatch he.2
  obtain ⟨hfocus, hk⟩ := step_refuses hstep
  cases ks using List.reverseRecOn with
  | nil =>
    cases hks
    cases hfocus
  | append_singleton ks k' =>
    obtain ⟨a, -, hk'⟩ := steps_concat.1 hks
    obtain ⟨stack, focus⟩ := b
    cases hfocus
    obtain ⟨rfl, hmeaning⟩ := step_unknown hk'
    exact ⟨hmeaning, ks, k, rest, by rw [htokens, List.append_assoc]; rfl, hk⟩

end ComplexCalculator.Parse
