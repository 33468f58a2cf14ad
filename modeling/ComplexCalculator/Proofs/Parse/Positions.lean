import Mathlib
import ComplexCalculator.Parse.Machine

/-!
# Reading without positions

When a value meets a token, the token takes it or the innermost construct is closed; `close` is that
second half of `resume`. Positions serve the errors only: a stream, a state or an error loses them
when each is put to zero, and what a stream without positions is read to is what the stream is read
to, without positions. So a tree depends on nothing but the lexemes of a text.
-/
namespace ComplexCalculator

def Token.unplaced (k : Token) : Token := ⟨k.lexeme, 0⟩

@[simp] theorem Token.unplaced_lexeme (k : Token) : k.unplaced.lexeme = k.lexeme := rfl

def ParseError.unplaced : ParseError → ParseError
  | .character c _ => .character c 0
  | .token l _ => .token l 0
  | .ending _ => .ending 0
  | .unknown name _ => .unknown name 0
  | .target shown => .target shown

namespace Stream

def unplaced : Stream → Stream
  | .token k rest => .token k.unplaced rest.unplaced
  | .ending _ => .ending 0
  | .stray c _ => .stray c 0

def lexemes? : Stream → Option (List Lexeme)
  | .token k rest => rest.lexemes?.map (k.lexeme :: ·)
  | .ending _ => some []
  | .stray _ _ => none

def ofLexemes : List Lexeme → Stream
  | [] => .ending 0
  | l :: ls => .token ⟨l, 0⟩ (ofLexemes ls)

theorem unplaced_eq_ofLexemes {s : Stream} {ls : List Lexeme} (h : s.lexemes? = some ls) :
    s.unplaced = ofLexemes ls := by
  induction s generalizing ls with
  | token k rest ih =>
    obtain ⟨r, hr, rfl⟩ := Option.map_eq_some_iff.1 h
    simp only [unplaced, ofLexemes, ih hr, Token.unplaced]
  | ending n =>
    cases h
    rfl
  | stray c n => cases h

theorem map_lexeme_tokens {s : Stream} {ls : List Lexeme} (h : s.lexemes? = some ls) :
    s.tokens.map Token.lexeme = ls ++ [.ending] := by
  induction s generalizing ls with
  | token k rest ih =>
    obtain ⟨r, hr, rfl⟩ := Option.map_eq_some_iff.1 h
    rw [tokens, List.map_cons, ih hr, List.cons_append]
  | ending n =>
    cases h
    rfl
  | stray c n => cases h

end Stream

namespace Parse

def takes? (stack : List Frame) (g : Grade) (l : Lexeme) : Option Extension :=
  (Extension.ofLexeme? g l).filter (floor stack ≤ ·.rank)

def close (v : Vocabulary) (k : Token) (t : Expr) : List Frame → Except ParseError State
  | [] => if k.lexeme = .ending then .ok ⟨[], .complete t⟩ else .error (.unexpected k)
  | .minus :: fs => resume v k fs .primary (.negate t)
  | .power base :: fs => resume v k fs .compound (.binary .pow base t)
  | .chain link left :: fs =>
    match link.join left t with
    | .ok u => resume v k fs .compound u
    | .error e => .error e
  | .exponent name f :: fs => beginArguments v fs ⟨name, f, some t, []⟩ k
  | .group :: fs =>
    if k.lexeme = .mark .closing then .ok ⟨fs, .value .primary t⟩ else .error (.unexpected k)
  | .arguments call isBracketed :: fs =>
    if k.lexeme = .mark .comma then .ok ⟨.arguments (call.push t) isBracketed :: fs, .operand⟩
    else if !isBracketed then resume v k fs .primary (call.complete t)
    else if k.lexeme = .mark .closing then .ok ⟨fs, .value .primary (call.complete t)⟩
    else .error (.unexpected k)

theorem resume_eq (v : Vocabulary) (k : Token) (stack : List Frame) (g : Grade) (t : Expr) :
    resume v k stack g t =
      match takes? stack g k.lexeme with
      | some e => .ok (e.shift stack t)
      | none => close v k t stack := by
  cases stack with
  | nil => rw [resume]; rfl
  | cons f fs => cases f <;> rw [resume] <;> rfl

theorem resume_of_takes {v : Vocabulary} {k : Token} {stack : List Frame} {g : Grade} {t : Expr}
    {e : Extension} (h : takes? stack g k.lexeme = some e) :
    resume v k stack g t = .ok (e.shift stack t) := by
  rw [resume_eq, h]

theorem resume_of_not_takes {v : Vocabulary} {k : Token} {stack : List Frame} {g : Grade}
    {t : Expr} (h : takes? stack g k.lexeme = none) :
    resume v k stack g t = close v k t stack := by
  rw [resume_eq, h]

def Focus.unplaced : Focus → Focus
  | .unknown name _ => .unknown name 0
  | f => f

def State.unplaced (s : State) : State := ⟨s.stack, s.focus.unplaced⟩

def unplacedStep : Except ParseError State → Except ParseError State
  | .ok s => .ok s.unplaced
  | .error e => .error e.unplaced

theorem unexpected_unplaced (k : Token) :
    ParseError.unexpected k.unplaced = (ParseError.unexpected k).unplaced := by
  by_cases h : k.lexeme = .ending <;>
    simp [ParseError.unexpected, Token.unplaced, ParseError.unplaced, h]

theorem join_unplaced {link : Link} {l r : Expr} {e : ParseError}
    (h : link.join l r = .error e) : e.unplaced = e := by
  cases link with
  | operator op => simp [Link.join] at h
  | definition => cases l <;> simp [Link.join] at h <;> subst h <;> rfl

theorem begin_unplaced (v : Vocabulary) (stack : List Frame) (k : Token) :
    begin v stack k.unplaced = unplacedStep (begin v stack k) := by
  unfold begin
  cases hk : k.lexeme with
  | number x => simp [hk, unplacedStep, State.unplaced, Focus.unplaced]
  | name name =>
    cases hm : v.meaning name <;> cases hs : v.isStrict <;>
      simp [Token.unplaced, hk, hm, unplacedStep, State.unplaced, Focus.unplaced]
  | mark m =>
    cases m <;> simp [hk, unplacedStep, State.unplaced, Focus.unplaced, ← unexpected_unplaced]
  | ending => simp [hk, unplacedStep, ← unexpected_unplaced]

theorem beginArguments_unplaced (v : Vocabulary) (stack : List Frame) (c : Pending) (k : Token) :
    beginArguments v stack c k.unplaced = unplacedStep (beginArguments v stack c k) := by
  unfold beginArguments
  rw [Token.unplaced_lexeme]
  split
  · rfl
  · exact begin_unplaced v _ k

theorem shift_unplaced (stack : List Frame) (t : Expr) (e : Extension) :
    (e.shift stack t).unplaced = e.shift stack t := by
  cases e <;> rfl

theorem resume_unplaced (v : Vocabulary) (k : Token) (stack : List Frame) (g : Grade) (t : Expr) :
    resume v k.unplaced stack g t = unplacedStep (resume v k stack g t) := by
  induction stack generalizing g t with
  | nil =>
    rw [resume_eq, resume_eq, Token.unplaced_lexeme]
    cases takes? [] g k.lexeme with
    | some e => simp only [unplacedStep, shift_unplaced]
    | none =>
      simp only [close, Token.unplaced_lexeme, unexpected_unplaced]
      split <;> rfl
  | cons f fs ih =>
    rw [resume_eq, resume_eq, Token.unplaced_lexeme]
    cases takes? (f :: fs) g k.lexeme with
    | some e => simp only [unplacedStep, shift_unplaced]
    | none =>
      cases f with
      | minus | power base => exact ih _ _
      | chain link left =>
        simp only [close]
        cases hj : link.join left t with
        | ok u => exact ih _ _
        | error e => simp only [unplacedStep, join_unplaced hj]
      | exponent name f => exact beginArguments_unplaced v fs _ k
      | group =>
        simp only [close, Token.unplaced_lexeme, unexpected_unplaced]
        split <;> rfl
      | arguments call isBracketed =>
        simp only [close, Token.unplaced_lexeme, unexpected_unplaced]
        split
        · rfl
        · split
          · exact ih _ _
          · split <;> rfl

theorem step_unplaced (v : Vocabulary) (s : State) (k : Token) :
    step v s.unplaced k.unplaced = unplacedStep (step v s k) := by
  obtain ⟨stack, focus⟩ := s
  cases focus with
  | operand => exact begin_unplaced v stack k
  | callee name f =>
    by_cases h : k.lexeme = .mark .power
    · simp [step, State.unplaced, Focus.unplaced, h, unplacedStep]
    · simp [step, State.unplaced, Focus.unplaced, h, beginArguments_unplaced]
  | unknown name position =>
    by_cases h : k.lexeme = .mark .define
    · simp [step, State.unplaced, Focus.unplaced, h, resume_unplaced]
    · simp [step, State.unplaced, Focus.unplaced, h, unplacedStep, ParseError.unplaced]
  | value g t => exact resume_unplaced v k stack g t
  | complete t =>
    simp only [step, State.unplaced, Focus.unplaced, unexpected_unplaced, unplacedStep]

theorem run_unplaced (v : Vocabulary) (st : State) (s : Stream) :
    run v st.unplaced s.unplaced = (run v st s).mapError ParseError.unplaced := by
  induction s generalizing st with
  | token k rest ih =>
    simp only [run, Stream.unplaced, step_unplaced]
    cases step v st k with
    | ok st' => exact ih st'
    | error e => rfl
  | ending n =>
    simp only [run, Stream.unplaced]
    rw [show (⟨.ending, 0⟩ : Token) = Token.unplaced ⟨.ending, n⟩ from rfl, step_unplaced]
    cases step v st ⟨.ending, n⟩ with
    | ok st' =>
      obtain ⟨stack, focus⟩ := st'
      cases focus <;> rfl
    | error e => rfl
  | stray c n => rfl

theorem lexemes?_of_run {v : Vocabulary} {st : State} {s : Stream} {t : Expr}
    (h : run v st s = .ok t) : ∃ ls, s.lexemes? = some ls := by
  induction s generalizing st with
  | token k rest ih =>
    simp only [run] at h
    cases hs : step v st k with
    | ok st' =>
      rw [hs] at h
      obtain ⟨ls, hls⟩ := ih h
      exact ⟨k.lexeme :: ls, by simp only [Stream.lexemes?, hls, Option.map_some]⟩
    | error e =>
      rw [hs] at h
      cases h
  | ending n => exact ⟨[], rfl⟩
  | stray c n => cases h

def reads (v : Vocabulary) (st : State) (ls : List Lexeme) : Except ParseError Expr :=
  run v st (.ofLexemes ls)

theorem parse_eq_ok_iff {v : Vocabulary} {text : String} {t : Expr} :
    parse v text = .ok t ↔
      ∃ ls, (Stream.ofString text).lexemes? = some ls ∧ reads v .start ls = .ok t := by
  have hrun := run_unplaced v .start (Stream.ofString text)
  constructor
  · intro h
    obtain ⟨ls, hls⟩ := lexemes?_of_run h
    refine ⟨ls, hls, ?_⟩
    rw [reads, ← Stream.unplaced_eq_ofLexemes hls]
    exact hrun.trans (congrArg (Except.mapError ParseError.unplaced) h)
  · rintro ⟨ls, hls, h⟩
    rw [reads, ← Stream.unplaced_eq_ofLexemes hls] at h
    have hm := hrun.symm.trans h
    change (parse v text).mapError ParseError.unplaced = .ok t at hm
    cases hp : parse v text with
    | ok u => simpa [hp, Except.mapError] using hm
    | error e => simp [hp, Except.mapError] at hm

end Parse
end ComplexCalculator
