import ComplexCalculator.Proofs.Parse.Completion
import ComplexCalculator.Proofs.Parse.Lockstep

/-!
# Where an error points

Every error but that of a wrong target is about a token of the text or about the stray character at
which its stream breaks off, and it has the place of that. The tokens of a stream that breaks off
stand before the stray character, and the end is none of them. So a stray character is never
survived: the text is refused there or before.
-/
namespace ComplexCalculator
open Text

variable {text : String} {c : Char} {k : Token} {n p : Nat}

/-- The character is no blank, and no token contains it. -/
def IsForeign (c : Char) : Prop :=
  isBlank c = false ∧ ∀ l ls rest, Munches l ls rest → c ∉ ls

theorem isForeign_iff_isStray : IsForeign c ↔ isStray c = true := by
  constructor
  · rintro ⟨hb, hc⟩
    -- Whatever is not stray is a token or a blank when it stands alone.
    refine isStray_eq_true_iff.2 ⟨hb, ?_, ?_, ?_, fun hi => ?_⟩
    · refine Bool.eq_false_iff.2 fun hd => hc _ [c] [] (.digits (by simp) ?_ nofun) (by simp)
      exact List.forall_mem_singleton.2 hd
    · refine Bool.eq_false_iff.2 fun ha => hc _ [c] [] (.letters (by simp) ?_ nofun) (by simp)
      exact List.forall_mem_singleton.2 ha
    · exact Bool.eq_false_iff.2 fun hg => hc _ [c] [] (.greek hg) (by simp)
    · obtain ⟨m, hm⟩ := Mark.exists_spelling_of_mem_initials hi
      obtain ⟨ls, hls⟩ := Lexeme.IsRead.munches (l := .mark m) trivial
      cases hls with
      | mark hl => exact hc _ _ _ (.mark hl) (hm ▸ List.mem_singleton_self c)
  · intro hs
    refine ⟨(isStray_eq_true_iff.1 hs).1, fun l ls rest hl hc => ?_⟩
    cases hs.symm.trans (hl.mem c hc).2

structure IsFirstForeign (text : String) (c : Char) (p : Nat) : Prop where
  here : text.toList[p]? = some c
  foreign : IsForeign c
  before : ∀ d ∈ text.toList.take p, ¬ IsForeign d

theorem IsFirstForeign.le {d : Char} (h : IsFirstForeign text c p) (h' : IsFirstForeign text d n) :
    p ≤ n := by
  refine Nat.le_of_not_lt fun hlt => ?_
  have hmem : d ∈ text.toList.take p :=
    List.mem_of_getElem? (i := n) (by rw [List.getElem?_take_of_lt hlt, h'.here])
  exact h.before d hmem h'.foreign

theorem isFirstForeign_of_stray? (h : (Stream.ofString text).stray? = some (c, p)) :
    IsFirstForeign text c p := by
  obtain ⟨us, r, htext, hp, hc, hus, -⟩ := (cuts_ofString text).of_stray h
  obtain rfl : p = us.length := hp.trans (Nat.zero_add _)
  refine ⟨by simp [htext], isForeign_iff_isStray.2 hc, fun d hd => ?_⟩
  rw [htext, List.take_left] at hd
  rw [isForeign_iff_isStray, hus d hd]
  exact Bool.false_ne_true

theorem stray?_eq_some_iff :
    (Stream.ofString text).stray? = some (c, p) ↔ IsFirstForeign text c p := by
  refine ⟨isFirstForeign_of_stray?, fun h => ?_⟩
  cases hs : (Stream.ofString text).stray? with
  | none =>
    have hc := ((cuts_ofString text).not_stray hs).1 c (List.mem_of_getElem? h.here)
    cases hc.symm.trans (isForeign_iff_isStray.1 h.foreign)
  | some r =>
    obtain ⟨d, n⟩ := r
    have h' := isFirstForeign_of_stray? hs
    obtain rfl : n = p := Nat.le_antisymm (h'.le h) (h.le h')
    obtain rfl : d = c := Option.some.inj (h'.here.symm.trans h.here)
    rfl

theorem Munches.ne_ending {l : Lexeme} {ls rest : List Char} (h : Munches l ls rest) :
    l ≠ .ending := by
  rintro rfl
  exact h.isRead

theorem Munches.eq_toList {name : String} {ls rest : List Char}
    (h : Munches (.name name) ls rest) : ls = name.toList := by
  cases h with
  | letters hn ha hr => exact String.toList_ofList.symm
  | greek hg => exact String.toList_ofList.symm

/-- A slice of a text spells the lexeme where the token is. -/
def Token.IsSpelledIn (k : Token) (n : Nat) (cs : List Char) : Prop :=
  ∃ us ls rest, cs = us ++ (ls ++ rest) ∧ k.position = n + us.length ∧ Munches k.lexeme ls rest

theorem Token.IsSpelledIn.append_left {cs : List Char} (us : List Char)
    (h : k.IsSpelledIn (n + us.length) cs) : k.IsSpelledIn n (us ++ cs) := by
  obtain ⟨us', ls, rest, rfl, hp, hl⟩ := h
  refine ⟨us ++ us', ls, rest, by rw [List.append_assoc], ?_, hl⟩
  rw [hp, List.length_append, Nat.add_assoc]

theorem Token.IsSpelledIn.position_lt {cs : List Char} (h : k.IsSpelledIn n cs) :
    k.position < n + cs.length := by
  obtain ⟨us, ls, rest, rfl, hp, hl⟩ := h
  have hpos := List.length_pos_of_ne_nil hl.ne_nil
  rw [hp, List.length_append, List.length_append]
  omega

theorem Cuts.mem_tokens {cs : List Char} {s : Stream} (h : Cuts n cs s) (hk : k ∈ s.tokens) :
    k.IsSpelledIn n cs ∨ k = ⟨.ending, n + cs.length⟩ ∧ s.stray? = none := by
  induction h with
  | ending hb => exact .inr ⟨List.mem_singleton.1 hk, rfl⟩
  | stray hb hc => cases hk
  | @token n bs l ls rest s hb hl hs ih =>
    rcases List.mem_cons.1 hk with rfl | hk
    · exact .inl ⟨bs, ls, rest, rfl, rfl, hl⟩
    · rw [← List.append_assoc]
      have hplace : n + (bs ++ ls).length = n + bs.length + ls.length := by
        rw [List.length_append, Nat.add_assoc]
      rcases ih hk with hspelled | ⟨rfl, hstray⟩
      · exact .inl (.append_left _ (hplace.symm ▸ hspelled))
      · refine .inr ⟨?_, hstray⟩
        rw [List.length_append, ← Nat.add_assoc, hplace]

theorem Cuts.position_lt {cs : List Char} {s : Stream} (h : Cuts n cs s)
    (hs : s.stray? = some (c, p)) (hk : k ∈ s.tokens) :
    k.lexeme ≠ .ending ∧ k.position < p := by
  have hspelled : k.IsSpelledIn n cs := (h.mem_tokens hk).resolve_right fun he => by
    cases hs.symm.trans he.2
  have hne : k.lexeme ≠ .ending := by
    obtain ⟨_, _, _, -, -, hl⟩ := hspelled
    exact hl.ne_ending
  obtain ⟨us, r, -, rfl, -, -, hclosed⟩ := h.of_stray hs
  have hk' : k ∈ s.closed.tokens := by
    rw [Stream.tokens_closed hs]
    exact List.mem_append_left _ hk
  rcases hclosed.mem_tokens hk' with hus | ⟨rfl, -⟩
  · exact ⟨hne, hus.position_lt⟩
  · exact absurd rfl hne

structure IsTokenOf (text : String) (k : Token) : Prop where
  mem : k ∈ (Stream.ofString text).tokens
  spelled : k.IsSpelledIn 0 text.toList

theorem isTokenOf_of_mem (hk : k ∈ (Stream.ofString text).tokens) (hl : k.lexeme ≠ .ending) :
    IsTokenOf text k := by
  refine ⟨hk, ((cuts_ofString text).mem_tokens hk).resolve_right ?_⟩
  rintro ⟨rfl, -⟩
  exact hl rfl

theorem position_of_ending (hk : ⟨.ending, p⟩ ∈ (Stream.ofString text).tokens) :
    p = text.length := by
  rcases (cuts_ofString text).mem_tokens hk with ⟨_, _, _, -, -, hl⟩ | ⟨he, -⟩
  · exact absurd rfl hl.ne_ending
  · rw [Nat.zero_add, String.length_toList] at he
    exact congrArg Token.position he

theorem IsTokenOf.name_prefix {name : String} (h : IsTokenOf text ⟨.name name, p⟩) :
    name.toList <+: text.toList.drop p := by
  obtain ⟨us, ls, rest, htext, hp, hl⟩ := h.spelled
  obtain rfl : p = us.length := hp.trans (Nat.zero_add _)
  rw [htext, List.drop_left, hl.eq_toList]
  exact List.prefix_append _ _

namespace Parse

variable {v : Vocabulary} {a : State} {e : ParseError}

def token? : ParseError → Option Token
  | .token l p => some ⟨l, p⟩
  | .ending p => some ⟨.ending, p⟩
  | .unknown name p => some ⟨.name name, p⟩
  | .character _ _ | .target _ => none

theorem stray?_of_run {s : Stream} (h : run v a s = .error (.character c p)) :
    s.stray? = some (c, p) := by
  have hstep {b : State} {k : Token} : step v b k ≠ .error (.character c p) := by
    intro hb
    obtain he | ⟨shown, he⟩ | ⟨name, m, he⟩ := step_error hb
    · unfold ParseError.unexpected at he
      split at he <;> cases he
    · cases he
    · cases he
  induction s generalizing a with
  | token k rest ih =>
    rw [run] at h
    split at h
    · exact ih h
    · rename_i e he
      cases h
      exact absurd he hstep
  | ending m =>
    rw [run] at h
    split at h
    · cases h
    · cases h
    · rename_i e he
      cases h
      exact absurd he hstep
  | stray d m =>
    cases h
    rfl

theorem exists_error_of_stray? {s : Stream} {r : Char × Nat} (hs : s.stray? = some r) :
    ∃ e, run v a s = .error e := by
  cases hrun : run v a s with
  | error e => exact ⟨e, rfl⟩
  | ok t =>
    obtain ⟨ls, hls⟩ := lexemes?_of_run hrun
    cases hs.symm.trans (Stream.stray?_of_lexemes? hls)

theorem mem_tokens_of_error (h : parse v text = .error e) (hk : token? e = some k) :
    k ∈ (Stream.ofString text).tokens := by
  cases e with
  | token l p =>
    cases hk
    obtain ⟨ks, k, rest, b, htokens, -, he, -⟩ := exists_unexpected h (.inl ⟨l, p, rfl⟩)
    obtain ⟨rfl, -⟩ := unexpected_eq_token he.symm
    rw [htokens]
    exact List.mem_append_right _ List.mem_cons_self
  | ending p =>
    cases hk
    obtain ⟨ks, k, rest, b, htokens, -, he, -⟩ := exists_unexpected h (.inr ⟨p, rfl⟩)
    obtain rfl := unexpected_eq_ending he.symm
    rw [htokens]
    exact List.mem_append_right _ List.mem_cons_self
  | unknown name p =>
    cases hk
    obtain ⟨-, ks, k, rest, htokens, -⟩ := parse_refuses h
    rw [htokens]
    exact List.mem_append_right _ List.mem_cons_self
  | character c p => cases hk
  | target shown => cases hk

theorem ne_ending_of_token {l : Lexeme} (h : parse v text = .error (.token l p)) :
    l ≠ .ending := by
  obtain ⟨ks, k, rest, b, -, -, he, -⟩ := exists_unexpected h (.inl ⟨l, p, rfl⟩)
  obtain ⟨rfl, hl⟩ := unexpected_eq_token he.symm
  exact hl

/-- What an error says of its text is so. -/
def PointsInto (text : String) (e : ParseError) : Prop :=
  match e with
  | .character c p => e.position? = some p ∧ IsFirstForeign text c p
  | .ending p => e.position? = some p ∧ p = text.length
  | .token l p =>
    e.position? = some p ∧ e.reason = "Unexpected token " ++ l.shown ∧ IsTokenOf text ⟨l, p⟩
  | .unknown name p =>
    e.position? = some p ∧ IsTokenOf text ⟨.name name, p⟩ ∧ name.toList <+: text.toList.drop p
  | .target _ => e.position? = none

theorem pointsInto_of_parse (h : parse v text = .error e) : PointsInto text e := by
  cases e with
  | character c p => exact ⟨rfl, stray?_eq_some_iff.1 (stray?_of_run h)⟩
  | ending p => exact ⟨rfl, position_of_ending (mem_tokens_of_error h rfl)⟩
  | token l p =>
    exact ⟨rfl, rfl, isTokenOf_of_mem (mem_tokens_of_error h rfl) (ne_ending_of_token h)⟩
  | unknown name p =>
    have hk : IsTokenOf text ⟨.name name, p⟩ :=
      isTokenOf_of_mem (mem_tokens_of_error h rfl) nofun
    exact ⟨rfl, hk, hk.name_prefix⟩
  | target shown => rfl

/-- Every error of a text points to what it is about, and a text with a foreign character is refused
at the first one, for a token before it or for a wrong target, but not for its end. -/
theorem failures_point_into_text (v : Vocabulary) (text : String) :
    (∀ e, parse v text = .error e → PointsInto text e) ∧
    ∀ c p, IsFirstForeign text c p →
      ∃ e, parse v text = .error e ∧ (∀ n, e ≠ .ending n) ∧
        (e = .character c p ∨ (∃ shown, e = .target shown) ∨
          ∃ n, e.position? = some n ∧ n < p) := by
  refine ⟨fun e => pointsInto_of_parse, fun c p hfirst => ?_⟩
  have hs := stray?_eq_some_iff.2 hfirst
  obtain ⟨e, he⟩ := exists_error_of_stray? (v := v) (a := .start) hs
  have hbefore {k : Token} (hk : token? e = some k) : k.lexeme ≠ .ending ∧ k.position < p :=
    (cuts_ofString text).position_lt hs (mem_tokens_of_error he hk)
  refine ⟨e, he, ?_, ?_⟩
  · rintro n rfl
    exact (hbefore rfl).1 rfl
  · cases e with
    | character d n =>
      cases hs.symm.trans (stray?_of_run he)
      exact .inl rfl
    | target shown => exact .inr (.inl ⟨shown, rfl⟩)
    | token l n => exact .inr (.inr ⟨n, rfl, (hbefore rfl).2⟩)
    | ending n => exact .inr (.inr ⟨n, rfl, (hbefore rfl).2⟩)
    | unknown name n => exact .inr (.inr ⟨n, rfl, (hbefore rfl).2⟩)

end Parse
end ComplexCalculator
