import ComplexCalculator.Proofs.Parse.Grammar

/-!
# What follows a construct

A construct looks at one lexeme behind it and stops there because that does not continue it. A
closing bracket continues nothing, and neither does the end. So what follows a construct can be cut
off, or a closing bracket put in its place, and the construct is derived to the same tree: only a
name that strict reading admits as a target needs the `:=` behind it.
-/
namespace ComplexCalculator

variable {v : Vocabulary} {r r' : List Lexeme}

theorem Vocabulary.Admits.of_ne_define {name : String} {next : Option Lexeme}
    (h : v.Admits name next) (hn : next ≠ some (.mark .define)) (other : Option Lexeme) :
    v.Admits name other := by
  unfold Vocabulary.Admits at h ⊢
  cases hm : v.meaning name with
  | function f =>
    rw [hm] at h
    exact h
  | constant => trivial
  | unknown =>
    rw [hm] at h
    exact fun hs => absurd (h hs) hn

namespace Parse

def Ends (r : List Lexeme) : Prop := ∀ l ∈ r.head?, l = .mark .closing

theorem ends_nil : Ends [] := nofun

theorem ends_closing (r : List Lexeme) : Ends (.mark .closing :: r) := by
  rintro l ⟨⟩
  rfl

theorem Ends.head?_append (h : Ends r') (r a : List Lexeme) :
    ∀ l ∈ (a ++ r').head?, l ∈ (a ++ r).head? ∨ l = .mark .closing := by
  cases a with
  | nil => exact fun l hl => .inr (h l hl)
  | cons b a => exact fun l hl => .inl hl

theorem Ends.ne_some (h : Ends r') {a : List Lexeme} {m : Mark} (hm : m ≠ .closing)
    (hr : (a ++ r).head? ≠ some (.mark m)) : (a ++ r').head? ≠ some (.mark m) := by
  intro hl
  rcases h.head?_append r a _ hl with hl | hl
  · exact hr hl
  · exact hm (Lexeme.mark.inj hl)

theorem admits_append (hr : r.head? ≠ some (.mark .define)) {a : List Lexeme} {name : String}
    (hn : v.Admits name (a ++ r).head?) : v.Admits name (a ++ r').head? := by
  cases a with
  | nil => exact hn.of_ne_define hr _
  | cons b a => exact hn

theorem Derives.follow {c : Construct} {s s' : List Lexeme} {t : Expr} (h : Derives v c s t s')
    (hr : r.head? ≠ some (.mark .define)) (hr' : Ends r') (a' : List Lexeme) (hs : s' = a' ++ r) :
    ∃ a, s = a ++ r ∧ Derives v c (a ++ r') t (a' ++ r') := by
  induction h generalizing a' with
  | level hp hl ht ihl iht =>
    obtain ⟨a₁, rfl, ht'⟩ := iht _ hs
    obtain ⟨a, rfl, hl'⟩ := ihl _ rfl
    exact ⟨a, rfl, .level hp hl' ht'⟩
  | stop hstop =>
    subst hs
    refine ⟨a', rfl, .stop fun l hl => ?_⟩
    rcases hr'.head?_append r a' l hl with hl | rfl
    · exact hstop l hl
    · exact nofun
  | operation hm hp ho ht iho iht =>
    obtain ⟨a₁, rfl, ht'⟩ := iht _ hs
    obtain ⟨a, rfl, ho'⟩ := iho _ rfl
    exact ⟨_ :: a, rfl, .operation hm hp ho' ht'⟩
  | definition hd ht ihd iht =>
    obtain ⟨a₁, rfl, ht'⟩ := iht _ hs
    obtain ⟨a, rfl, hd'⟩ := ihd _ rfl
    exact ⟨_ :: a, rfl, .definition hd' ht'⟩
  | factorial ht iht =>
    obtain ⟨a, rfl, ht'⟩ := iht _ hs
    exact ⟨_ :: a, rfl, .factorial ht'⟩
  | power he ihe =>
    obtain ⟨a, rfl, he'⟩ := ihe _ hs
    exact ⟨_ :: a, rfl, .power he'⟩
  | number =>
    subst hs
    exact ⟨_ :: a', rfl, .number⟩
  | symbol hn =>
    subst hs
    exact ⟨_ :: a', rfl, .symbol (admits_append hr hn)⟩
  | negate ht iht =>
    obtain ⟨a, rfl, ht'⟩ := iht _ hs
    exact ⟨_ :: a, rfl, .negate ht'⟩
  | group ht iht =>
    obtain ⟨a, rfl, ht'⟩ := iht (.mark .closing :: a') (by rw [hs, List.cons_append])
    exact ⟨_ :: a, rfl, .group ht'⟩
  | call hf hp ht iht =>
    obtain ⟨a, rfl, ht'⟩ := iht _ hs
    exact ⟨_ :: a, rfl, .call hf (hr'.ne_some (by decide) hp) ht'⟩
  | raised hf he ht ihe iht =>
    obtain ⟨a₁, rfl, ht'⟩ := iht _ hs
    obtain ⟨a, rfl, he'⟩ := ihe _ rfl
    exact ⟨_ :: _ :: a, rfl, .raised hf he' ht'⟩
  | bracketed ht iht =>
    obtain ⟨a, rfl, ht'⟩ := iht (.mark .closing :: a') (by rw [hs, List.cons_append])
    exact ⟨_ :: a, rfl, .bracketed ht'⟩
  | bare ho ht iht =>
    obtain ⟨a, rfl, ht'⟩ := iht _ hs
    exact ⟨a, rfl, .bare (hr'.ne_some (by decide) ho) ht'⟩
  | last ht hc iht =>
    subst hs
    obtain ⟨a, rfl, ht'⟩ := iht _ rfl
    exact ⟨a, rfl, .last ht' (hr'.ne_some (by decide) hc)⟩
  | more ht hu iht ihu =>
    obtain ⟨a₁, rfl, hu'⟩ := ihu _ hs
    obtain ⟨a, rfl, ht'⟩ := iht (.mark .comma :: a₁) rfl
    exact ⟨a, rfl, .more ht' hu'⟩

variable {c : Construct} {a : List Lexeme} {t : Expr}

theorem Derives.before (h : Derives v c (a ++ r) t r) (hr : r.head? ≠ some (.mark .define))
    (hr' : Ends r') : Derives v c (a ++ r') t r' := by
  obtain ⟨a₁, ha, h'⟩ := h.follow hr hr' [] rfl
  obtain rfl := List.append_cancel_right ha
  exact h'

theorem Derives.alone (h : Derives v c (a ++ r) t r) (hr : r.head? ≠ some (.mark .define)) :
    Derives v c a t [] := by
  have h' := h.before hr ends_nil
  rwa [List.append_nil] at h'

theorem Derives.before_closing (h : Derives v c a t []) (r : List Lexeme) :
    Derives v c (a ++ .mark .closing :: r) t (.mark .closing :: r) := by
  rw [← List.append_nil a] at h
  exact h.before nofun (ends_closing r)

end Parse
end ComplexCalculator
