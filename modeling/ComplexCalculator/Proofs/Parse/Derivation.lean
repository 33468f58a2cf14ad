import ComplexCalculator.Proofs.Parse.Positions
import ComplexCalculator.Proofs.Parse.Grammar

/-!
# The machine reads what the grammar derives

For every construct of the grammar it is said what the machine does from the state where the
construct begins: `Reads` when a tree is derived, and then the machine comes to a value that no
lexeme ahead can extend inside of that construct; `Refuses` when the machine ends in an error,
whatever surrounds the construct. Every list of lexemes has one or the other. So the machine accepts
exactly what the grammar derives, and the grammar derives at most one tree.
-/
namespace ComplexCalculator.Parse

variable {v : Vocabulary}

def front (s : List Lexeme) : Token := ⟨s.head?.getD .ending, 0⟩

theorem front_eq_mark {s : List Lexeme} {m : Mark} :
    (front s).lexeme = .mark m ↔ s.head? = some (.mark m) := by
  cases s <;> simp [front]

theorem reads_nil (a : State) :
    reads v a [] = match step v a (front []) with
      | .ok ⟨_, .complete t⟩ => .ok t
      | .ok _ => .error (.ending 0)
      | .error e => .error e := rfl

theorem reads_cons (a : State) (l : Lexeme) (s : List Lexeme) :
    reads v a (l :: s) = match step v a (front (l :: s)) with
      | .ok b => reads v b s
      | .error e => .error e := rfl

theorem reads_congr {a b : State} {s : List Lexeme} (h : step v a (front s) = step v b (front s)) :
    reads v a s = reads v b s := by
  cases s with
  | nil => rw [reads_nil, reads_nil, h]
  | cons l s => rw [reads_cons, reads_cons, h]

theorem reads_of_step {a b : State} {l : Lexeme} {s : List Lexeme}
    (h : step v a (front (l :: s)) = .ok b) : reads v a (l :: s) = reads v b s := by
  rw [reads_cons, h]

theorem reads_of_error {a : State} {s : List Lexeme} {e : ParseError}
    (h : step v a (front s) = .error e) : reads v a s = .error e := by
  cases s with
  | nil => rw [reads_nil, h]
  | cons l s => rw [reads_cons, h]

/-- No lexeme ahead takes a value of the grade at a level or a tighter one. -/
def Settled (p : Precedence) (g : Grade) (s : List Lexeme) : Prop :=
  (p = .number → g = .primary) ∧
    ∀ l ∈ s.head?, ∀ e, Extension.ofLexeme? g l = some e → e.rank < p.rank

theorem rank_tighter {p : Precedence} (h : p ≠ .number) : p.tighter.rank = p.rank + 1 := by
  cases p <;> simp_all [Precedence.tighter, Precedence.rank]

theorem continues?_of_extension {g : Grade} {l : Lexeme} {e : Extension}
    (h : Extension.ofLexeme? g l = some e) :
    ∃ p, l.continues? = some p ∧ e.rank = p.rank ∧ p ≠ .number := by
  cases l with
  | mark m =>
    cases m <;> cases g <;> simp [Extension.ofLexeme?, Link.ofMark?] at h <;> subst h <;>
      exact ⟨_, rfl, rfl, by decide⟩
  | number x => cases h
  | name name => cases h
  | ending => cases h

theorem settled_number (s : List Lexeme) : Settled .number .primary s := by
  refine ⟨fun _ => rfl, fun l _ e he => ?_⟩
  obtain ⟨p, -, hr, hp⟩ := continues?_of_extension he
  rw [hr]
  cases p <;> simp_all [Precedence.rank]

theorem settled_power (s : List Lexeme) : Settled .power .compound s := by
  refine ⟨nofun, fun l _ e he => ?_⟩
  cases l with
  | mark m =>
    cases m <;> simp [Extension.ofLexeme?, Link.ofMark?] at he <;> subst he <;> decide
  | number x => cases he
  | name name => cases he
  | ending => cases he

theorem Settled.compound {p : Precedence} {g : Grade} {s : List Lexeme} (h : Settled p g s)
    (hp : p ≠ .number) : Settled p .compound s := by
  refine ⟨fun hn => absurd hn hp, fun l hl e he => h.2 l hl e ?_⟩
  cases l with
  | mark m => cases m <;> cases g <;> simp_all [Extension.ofLexeme?]
  | number x => cases he
  | name name => cases he
  | ending => cases he

theorem Settled.stop {p : Precedence} {g : Grade} {s : List Lexeme} (hp : p ≠ .number)
    (h : Settled p.tighter g s) (hs : ∀ l ∈ s.head?, l.continues? ≠ some p) : Settled p g s := by
  refine ⟨fun hn => absurd hn hp, fun l hl e he => ?_⟩
  obtain ⟨q, hq, hr, -⟩ := continues?_of_extension he
  have hlt := h.2 l hl e he
  have hne : e.rank ≠ p.rank := by
    intro heq
    rw [hr] at heq
    exact hs l hl (Precedence.rank_injective heq ▸ hq)
  rw [rank_tighter hp] at hlt
  omega

theorem Settled.takes?_eq_none {p : Precedence} {g : Grade} {s : List Lexeme} (h : Settled p g s)
    {stack : List Frame} (hf : p.rank ≤ floor stack) :
    takes? stack g (front s).lexeme = none := by
  rw [takes?, Option.filter_eq_none_iff]
  intro e he
  cases s with
  | nil => cases he
  | cons l s =>
    have := h.2 l rfl e he
    simp only [decide_eq_true_eq]
    omega

theorem reads_close {p : Precedence} {g : Grade} {s : List Lexeme} (h : Settled p g s)
    {stack : List Frame} (hf : p.rank ≤ floor stack) {a : State} {t : Expr}
    (ha : step v a (front s) = close v (front s) t stack) :
    reads v ⟨stack, .value g t⟩ s = reads v a s :=
  reads_congr ((resume_of_not_takes (h.takes?_eq_none hf)).trans ha.symm)

theorem reads_shift {g : Grade} {l : Lexeme} {s : List Lexeme} {stack : List Frame} {t : Expr}
    {e : Extension} (h : Extension.ofLexeme? g l = some e) (hf : floor stack ≤ e.rank) :
    reads v ⟨stack, .value g t⟩ (l :: s) = reads v (e.shift stack t) s := by
  refine reads_of_step (resume_of_takes ?_)
  rw [takes?, Option.filter_eq_some_iff]
  exact ⟨h, by simpa using hf⟩

def Reads (v : Vocabulary) : Construct → List Lexeme → Expr → List Lexeme → Prop
  | .level p, s, t, s' => ∀ stack, floor stack ≤ p.rank → ∃ g, Settled p g s' ∧
      reads v ⟨stack, .operand⟩ s = reads v ⟨stack, .value g t⟩ s'
  | .after p l, s, t, s' => ∀ stack g, floor stack ≤ p.rank → Settled p.tighter g s →
      ∃ g', Settled p g' s' ∧ reads v ⟨stack, .value g l⟩ s = reads v ⟨stack, .value g' t⟩ s'
  | .application c, s, t, s' => ∀ stack a, step v a (front s) = beginArguments v stack c (front s) →
      reads v a s = reads v ⟨stack, .value .primary t⟩ s'
  | .arguments c, s, t, s' => ∀ b stack, ∃ c' g u, c'.complete u = t ∧ Settled .relation g s' ∧
      s'.head? ≠ some (.mark .comma) ∧
      reads v ⟨.arguments c b :: stack, .operand⟩ s =
        reads v ⟨.arguments c' b :: stack, .value g u⟩ s'

def Refuses (v : Vocabulary) : Construct → List Lexeme → Prop
  | .level p, s => ∀ stack, floor stack ≤ p.rank → ∃ e, reads v ⟨stack, .operand⟩ s = .error e
  | .after p l, s => ∀ stack g, floor stack ≤ p.rank → Settled p.tighter g s →
      ∃ e, reads v ⟨stack, .value g l⟩ s = .error e
  | .application c, s => ∀ stack a, step v a (front s) = beginArguments v stack c (front s) →
      ∃ e, reads v a s = .error e
  | .arguments c, s => ∀ b stack, ∃ e, reads v ⟨.arguments c b :: stack, .operand⟩ s = .error e

theorem extension_of_link {g : Grade} {m : Mark} {link : Link} (h : Link.ofMark? m = some link) :
    Extension.ofLexeme? g (.mark m) = some (.link link) ∧
      link.precedence ≠ .number ∧ link.precedence.tighter ≠ .number := by
  cases m <;> simp [Link.ofMark?] at h <;> subst h <;> exact ⟨rfl, by decide, by decide⟩

theorem link_of_operator {m : Mark} {op : Operator} (h : m.operator? = some op) :
    Link.ofMark? m = some (.operator op) := by
  cases m <;> simp [Mark.operator?] at h <;> subst h <;> rfl

theorem reads_chain {link : Link} {l r : Expr} {s s₁ : List Lexeme} {g : Grade} {m : Mark}
    (hm : Link.ofMark? m = some link)
    (hr : Reads v (.level link.precedence.tighter) s r s₁) {stack : List Frame}
    (hf : floor stack ≤ link.precedence.rank) :
    Settled link.precedence.tighter .compound s₁ ∧
      reads v ⟨stack, .value g l⟩ (.mark m :: s) = match link.join l r with
        | .ok u => reads v ⟨stack, .value .compound u⟩ s₁
        | .error e => .error e := by
  obtain ⟨he, hn, ht⟩ := extension_of_link (g := g) hm
  have hfloor : link.precedence.tighter.rank = floor (.chain link l :: stack) := rank_tighter hn
  obtain ⟨g', hg', hr'⟩ := hr (.chain link l :: stack) (Nat.le_of_eq hfloor.symm)
  refine ⟨hg'.compound ht, (reads_shift he hf).trans (hr'.trans ?_)⟩
  cases hj : link.join l r with
  | ok u =>
    refine reads_close hg' (Nat.le_of_eq hfloor) ?_
    simp only [close, hj]
    rfl
  | error e =>
    refine reads_of_error
      ((resume_of_not_takes (hg'.takes?_eq_none (Nat.le_of_eq hfloor))).trans ?_)
    simp only [close, hj]

theorem step_symbol {name : String} {s : List Lexeme} (h : v.Admits name s.head?)
    (stack : List Frame) :
    ∃ a, step v ⟨stack, .operand⟩ (front (.name name :: s)) = .ok a ∧
      step v a (front s) = step v ⟨stack, .value .primary (.symbol name)⟩ (front s) := by
  simp only [Vocabulary.Admits] at h
  cases hm : v.meaning name with
  | function f =>
    rw [hm] at h
    exact h.elim
  | constant =>
    exact ⟨⟨stack, .value .primary (.symbol name)⟩, by simp [step, begin, front, hm], rfl⟩
  | unknown =>
    rw [hm] at h
    cases hs : v.isStrict with
    | false =>
      exact ⟨⟨stack, .value .primary (.symbol name)⟩, by simp [step, begin, front, hm, hs], rfl⟩
    | true =>
      refine ⟨⟨stack, .unknown name 0⟩, by simp [step, begin, front, hm, hs], ?_⟩
      simp only [step, front, h hs, Option.getD_some, if_true]

theorem step_callee {name : String} {f : Function} (h : v.meaning name = .function f)
    (s : List Lexeme) (stack : List Frame) :
    step v ⟨stack, .operand⟩ (front (.name name :: s)) = .ok ⟨stack, .callee name f⟩ := by
  simp only [step, begin, front, List.head?_cons, Option.getD_some, h]

theorem beginArguments_opening (stack : List Frame) (c : Pending) (s : List Lexeme) :
    beginArguments v stack c (front (.mark .opening :: s)) =
      .ok ⟨.arguments c true :: stack, .operand⟩ := rfl

theorem beginArguments_bare {s : List Lexeme} (h : s.head? ≠ some (.mark .opening))
    (stack : List Frame) (c : Pending) :
    beginArguments v stack c (front s) =
      step v ⟨.arguments c false :: stack, .operand⟩ (front s) :=
  if_neg fun ho => h (front_eq_mark.1 ho)

theorem Derives.reads {c : Construct} {s s' : List Lexeme} {t : Expr} (h : Derives v c s t s') :
    Reads v c s t s' := by
  -- The stack stays arbitrary: a construct inside of another one is read above the frame of that.
  induction h with
  | @level p s l s₁ t s₂ hp hl ht ihl iht =>
    intro stack hf
    obtain ⟨g, hg, hr⟩ := ihl stack (by rw [rank_tighter hp]; omega)
    obtain ⟨g', hg', hr'⟩ := iht stack g hf hg
    exact ⟨g', hg', hr.trans hr'⟩
  | @stop p t s hs =>
    intro stack g hf hg
    refine ⟨g, ?_, rfl⟩
    by_cases hp : p = .number
    · subst hp
      exact hg
    · exact hg.stop hp hs
  | @operation p m op l s r s₁ t s₂ hm hp hr ht ihr iht =>
    intro stack g hf hg
    subst hp
    obtain ⟨hg', hc⟩ := reads_chain (l := l) (g := g) (link_of_operator hm) ihr hf
    obtain ⟨g', hg', ht'⟩ := iht stack .compound hf hg'
    exact ⟨g', hg', hc.trans ht'⟩
  | @definition name s r s₁ t s₂ hr ht ihr iht =>
    intro stack g hf hg
    have hm : Link.ofMark? .define = some .definition := rfl
    obtain ⟨hg', hc⟩ := reads_chain (l := .symbol name) (g := g) hm ihr hf
    obtain ⟨g', hg', ht'⟩ := iht stack .compound hf hg'
    exact ⟨g', hg', hc.trans ht'⟩
  | factorial ht iht =>
    intro stack g hf hg
    obtain ⟨g', hg', hr⟩ := iht stack .compound hf (settled_power _)
    exact ⟨g', hg', (reads_shift (e := .factorial) rfl hf).trans hr⟩
  | @power b s e s₁ he ihe =>
    intro stack g hf hg
    -- What stands before a power is settled at the tightest level, so it is primary.
    obtain rfl := hg.1 rfl
    obtain ⟨g', hg', hr⟩ := ihe (.power b :: stack) (Nat.le_refl _)
    refine ⟨.compound, settled_power _, (reads_shift (e := .power) rfl hf).trans (hr.trans ?_)⟩
    exact reads_close hg' (Nat.le_refl _) rfl
  | number =>
    intro stack hf
    exact ⟨.primary, settled_number _, reads_of_step rfl⟩
  | symbol hn =>
    intro stack hf
    obtain ⟨a, ha, hs⟩ := step_symbol hn stack
    exact ⟨.primary, settled_number _, (reads_of_step ha).trans (reads_congr hs)⟩
  | negate ht iht =>
    intro stack hf
    obtain ⟨g, hg, hr⟩ := iht (.minus :: stack) (Nat.le_refl _)
    refine ⟨.primary, settled_number _, (reads_of_step rfl).trans (hr.trans ?_)⟩
    exact reads_close hg (Nat.le_refl _) rfl
  | group ht iht =>
    intro stack hf
    obtain ⟨g, hg, hr⟩ := iht (.group :: stack) (Nat.le_refl _)
    refine ⟨.primary, settled_number _, (reads_of_step rfl).trans (hr.trans ?_)⟩
    exact reads_of_step (resume_of_not_takes (hg.takes?_eq_none (Nat.le_refl _)))
  | @call name f s t s₁ hf hs ht iht =>
    intro stack _
    refine ⟨.primary, settled_number _, (reads_of_step (step_callee hf s stack)).trans ?_⟩
    exact iht stack _ (if_neg fun hk => hs (front_eq_mark.1 hk))
  | @raised name f s e s₁ t s₂ hf he ht ihe iht =>
    intro stack _
    obtain ⟨g, hg, hr⟩ := ihe (.exponent name f :: stack) (Nat.le_refl _)
    refine ⟨.primary, settled_number _, (reads_of_step (step_callee hf _ stack)).trans ?_⟩
    refine (reads_of_step rfl).trans (hr.trans ?_)
    exact iht stack _ (resume_of_not_takes (hg.takes?_eq_none (Nat.le_refl _)))
  | bracketed ht iht =>
    intro stack a ha
    obtain ⟨c', g, u, rfl, hg, hs, hr⟩ := iht true stack
    refine (reads_of_step (ha.trans (beginArguments_opening stack _ _))).trans (hr.trans ?_)
    exact reads_of_step (resume_of_not_takes (hg.takes?_eq_none (Nat.le_refl _)))
  | @bare c s t s₁ hs ht iht =>
    intro stack a ha
    obtain ⟨c', g, u, rfl, hg, hc, hr⟩ := iht false stack
    refine (reads_congr (ha.trans (beginArguments_bare hs stack c))).trans (hr.trans ?_)
    have hk : (front s₁).lexeme ≠ .mark .comma := fun hk => hc (front_eq_mark.1 hk)
    exact reads_close hg (Nat.le_refl _) (if_neg hk).symm
  | last ht hs iht =>
    intro b stack
    obtain ⟨g, hg, hr⟩ := iht (.arguments _ b :: stack) (Nat.le_refl _)
    exact ⟨_, g, _, rfl, hg, hs, hr⟩
  | @more c s t s₁ u s₂ ht hu iht ihu =>
    intro b stack
    obtain ⟨g, hg, hr⟩ := iht (.arguments c b :: stack) (Nat.le_refl _)
    obtain ⟨c', g', w, hw, hg', hs, hr'⟩ := ihu b stack
    refine ⟨c', g', w, hw, hg', hs, hr.trans ((reads_of_step ?_).trans hr')⟩
    exact resume_of_not_takes (hg.takes?_eq_none (Nat.le_refl _))

def Decides (v : Vocabulary) (c : Construct) (s : List Lexeme) : Prop :=
  (∃ t s', Derives v c s t s') ∨ Refuses v c s

theorem decides_level {p : Precedence} {s : List Lexeme} (hp : p ≠ .number)
    (hl : Decides v (.level p.tighter) s)
    (ha : ∀ l s₁, s₁.length < s.length → Decides v (.after p l) s₁) :
    Decides v (.level p) s := by
  rcases hl with ⟨l, s₁, hl⟩ | hl
  · rcases ha l s₁ hl.length_le with ⟨t, s₂, ht⟩ | ht
    · exact .inl ⟨t, s₂, .level hp hl ht⟩
    · refine .inr fun stack hf => ?_
      obtain ⟨g, hg, hr⟩ := hl.reads stack (by rw [rank_tighter hp]; omega)
      obtain ⟨e, he⟩ := ht stack g hf hg
      exact ⟨e, hr.trans he⟩
  · exact .inr fun stack hf => hl stack (by rw [rank_tighter hp]; omega)

theorem Derives.link {link : Link} {m : Mark} {l r u t : Expr} {s s₁ s₂ : List Lexeme}
    (hm : Link.ofMark? m = some link) (hr : Derives v (.level link.precedence.tighter) s r s₁)
    (hj : link.join l r = .ok u) (ht : Derives v (.after link.precedence u) s₁ t s₂) :
    Derives v (.after link.precedence l) (.mark m :: s) t s₂ := by
  cases link with
  | operator op =>
    obtain rfl : Expr.binary op l r = u := by simpa [Link.join] using hj
    refine .operation ?_ rfl hr ht
    cases m <;> simp_all [Link.ofMark?, Mark.operator?]
  | definition =>
    obtain rfl : m = .define := by cases m <;> simp [Link.ofMark?] at hm; rfl
    cases l with
    | symbol name =>
      obtain rfl : Expr.define name r = u := by simpa [Link.join] using hj
      exact .definition hr ht
    | _ => simp [Link.join] at hj

theorem decides_link {link : Link} {m : Mark} {l : Expr} {s : List Lexeme}
    (hm : Link.ofMark? m = some link) (hr : Decides v (.level link.precedence.tighter) s)
    (ha : ∀ u s₁, s₁.length < s.length → Decides v (.after link.precedence u) s₁) :
    Decides v (.after link.precedence l) (.mark m :: s) := by
  rcases hr with ⟨r, s₁, hr⟩ | hr
  · cases hj : link.join l r with
    | ok u =>
      rcases ha u s₁ hr.length_le with ⟨t, s₂, ht⟩ | ht
      · exact .inl ⟨t, s₂, hr.link hm hj ht⟩
      · refine .inr fun stack g hf hg => ?_
        obtain ⟨hg', hc⟩ := reads_chain (l := l) (g := g) hm hr.reads hf
        obtain ⟨e, he⟩ := ht stack .compound hf hg'
        rw [hj] at hc
        exact ⟨e, hc.trans he⟩
    | error e =>
      refine .inr fun stack g hf hg => ?_
      obtain ⟨-, hc⟩ := reads_chain (l := l) (g := g) hm hr.reads hf
      rw [hj] at hc
      exact ⟨e, hc⟩
  · refine .inr fun stack g hf hg => ?_
    obtain ⟨he, hn, -⟩ := extension_of_link (g := g) hm
    obtain ⟨e, hr⟩ := hr (.chain link l :: stack) (Nat.le_of_eq (rank_tighter hn).symm)
    exact ⟨e, (reads_shift he hf).trans hr⟩

theorem continues?_cases {l : Lexeme} {p : Precedence} (h : l.continues? = some p) :
    l = .mark .power ∧ p = .power ∨ l = .mark .factorial ∧ p = .factorial ∨
      ∃ m link, l = .mark m ∧ Link.ofMark? m = some link ∧ link.precedence = p := by
  cases l with
  | mark m =>
    cases m <;> simp [Lexeme.continues?, Mark.operator?] at h <;> subst h <;>
      simp [Link.ofMark?] <;> rfl
  | number x => cases h
  | name name => cases h
  | ending => cases h

theorem decides_after {p : Precedence} {l : Expr} {s : List Lexeme}
    (ih : ∀ s₁, s₁.length < s.length → ∀ c, Decides v c s₁) : Decides v (.after p l) s := by
  by_cases hs : ∀ x ∈ s.head?, x.continues? ≠ some p
  · exact .inl ⟨l, s, .stop hs⟩
  · cases s with
    | nil => simp at hs
    | cons x s =>
      have hx : x.continues? = some p := by simpa using hs
      obtain ⟨rfl, rfl⟩ | ⟨rfl, rfl⟩ | ⟨m, link, rfl, hm, rfl⟩ := continues?_cases hx
      · rcases ih s (Nat.lt_succ_self _) (.level .power) with ⟨e, s₁, he⟩ | he
        · exact .inl ⟨_, s₁, .power he⟩
        · refine .inr fun stack g hf hg => ?_
          obtain rfl := hg.1 rfl
          obtain ⟨e, hr⟩ := he (.power l :: stack) (Nat.le_refl _)
          exact ⟨e, (reads_shift (e := .power) rfl hf).trans hr⟩
      · rcases ih s (Nat.lt_succ_self _) (.after .factorial (.factorial l)) with ⟨t, s₁, ht⟩ | ht
        · exact .inl ⟨t, s₁, .factorial ht⟩
        · refine .inr fun stack g hf hg => ?_
          obtain ⟨e, hr⟩ := ht stack .compound hf (settled_power _)
          exact ⟨e, (reads_shift (e := .factorial) rfl hf).trans hr⟩
      · exact decides_link hm (ih s (Nat.lt_succ_self _) _)
          fun u s₁ h => ih s₁ (Nat.lt_succ_of_lt h) _

theorem decides_application {c : Pending} {s : List Lexeme} (h : Decides v (.arguments c) s)
    (ih : ∀ s₁, s₁.length < s.length → ∀ c, Decides v c s₁) : Decides v (.application c) s := by
  by_cases ho : s.head? = some (.mark .opening)
  · obtain ⟨s, rfl⟩ : ∃ r, s = .mark .opening :: r := by
      cases s <;> simp_all
    rcases ih s (Nat.lt_succ_self _) (.arguments c) with ⟨t, s₁, ht⟩ | ht
    · by_cases hc : s₁.head? = some (.mark .closing)
      · obtain ⟨s₁, rfl⟩ : ∃ r, s₁ = .mark .closing :: r := by
          cases s₁ <;> simp_all
        exact .inl ⟨t, s₁, .bracketed ht⟩
      · refine .inr fun stack a ha => ?_
        obtain ⟨c', g, u, rfl, hg, hs, hr⟩ := ht.reads true stack
        have hk : (front s₁).lexeme ≠ .mark .comma := fun hk => hs (front_eq_mark.1 hk)
        have hk' : (front s₁).lexeme ≠ .mark .closing := fun hk => hc (front_eq_mark.1 hk)
        refine ⟨.unexpected (front s₁),
          (reads_of_step (ha.trans (beginArguments_opening stack c s))).trans (hr.trans ?_)⟩
        refine reads_of_error ((resume_of_not_takes (hg.takes?_eq_none (Nat.le_refl _))).trans ?_)
        simp only [close, if_neg hk, if_neg hk', Bool.not_true, Bool.false_eq_true, if_false]
    · refine .inr fun stack a ha => ?_
      obtain ⟨e, he⟩ := ht true stack
      exact ⟨e, (reads_of_step (ha.trans (beginArguments_opening stack c s))).trans he⟩
  · rcases h with ⟨t, s₁, ht⟩ | ht
    · exact .inl ⟨t, s₁, .bare ho ht⟩
    · refine .inr fun stack a ha => ?_
      obtain ⟨e, he⟩ := ht false stack
      exact ⟨e, (reads_congr (ha.trans (beginArguments_bare ho stack c))).trans he⟩

theorem decides_arguments {c : Pending} {s : List Lexeme} (h : Decides v (.level .relation) s)
    (ih : ∀ s₁, s₁.length < s.length → ∀ c, Decides v c s₁) : Decides v (.arguments c) s := by
  rcases h with ⟨t, s₁, ht⟩ | ht
  · by_cases hc : s₁.head? = some (.mark .comma)
    · obtain ⟨s₁, rfl⟩ : ∃ r, s₁ = .mark .comma :: r := by
        cases s₁ <;> simp_all
      have hlt : s₁.length < s.length := Nat.lt_of_succ_lt ht.length_le
      rcases ih s₁ hlt (.arguments (c.push t)) with ⟨u, s₂, hu⟩ | hu
      · exact .inl ⟨u, s₂, .more ht hu⟩
      · refine .inr fun b stack => ?_
        obtain ⟨g, hg, hr⟩ := ht.reads (.arguments c b :: stack) (Nat.le_refl _)
        obtain ⟨e, he⟩ := hu b stack
        refine ⟨e, hr.trans ((reads_of_step ?_).trans he)⟩
        exact resume_of_not_takes (hg.takes?_eq_none (Nat.le_refl _))
    · exact .inl ⟨_, s₁, .last ht hc⟩
  · exact .inr fun b stack => ht (.arguments c b :: stack) (Nat.le_refl _)

theorem refuses_primary {s : List Lexeme}
    (h : ∀ stack, ∃ e, reads v ⟨stack, .operand⟩ s = .error e) : Refuses v (.level .number) s :=
  fun stack _ => h stack

theorem decides_name {name : String} {s : List Lexeme}
    (ih : ∀ s₁, s₁.length ≤ s.length → ∀ c, Decides v c s₁) :
    Decides v (.level .number) (.name name :: s) := by
  by_cases hn : v.Admits name s.head?
  · exact .inl ⟨_, s, .symbol hn⟩
  · cases hm : v.meaning name with
    | constant => exact absurd (by simp [Vocabulary.Admits, hm]) hn
    | unknown =>
      have hs : v.isStrict = true ∧ s.head? ≠ some (.mark .define) := by
        simpa [Vocabulary.Admits, hm] using hn
      have hk : (front s).lexeme ≠ .mark .define := fun hk => hs.2 (front_eq_mark.1 hk)
      refine .inr (refuses_primary fun stack => ⟨.unknown name 0, ?_⟩)
      refine (reads_of_step (b := ⟨stack, .unknown name 0⟩) ?_).trans (reads_of_error (if_neg hk))
      simp only [step, begin, front, List.head?_cons, Option.getD_some, hm, hs.1, if_true]
    | function f =>
      by_cases hp : s.head? = some (.mark .power)
      · obtain ⟨s, rfl⟩ : ∃ r, s = .mark .power :: r := by
          cases s <;> simp_all
        have hlt : s.length ≤ (Lexeme.mark .power :: s).length := Nat.le_succ _
        rcases ih s hlt (.level .number) with ⟨e, s₁, he⟩ | he
        · have hle := he.length_le
          rcases ih s₁ (by simp [Construct.least] at *; omega) (.application ⟨name, f, some e, []⟩)
            with ⟨t, s₂, ht⟩ | ht
          · exact .inl ⟨t, s₂, .raised hm he ht⟩
          · refine .inr (refuses_primary fun stack => ?_)
            obtain ⟨g, hg, hr⟩ := he.reads (.exponent name f :: stack) (Nat.le_refl _)
            obtain ⟨e', ht'⟩ := ht stack ⟨.exponent name f :: stack, .value g e⟩
              (resume_of_not_takes (hg.takes?_eq_none (Nat.le_refl _)))
            exact ⟨e', (reads_of_step (step_callee hm _ stack)).trans
              ((reads_of_step rfl).trans (hr.trans ht'))⟩
        · refine .inr (refuses_primary fun stack => ?_)
          obtain ⟨e, hr⟩ := he (.exponent name f :: stack) (Nat.le_refl _)
          exact ⟨e, (reads_of_step (step_callee hm _ stack)).trans ((reads_of_step rfl).trans hr)⟩
      · rcases ih s (Nat.le_refl _) (.application ⟨name, f, none, []⟩) with ⟨t, s₁, ht⟩ | ht
        · exact .inl ⟨t, s₁, .call hm hp ht⟩
        · refine .inr (refuses_primary fun stack => ?_)
          obtain ⟨e, he⟩ := ht stack ⟨stack, .callee name f⟩
            (if_neg fun hk => hp (front_eq_mark.1 hk))
          exact ⟨e, (reads_of_step (step_callee hm s stack)).trans he⟩

theorem decides_primary {s : List Lexeme} (ih : ∀ s₁, s₁.length < s.length → ∀ c, Decides v c s₁) :
    Decides v (.level .number) s := by
  cases s with
  | nil => exact .inr (refuses_primary fun stack => ⟨_, reads_of_error rfl⟩)
  | cons l s =>
    cases l with
    | number x => exact .inl ⟨_, s, .number⟩
    | name name => exact decides_name fun s₁ h => ih s₁ (Nat.lt_succ_of_le h)
    | ending => exact .inr (refuses_primary fun stack => ⟨_, reads_of_error rfl⟩)
    | mark m =>
      cases m with
      | minus =>
        rcases ih s (Nat.lt_succ_self _) (.level .number) with ⟨t, s₁, ht⟩ | ht
        · exact .inl ⟨_, s₁, .negate ht⟩
        · refine .inr (refuses_primary fun stack => ?_)
          obtain ⟨e, he⟩ := ht (.minus :: stack) (Nat.le_refl _)
          exact ⟨e, (reads_of_step rfl).trans he⟩
      | opening =>
        rcases ih s (Nat.lt_succ_self _) (.level .relation) with ⟨t, s₁, ht⟩ | ht
        · by_cases hc : s₁.head? = some (.mark .closing)
          · obtain ⟨s₁, rfl⟩ : ∃ r, s₁ = .mark .closing :: r := by
              cases s₁ <;> simp_all
            exact .inl ⟨t, s₁, .group ht⟩
          · refine .inr (refuses_primary fun stack => ?_)
            obtain ⟨g, hg, hr⟩ := ht.reads (.group :: stack) (Nat.le_refl _)
            have hk : (front s₁).lexeme ≠ .mark .closing := fun hk => hc (front_eq_mark.1 hk)
            refine ⟨.unexpected (front s₁), ?_⟩
            refine (reads_of_step rfl).trans (hr.trans (reads_of_error ?_))
            exact (resume_of_not_takes (hg.takes?_eq_none (Nat.le_refl _))).trans (if_neg hk)
        · refine .inr (refuses_primary fun stack => ?_)
          obtain ⟨e, he⟩ := ht (.group :: stack) (Nat.le_refl _)
          exact ⟨e, (reads_of_step rfl).trans he⟩
      | _ => exact .inr (refuses_primary fun stack => ⟨_, reads_of_error rfl⟩)

theorem decides (v : Vocabulary) (c : Construct) (s : List Lexeme) : Decides v c s := by
  induction hn : s.length using Nat.strongRecOn generalizing s c with
  | ind n ih =>
    subst hn
    have hshort : ∀ s₁, s₁.length < s.length → ∀ c, Decides v c s₁ := fun s₁ h c => ih _ h c s₁ rfl
    have hafter : ∀ p l, Decides v (.after p l) s := fun p l => decides_after hshort
    have hlevel (p : Precedence) (hp : p ≠ .number) (hl : Decides v (.level p.tighter) s) :
        Decides v (.level p) s :=
      decides_level hp hl fun l s₁ h => hshort s₁ h _
    have hnumber : Decides v (.level .number) s := decides_primary hshort
    have hpower := hlevel .power (by decide) hnumber
    have hfactor := hlevel .factorial (by decide) hpower
    have hproduct := hlevel .multiplication (by decide) hfactor
    have hsum := hlevel .addition (by decide) hproduct
    have hexpr := hlevel .relation (by decide) hsum
    have harguments (call : Pending) := decides_arguments (c := call) hexpr hshort
    cases c with
    | level p => cases p <;> assumption
    | after p l => exact hafter p l
    | application call => exact decides_application (harguments call) hshort
    | arguments call => exact harguments call

theorem reads_settled {g : Grade} {t u : Expr} {s : List Lexeme} (h : Settled .relation g s) :
    reads v ⟨[], .value g t⟩ s = .ok u ↔ s = [] ∧ t = u := by
  have hstep : step v ⟨[], .value g t⟩ (front s) = close v (front s) t [] :=
    resume_of_not_takes (h.takes?_eq_none (Nat.le_refl _))
  cases s with
  | nil =>
    rw [reads_nil, hstep]
    simp [close, front]
  | cons l s =>
    rw [reads_cons, hstep]
    by_cases hl : l = .ending
    · subst hl
      cases s <;> simp [close, front, reads_nil, reads_cons, step]
    · simp [close, front, hl]

theorem reads_start {s : List Lexeme} {t : Expr} :
    reads v .start s = .ok t ↔ Derives v (.level .relation) s t [] := by
  constructor
  · intro h
    rcases decides v (.level .relation) s with ⟨u, s', hu⟩ | hr
    · obtain ⟨g, hg, hr⟩ := hu.reads [] (Nat.le_refl _)
      obtain ⟨rfl, rfl⟩ := (reads_settled hg).1 (hr.symm.trans h)
      exact hu
    · obtain ⟨e, he⟩ := hr [] (Nat.le_refl _)
      cases he.symm.trans h
  · intro h
    obtain ⟨g, hg, hr⟩ := h.reads [] (Nat.le_refl _)
    exact hr.trans ((reads_settled hg).2 ⟨rfl, rfl⟩)

theorem parse_iff_derives {text : String} {t : Expr} :
    parse v text = .ok t ↔
      ∃ ls, (Stream.ofString text).lexemes? = some ls ∧ Derives v (.level .relation) ls t [] := by
  rw [parse_eq_ok_iff]
  simp only [reads_start]

theorem Derives.unique {s : List Lexeme} {t u : Expr} (ht : Derives v (.level .relation) s t [])
    (hu : Derives v (.level .relation) s u []) : t = u :=
  Except.ok.inj ((reads_start.2 ht).symm.trans (reads_start.2 hu))

/-- The machine accepts exactly the texts that the grammar derives, and builds the only tree that
the grammar derives from their lexemes. -/
theorem parse_builds_unique_derivation (v : Vocabulary) :
    (∀ text t, parse v text = .ok t ↔
      ∃ ls, (Stream.ofString text).lexemes? = some ls ∧ Derives v (.level .relation) ls t []) ∧
    ∀ ls t u, Derives v (.level .relation) ls t [] → Derives v (.level .relation) ls u [] → t = u :=
  ⟨fun _ _ => parse_iff_derives, fun _ _ _ => Derives.unique⟩

end ComplexCalculator.Parse
