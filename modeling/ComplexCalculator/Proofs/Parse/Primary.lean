import ComplexCalculator.Proofs.Parse.Accounting
import ComplexCalculator.Proofs.Parse.Following

/-!
# The primary at the front

What is derived at a level begins with a primary, and any other one with the same tree may stand in
its place. When the primary is a call without brackets, its arguments go on until no lexeme ahead
continues an expression. The only lexeme that can then continue the call itself is `^`, and it
stands right behind a factorial: a factorial is no base of a power, but a call is one.
-/
namespace ComplexCalculator.Parse

variable {v : Vocabulary}

theorem Derives.stops_or_continues {p : Precedence} {s s' : List Lexeme} {l t : Expr}
    (h : Derives v (.after p l) s t s') :
    s = s' ∧ l = t ∨ ∃ k ∈ s.head?, ∃ q, k.continues? = some q := by
  cases h with
  | stop hs => exact .inl ⟨rfl, rfl⟩
  | @operation _ m op _ s r s₁ _ _ hm hp hr ht =>
    refine .inr ⟨_, rfl, p, ?_⟩
    cases m <;> cases hm <;> exact congrArg some hp
  | definition hr ht => exact .inr ⟨_, rfl, _, rfl⟩
  | factorial ht => exact .inr ⟨_, rfl, _, rfl⟩
  | power he => exact .inr ⟨_, rfl, _, rfl⟩

theorem Derives.exists_primary {p : Precedence} {s s' : List Lexeme} {t : Expr}
    (h : Derives v (.level p) s t s') :
    ∃ u s₁, Derives v (.level .number) s u s₁ ∧
      (∀ s₀, Derives v (.level .number) s₀ u s₁ → Derives v (.level p) s₀ t s') ∧
      (s₁ = s' ∧ u = t ∨ ∃ k ∈ s₁.head?, ∃ q, k.continues? = some q) := by
  by_cases hp : p = .number
  · subst hp
    exact ⟨t, s', h, fun _ h₀ => h₀, .inl ⟨rfl, rfl⟩⟩
  · have hlt := rank_tighter hp
    have hle := rank_le_number p.tighter
    cases h with
    | level _ hl ht =>
      obtain ⟨u, s₁, hu, hput, hs⟩ := hl.exists_primary
      refine ⟨u, s₁, hu, fun s₀ h₀ => .level hp (hput s₀ h₀) ht, ?_⟩
      rcases hs with ⟨rfl, rfl⟩ | hs
      · exact ht.stops_or_continues
      · exact .inr hs
    | _ => exact absurd rfl hp
termination_by Precedence.number.rank - p.rank

/-- A power that is left stands behind a factorial, unless a primary does. -/
def Construct.LeavesPower : Construct → List Lexeme → List Lexeme → Prop
  | .level p, s, s' => p ≠ .number → p ≠ .power ∧ .mark .factorial :: s' <:+ s
  | .after p _, s, s' => p ≠ .number → p ≠ .power ∧ (s = s' ∨ .mark .factorial :: s' <:+ s)
  | .arguments _, s, s' => .mark .factorial :: s' <:+ s
  | .application _, _, _ => True

theorem tighter_ne_number {p : Precedence} (hn : p ≠ .number) (hp : p ≠ .power) :
    p.tighter ≠ .number := by
  cases p <;> simp_all [Precedence.tighter]

theorem leavesPower_chain {p : Precedence} {l u : Expr} {m : Mark} {s s₁ s' : List Lexeme}
    (hs : s'.head? = some (.mark .power)) (hsuffix : s₁ <:+ s)
    (hr : s₁.head? = some (.mark .power) → (Construct.level p.tighter).LeavesPower s s₁)
    (ht : (Construct.after p u).LeavesPower s₁ s') :
    (Construct.after p l).LeavesPower (.mark m :: s) s' := by
  intro hn
  obtain ⟨hp, ht⟩ := ht hn
  refine ⟨hp, .inr (.trans ?_ (List.suffix_cons _ _))⟩
  rcases ht with rfl | ht
  · exact (hr hs (tighter_ne_number hn hp)).2
  · exact ht.trans hsuffix

theorem Derives.leavesPower {c : Construct} {s s' : List Lexeme} {t : Expr}
    (h : Derives v c s t s') (hs : s'.head? = some (.mark .power)) : c.LeavesPower s s' := by
  -- No power stops before a `^`, so what leaves one is looser, and its last operand is a factor
  -- that stopped there: it could only because a factorial is no base.
  induction h with
  | @level p s l s₁ t s₂ hp hl ht ihl iht =>
    intro hn
    obtain ⟨hpower, ht⟩ := iht hs hn
    refine ⟨hpower, ?_⟩
    rcases ht with rfl | ht
    · exact (ihl hs (tighter_ne_number hn hpower)).2
    · exact ht.trans hl.suffix
  | stop hstop =>
    refine fun _ => ⟨?_, .inl rfl⟩
    rintro rfl
    exact hstop _ hs rfl
  | operation hm hp hr ht ihr iht => exact leavesPower_chain hs hr.suffix ihr (iht hs)
  | definition hr ht ihr iht => exact leavesPower_chain hs hr.suffix ihr (iht hs)
  | factorial ht iht =>
    intro hn
    obtain ⟨hp, rfl | ht⟩ := iht hs hn
    · exact ⟨hp, .inr List.suffix_rfl⟩
    · exact ⟨hp, .inr (ht.trans (List.suffix_cons _ _))⟩
  | power he ihe => exact absurd rfl (ihe hs (by decide)).1
  | last ht _ iht => exact (iht hs (by decide)).2
  | more ht hu iht ihu => exact ((ihu hs).trans (List.suffix_cons _ _)).trans ht.suffix
  | bracketed | bare => trivial
  | _ => exact fun hn => absurd rfl hn

theorem Derives.arguments_leave {c : Pending} {s s' : List Lexeme} {t : Expr}
    (h : Derives v (.arguments c) s t s') {k : Lexeme} (hk : k ∈ s'.head?) {q : Precedence}
    (hq : k.continues? = some q) : ∃ w r, s = w ++ .mark .factorial :: .mark .power :: r ∧
      s' = .mark .power :: r := by
  obtain ⟨_, g, _, -, hg, -, -⟩ := h.reads true []
  have hnone {e : Extension} (he : Extension.ofLexeme? g k = some e) : False :=
    Nat.not_lt_zero _ (hg.2 k hk e he)
  obtain rfl : k = .mark .power := by
    obtain ⟨hp, -⟩ | ⟨rfl, -⟩ | ⟨m, link, rfl, hm, -⟩ := continues?_cases hq
    · exact hp
    · exact (hnone rfl).elim
    · exact (hnone (extension_of_link hm).1).elim
  obtain ⟨r, rfl⟩ := List.head?_eq_some_iff.1 hk
  obtain ⟨w, hw⟩ := h.leavesPower rfl
  exact ⟨w, r, hw.symm, rfl⟩

theorem Derives.exists_parts {c : Pending} {s s' : List Lexeme} {t : Expr}
    (h : Derives v (.arguments c) s t s') (hs : s'.head? ≠ some (.mark .define)) :
    ∃ parts : List (List Lexeme × Expr), parts ≠ [] ∧ s = commas (parts.map Prod.fst) ++ s' ∧
      (∀ q ∈ parts, Derives v (.level .relation) q.1 q.2 []) ∧
      t = (c.pushAll (parts.map Prod.snd)).tree := by
  generalize hc : Construct.arguments c = k at h
  induction h generalizing c with
  | @last c' s t s₁ ht hcomma iht =>
    cases hc
    obtain ⟨w, rfl⟩ := ht.suffix
    exact ⟨[(w, t)], List.cons_ne_nil _ _, by rw [List.map_singleton, commas_singleton],
      List.forall_mem_singleton.2 (ht.alone hs), c'.complete_eq t⟩
  | @more c' s t s₁ u s₂ ht hu iht ihu =>
    cases hc
    obtain ⟨parts, hne, rfl, hparts, rfl⟩ := ihu hs rfl
    obtain ⟨w, rfl⟩ := ht.suffix
    refine ⟨(w, t) :: parts, List.cons_ne_nil _ _, ?_,
      List.forall_mem_cons.2 ⟨ht.alone nofun, hparts⟩, ?_⟩
    · obtain ⟨q, parts, rfl⟩ := List.exists_cons_of_ne_nil hne
      simp only [List.map_cons, commas_cons_cons, List.append_assoc, List.cons_append]
    · rw [List.map_cons, Pending.pushAll_cons]
  | _ => cases hc

theorem IsBalanced.length_le {q w s s' : List Lexeme} (hq : IsBalanced q) (hw : IsBalanced w)
    (h : q ++ .mark .closing :: s = w ++ .mark .closing :: s') : w.length ≤ q.length := by
  refine Nat.le_of_not_lt fun hlt => ?_
  -- The closing bracket behind the shorter one would close nothing inside of the other.
  have htake : w.take (q.length + 1) = q ++ [.mark .closing] := by
    have hprefix := congrArg (List.take (q.length + 1)) h
    rw [List.take_append_of_le_length (by omega : q.length + 1 ≤ w.length)] at hprefix
    rw [← hprefix, List.take_append, List.take_of_length_le (by omega)]
    simp
  have hopened := hw.opened (q.length + 1)
  have hclosed := hq.closed
  have hne : Lexeme.mark .closing ≠ .mark .opening := by decide
  rw [htake, List.count_append, List.count_append, List.count_cons_self,
    List.count_cons_of_ne hne] at hopened
  simp only [List.count_nil] at hopened
  omega

theorem IsBalanced.append_closing_inj {q w s s' : List Lexeme} (hq : IsBalanced q)
    (hw : IsBalanced w) (h : q ++ .mark .closing :: s = w ++ .mark .closing :: s') :
    q = w ∧ s = s' := by
  have hlength := Nat.le_antisymm (hw.length_le hq h.symm) (hq.length_le hw h)
  obtain ⟨rfl, hrest⟩ := List.append_inj h hlength
  exact ⟨rfl, (List.cons.inj hrest).2⟩

end ComplexCalculator.Parse
