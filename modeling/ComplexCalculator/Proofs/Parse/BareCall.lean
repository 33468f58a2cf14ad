import ComplexCalculator.Proofs.Parse.Composition
import ComplexCalculator.Proofs.Parse.Primary

/-!
# Calls without brackets

A call without brackets reads its arguments as it would between brackets, so the same text in
brackets gives the same call. It takes all that follows unless a `^` stands behind a factorial: that
raises the call, and the arguments end in front of it.
-/
namespace ComplexCalculator.Parse
open Text

variable {v : Vocabulary} {name : String} {f : Function} {ls : List Lexeme} {t u : Expr}

/-- The exponent of a call as it is written: a run of digits or a text in brackets. -/
inductive IsExponent : String → Prop
  | digits {P : String} (hn : P.toList ≠ []) (hd : ∀ c ∈ P.toList, c.isDigit = true) : IsExponent P
  | grouped {Q : String} {q} (hq : lexemes? Q.toList = some q) (hb : IsBalanced q) :
      IsExponent (grouped Q)

inductive SpelledExponent : List Lexeme → Prop
  | number {x} : SpelledExponent [.number x]
  | group {q} (hb : IsBalanced q) : SpelledExponent (bracketed true q)

theorem IsExponent.lexemes? {P : String} (h : IsExponent P) :
    ∃ ps, ComplexCalculator.lexemes? P.toList = some ps ∧ SpelledExponent ps := by
  cases h with
  | digits hn hd =>
    have hs : ComplexCalculator.lexemes? (P.toList ++ []) = _ := lexemes?_digits hn hd nofun
    rw [List.append_nil, lexemes?_nil, Option.map_some] at hs
    exact ⟨_, hs, .number⟩
  | grouped hq hb => exact ⟨_, (spells_grouped hq).lexemes?, .group hb⟩

theorem SpelledExponent.derives {ps s s₁ : List Lexeme} {e : Expr} (h : SpelledExponent ps)
    (hd : Derives v (.level .number) (ps ++ s) e s₁) :
    s = s₁ ∧ ∀ s', Derives v (.level .number) (ps ++ s') e s' := by
  cases h with
  | number =>
    cases hd with
    | level hp => exact absurd rfl hp
    | number => exact ⟨rfl, fun s' => .number⟩
  | @group q hb =>
    have hs (s' : List Lexeme) : bracketed true q ++ s' =
        .mark .opening :: (q ++ .mark .closing :: s') := by simp [bracketed]
    rw [hs] at hd
    cases hd with
    | level hp => exact absurd rfl hp
    | group ht =>
      obtain ⟨w, hw, hbalanced⟩ := ht.balanced
      obtain ⟨rfl, rfl⟩ := hb.append_closing_inj hbalanced hw
      refine ⟨rfl, fun s' => ?_⟩
      rw [hs]
      exact .group (ht.before (by simp) (ends_closing s'))

/-- The lexemes begin the call: what its arguments are read to is a primary with them in front. -/
def Begins (v : Vocabulary) (ps : List Lexeme) (c : Pending) : Prop :=
  ∀ s u s₁, s.head? ≠ some (.mark .power) → Derives v (.application c) s u s₁ →
    Derives v (.level .number) (ps ++ s) u s₁

theorem Derives.arguments_of_bare {c : Pending} {s s' : List Lexeme}
    (h : Derives v (.application c) s t s') (ho : s.head? ≠ some (.mark .opening)) :
    Derives v (.arguments c) s t s' := by
  cases h with
  | bracketed => exact absurd rfl ho
  | bare _ ht => exact ht

theorem Derives.called {s s' : List Lexeme} (h : Derives v (.level .number) (.name name :: s) t s')
    (hf : v.meaning name = .function f) (hs : s.head? ≠ some (.mark .power)) :
    Derives v (.application ⟨name, f, none, []⟩) s t s' := by
  cases h with
  | level hp => exact absurd rfl hp
  | symbol hn =>
    rw [Vocabulary.Admits, hf] at hn
    exact hn.elim
  | call hf' _ ht =>
    cases hf.symm.trans hf'
    exact ht
  | raised => exact absurd rfl hs

theorem Derives.raised_call {ps s s' : List Lexeme}
    (h : Derives v (.level .number) (.name name :: .mark .power :: (ps ++ s)) t s')
    (hf : v.meaning name = .function f) (hps : SpelledExponent ps) :
    ∃ e, (∀ s₁, Derives v (.level .number) (ps ++ s₁) e s₁) ∧
      Derives v (.application ⟨name, f, some e, []⟩) s t s' := by
  cases h with
  | level hp => exact absurd rfl hp
  | symbol hn =>
    rw [Vocabulary.Admits, hf] at hn
    exact hn.elim
  | call _ hs _ => exact absurd rfl hs
  | raised hf' he ht =>
    cases hf.symm.trans hf'
    obtain ⟨rfl, hunit⟩ := hps.derives he
    exact ⟨_, hunit, ht⟩

theorem Begins.enclose {ps s s' : List Lexeme} {c : Pending} (h : Begins v ps c)
    (ha : Derives v (.arguments c) (ls ++ s) u s) (hs : s.head? ≠ some (.mark .define)) :
    Derives v (.level .number) (ps ++ bracketed true ls ++ s') u s' := by
  have hd := h (.mark .opening :: (ls ++ .mark .closing :: s')) u s' (by simp)
    (.bracketed (ha.before hs (ends_closing s')))
  simpa [bracketed] using hd

theorem begins_name (hf : v.meaning name = .function f) :
    Begins v [.name name] ⟨name, f, none, []⟩ :=
  fun _ _ _ hs ht => .call hf hs ht

theorem begins_power {ps : List Lexeme} {e : Expr} (hf : v.meaning name = .function f)
    (he : ∀ s, Derives v (.level .number) (ps ++ s) e s) :
    Begins v (.name name :: .mark .power :: ps) ⟨name, f, some e, []⟩ :=
  fun s _ _ _ ht => .raised hf (he s) ht

structure Calls (v : Vocabulary) (ps : List Lexeme) (c : Pending) (ls : List Lexeme) (t : Expr) :
    Prop where
  arguments : Derives v (.arguments c) ls t []
  enclosed : Derives v (.level .relation) (ps ++ bracketed true ls) t []

theorem Begins.calls {ps s : List Lexeme} {c : Pending} (h : Begins v ps c)
    (ha : Derives v (.arguments c) (ls ++ s) u s) (hs : s.head? ≠ some (.mark .define)) :
    Calls v ps c ls u := by
  have henclosed : Derives v (.level .number) (ps ++ bracketed true ls ++ []) u [] :=
    h.enclose ha hs
  rw [List.append_nil] at henclosed
  exact ⟨ha.alone hs, henclosed.loosen (Nat.zero_le _) (quiet_nil _)⟩

theorem Begins.rest {ps s₁ : List Lexeme} {c : Pending} (h : Begins v ps c)
    (ha : Derives v (.arguments c) ls u s₁)
    (hput : ∀ s₀, Derives v (.level .number) s₀ u s₁ → Derives v (.level .relation) s₀ t [])
    (hs : s₁ = [] ∧ u = t ∨ ∃ k ∈ s₁.head?, ∃ q, k.continues? = some q) :
    Calls v ps c ls t ∨
      ∃ w r, ls = w ++ .mark .factorial :: .mark .power :: r ∧
        Calls v ps c (w ++ [.mark .factorial]) u ∧
        Derives v (.level .relation)
          (ps ++ bracketed true (w ++ [.mark .factorial]) ++ .mark .power :: r)
          t [] := by
  rcases hs with ⟨rfl, rfl⟩ | ⟨k, hk, q, hq⟩
  · rw [← List.append_nil ls] at ha
    exact .inl (h.calls ha nofun)
  · obtain ⟨w, r, rfl, rfl⟩ := ha.arguments_leave hk hq
    rw [List.append_cons] at ha
    exact .inr ⟨w, r, rfl, h.calls ha nofun, hput _ (h.enclose ha nofun)⟩

def calleeText (name : String) : Option String → String
  | none => name
  | some P => name ++ "^" ++ P

/-- The tree is the call of the function with the texts between the commas as its arguments, raised
to the exponent if there is one. -/
def IsCallOf (v : Vocabulary) (name : String) (f : Function) (P : Option String) (T : String)
    (t : Expr) : Prop :=
  ∃ e, ∃ parts : List (String × Expr), Option.Rel (fun P e => parse v P = .ok e) P e ∧
    parts ≠ [] ∧ T = ",".intercalate (parts.map Prod.fst) ∧ (∀ q ∈ parts, parse v q.1 = .ok q.2) ∧
    t = raised (.call name (some f) (parts.map Prod.snd)) e

theorem exists_texts {cs : List Char} {parts : List (List Lexeme × Expr)} (hn : parts ≠ [])
    (hcs : lexemes? cs = some (commas (parts.map Prod.fst)))
    (h : ∀ q ∈ parts, Derives v (.level .relation) q.1 q.2 []) :
    ∃ texts : List (String × Expr), cs = (",".intercalate (texts.map Prod.fst)).toList ∧
      texts.map Prod.snd = parts.map Prod.snd ∧ ∀ q ∈ texts, parse v q.1 = .ok q.2 := by
  have hparse {us : List Char} {ls : List Lexeme} {t : Expr} (hus : lexemes? us = some ls)
      (ht : Derives v (.level .relation) ls t []) : parse v (String.ofList us) = .ok t :=
    parse_iff_derives.2 ⟨ls, by rw [ofString_lexemes?, String.toList_ofList, hus], ht⟩
  induction parts generalizing cs with
  | nil => exact absurd rfl hn
  | cons q parts ih =>
    obtain ⟨hq, hparts⟩ := List.forall_mem_cons.1 h
    cases parts with
    | nil =>
      rw [List.map_singleton, commas_singleton] at hcs
      refine ⟨[(String.ofList cs, q.2)], ?_, rfl, List.forall_mem_singleton.2 (hparse hcs hq)⟩
      rw [List.map_singleton, String.intercalate_singleton, String.toList_ofList]
    | cons q' parts =>
      rw [List.map_cons, List.map_cons, commas_cons_cons] at hcs
      obtain ⟨us, vs, rfl, hus, hvs⟩ := lexemes?_split hcs
      obtain ⟨texts, rfl, hsnd, htexts⟩ := ih (List.cons_ne_nil _ _) hvs hparts
      refine ⟨(String.ofList us, q.2) :: texts, ?_, by rw [List.map_cons, List.map_cons, hsnd],
        List.forall_mem_cons.2 ⟨hparse hus hq, htexts⟩⟩
      obtain ⟨q'', texts, rfl⟩ : ∃ q'' texts', texts = q'' :: texts' := by
        cases texts with
        | nil => cases hsnd
        | cons q'' texts => exact ⟨_, _, rfl⟩
      simp [String.intercalate_cons_cons, Mark.spelling]

theorem isCallOf_of_arguments {P : Option String} {T : String} {e : Option Expr}
    (hP : Option.Rel (fun P e => parse v P = .ok e) P e) (hT : lexemes? T.toList = some ls)
    (h : Derives v (.arguments ⟨name, f, e, []⟩) ls t []) : IsCallOf v name f P T t := by
  obtain ⟨parts, hne, hls, hparts, rfl⟩ := h.exists_parts nofun
  rw [List.append_nil] at hls
  obtain ⟨texts, htexts, hsnd, hparse⟩ := exists_texts hne (hls ▸ hT) hparts
  refine ⟨e, texts, hP, ?_, String.toList_inj.1 htexts, hparse, ?_⟩
  · rintro rfl
    exact hne (List.map_eq_nil_iff.1 hsnd.symm)
  · rw [hsnd]
    rfl

theorem exists_call {P : Option String} (hn : IsName name) (hf : v.meaning name = .function f)
    (hP : ∀ P' ∈ P, IsExponent P') :
    ∃ ps, lexemes? (calleeText name P).toList = some ps ∧
      ∀ ls u s₁, ls.head? ≠ some (.mark .opening) → ls.head? ≠ some (.mark .power) →
        Derives v (.level .number) (ps ++ ls) u s₁ →
        ∃ e, Option.Rel (fun P e => parse v P = .ok e) P e ∧ Begins v ps ⟨name, f, e, []⟩ ∧
          Derives v (.arguments ⟨name, f, e, []⟩) ls u s₁ := by
  cases P with
  | none =>
    refine ⟨_, (spells_name hn).lexemes?, fun ls u s₁ ho hp h => ?_⟩
    exact ⟨none, .none, begins_name hf, (h.called hf hp).arguments_of_bare ho⟩
  | some P =>
    obtain ⟨ps, hps, hunit⟩ := (hP P rfl).lexemes?
    refine ⟨.name name :: .mark .power :: ps, ?_, fun ls u s₁ ho hp h => ?_⟩
    · have hpower : lexemes? ('^' :: P.toList) = some (.mark .power :: ps) :=
        lexemes?_cons_mark (m := .power) rfl hps
      simpa [calleeText] using spells_name hn _ _ (isSeam_cons (by decide) _) hpower
    · obtain ⟨e, he, ha⟩ := h.raised_call hf hunit
      have hd := (he []).loosen (p := .relation) (Nat.zero_le _) (quiet_nil _)
      rw [List.append_nil] at hd
      exact ⟨some e, .some (parse_iff_derives.2 ⟨ps, hps, hd⟩), begins_power hf he,
        ha.arguments_of_bare ho⟩

theorem Calls.parse_grouped {head T : String} {ps : List Lexeme} {c : Pending}
    (h : Calls v ps c ls t) (hps : lexemes? head.toList = some ps)
    (hT : lexemes? T.toList = some ls) : parse v (head ++ grouped T) = .ok t := by
  have hs := lexemes?_append_grouped hps hT isSeam_nil lexemes?_nil
  rw [List.append_nil, List.append_nil, ← String.toList_append] at hs
  exact parse_iff_derives.2 ⟨_, hs, h.enclosed⟩

theorem head?_dropWhile_of_mark {cs : List Char} {m : Mark}
    (h : lexemes? cs = some (.mark m :: ls)) :
    (cs.dropWhile isBlank).head? = m.spelling.toList.head? := by
  have hnil : lexemes? cs = some ([] ++ .mark m :: ls) := h
  obtain ⟨us, vs, rfl, hus, -⟩ := lexemes?_split hnil
  rw [List.dropWhile_append_of_pos (isBlank_of_lexemes?_nil hus)]
  cases m <;> rfl

theorem lexemes?_append_blank {head : String} {ps : List Lexeme}
    (hps : lexemes? head.toList = some ps) (T : String) :
    lexemes? (head ++ " " ++ T).toList = (lexemes? T.toList).map (ps ++ ·) := by
  have hs := lexemes?_append (d := ' ') hps (by decide) T.toList
  rw [lexemes?_blank rfl] at hs
  simpa using hs

/-- Behind a factorial a power is one of the call, and in brackets there is no call. -/
theorem parse_power_behind_factorial (f : Function) :
    let v : Vocabulary := ⟨fun name => if name = "f" then .function f else .unknown, false⟩
    parse v "f x!^2" = .ok (.binary .pow (.call "f" (some f) [.factorial (.symbol "x")])
        (.number (.ofReal (Binary64.ofNat 2)))) ∧
      parse v "f(x!^2)" = .error (.token (.mark .power) 4) := by
  intro v
  have hs : Stream.ofString "f x!^2" =
      .token ⟨.name "f", 0⟩ (.token ⟨.name "x", 2⟩ (.token ⟨.mark .factorial, 3⟩
        (.token ⟨.mark .power, 4⟩ (.token ⟨.number (Binary64.ofNat 2), 5⟩ (.ending 6))))) := by
    decide +kernel
  have hs' : Stream.ofString "f(x!^2)" =
      .token ⟨.name "f", 0⟩ (.token ⟨.mark .opening, 1⟩ (.token ⟨.name "x", 2⟩
        (.token ⟨.mark .factorial, 3⟩ (.token ⟨.mark .power, 4⟩
          (.token ⟨.number (Binary64.ofNat 2), 5⟩ (.token ⟨.mark .closing, 6⟩ (.ending 7))))))) := by
    decide +kernel
  constructor
  · simp only [parse, hs]
    rfl
  · simp only [parse, hs']
    rfl

/-- A call without brackets, before a text that begins neither with a bracket nor with a power, is
the call of the same text in brackets, unless a power stands in the text behind a factorial: then it
is the call of what comes before the power, and the power is one of the call. -/
theorem bare_call_takes_rest (v : Vocabulary) {name : String} {f : Function} (hn : IsName name)
    (hf : v.meaning name = .function f) {P : Option String} (hP : ∀ P' ∈ P, IsExponent P')
    {T : String} (hT : ∀ c ∈ (T.toList.dropWhile isBlank).head?, c ≠ '(' ∧ c ≠ '^') {t : Expr}
    (h : parse v (calleeText name P ++ " " ++ T) = .ok t) :
    parse v (calleeText name P ++ grouped T) = .ok t ∧ IsCallOf v name f P T t ∨
      ∃ U R u, T = U ++ "^" ++ R ∧ (∃ W B, U = W ++ "!" ++ B ∧ ∀ c ∈ B.toList, isBlank c = true) ∧
        parse v (calleeText name P ++ grouped U) = .ok u ∧ IsCallOf v name f P U u ∧
        parse v (calleeText name P ++ grouped U ++ "^" ++ R) = .ok t := by
  obtain ⟨ps, hps, hcall⟩ := exists_call hn hf hP
  obtain ⟨_, hlexemes, hd⟩ := parse_iff_derives.1 h
  rw [ofString_lexemes?, lexemes?_append_blank hps] at hlexemes
  obtain ⟨ls, hls, rfl⟩ := Option.map_eq_some_iff.1 hlexemes
  have hfront {m : Mark} (hm : ls.head? = some (.mark m)) :
      ∀ c ∈ m.spelling.toList.head?, c ≠ '(' ∧ c ≠ '^' := by
    obtain ⟨r, rfl⟩ := List.head?_eq_some_iff.1 hm
    rwa [← head?_dropWhile_of_mark hls]
  obtain ⟨u, s₁, hu, hput, hs⟩ := hd.exists_primary
  obtain ⟨e, he, hbegins, ha⟩ := hcall ls u s₁ (fun hm => (hfront hm '(' rfl).1 rfl)
    (fun hm => (hfront hm '^' rfl).2 rfl) hu
  rcases hbegins.rest ha hput hs with hcalls | ⟨w, r, rfl, hcalls, hpower⟩
  · exact .inl ⟨hcalls.parse_grouped hps hls, isCallOf_of_arguments he hls hcalls.arguments⟩
  · rw [List.append_cons] at hls
    obtain ⟨us, vs, hus, hlexed, hvs⟩ := lexemes?_split hls
    obtain ⟨ws, bs, rfl, -, hbs⟩ := lexemes?_split hlexed
    have hU : lexemes? (String.ofList (ws ++ (Mark.factorial.spelling.toList ++ bs))).toList =
        some (w ++ [.mark .factorial]) := by rw [String.toList_ofList, hlexed]
    have hR : lexemes? ('^' :: vs) = some (.mark .power :: r) :=
      lexemes?_cons_mark (m := .power) rfl hvs
    have hpowered := lexemes?_append_grouped hps hU (isSeam_cons (by decide) vs) hR
    refine .inr ⟨_, String.ofList vs, u, ?_, ⟨String.ofList ws, String.ofList bs, ?_, ?_⟩,
      hcalls.parse_grouped hps hU, isCallOf_of_arguments he hU hcalls.arguments,
      parse_iff_derives.2 ⟨_, ?_, hpower⟩⟩
    · exact String.toList_inj.1 (by simp [hus, Mark.spelling])
    · exact String.toList_inj.1 (by simp [Mark.spelling])
    · rw [String.toList_ofList]
      exact isBlank_of_lexemes?_nil hbs
    · simpa [ofString_lexemes?] using hpowered

theorem bare_call_takes_rest_raised :
    let f := Function.custom 0 ["x", "y"] (.symbol "x")
    let v : Vocabulary := ⟨fun name => if name = "f" then .function f else .unknown, false⟩
    let t := Expr.binary .pow (.call "f" (some f) [.symbol "x", .factorial (.symbol "y")])
      (.number (.ofReal (Binary64.ofNat 2)))
    let u := Expr.binary .pow (.call "f" (some f) [.factorial (.symbol "x")])
      (.number (.ofReal (Binary64.ofNat 2)))
    (parse v "f^2 x, y!" = .ok t ∧ parse v "f^2(x, y!)" = .ok t ∧
      IsCallOf v "f" f (some "2") "x, y!" t) ∧
    parse v "f x!^2" = .ok u ∧ ∃ w, parse v "f(x!)" = .ok w ∧ IsCallOf v "f" f none "x!" w ∧
      parse v "f(x!)^2" = .ok u := by
  intro f v t u
  have hs : Stream.ofString "f^2 x, y!" =
      .token ⟨.name "f", 0⟩ (.token ⟨.mark .power, 1⟩ (.token ⟨.number (Binary64.ofNat 2), 2⟩
        (.token ⟨.name "x", 4⟩ (.token ⟨.mark .comma, 5⟩ (.token ⟨.name "y", 7⟩
          (.token ⟨.mark .factorial, 8⟩ (.ending 9))))))) := by
    decide +kernel
  have ht : parse v "f^2 x, y!" = .ok t := by
    simp only [parse, hs]
    rfl
  have hP : ∀ P' ∈ some "2", IsExponent P' := by
    rintro _ ⟨⟩
    exact .digits (by simp) (by simp)
  have hn : IsName "f" := isName_of_all (by decide) (by decide)
  obtain ⟨hu, herror⟩ := parse_power_behind_factorial f
  refine ⟨⟨ht, ?_⟩, hu, ?_⟩
  · rcases bare_call_takes_rest v hn rfl hP (T := "x, y!") (by simp [isBlank]) ht with
      hrest | ⟨U, R, w, hT, -⟩
    · exact hrest
    · have hpower : '^' ∈ "x, y!".toList := by
        rw [hT]
        simp
      exact absurd hpower (by decide)
  · rcases bare_call_takes_rest v hn rfl (P := none) (by simp) (T := "x!^2")
        (by simp [isBlank]) hu with
      ⟨hgrouped, -⟩ | ⟨U, R, w, hT, -, hrest⟩
    · cases herror.symm.trans hgrouped
    · have hlist : ['x', '!'] ++ '^' :: ['2'] = U.toList ++ '^' :: R.toList := by
        simpa using congrArg String.toList hT
      obtain ⟨hU, -, hR⟩ :=
        (List.append_cons_inj_of_notMem (by decide) (by decide)).1 hlist
      obtain rfl : U = "x!" := String.toList_inj.1 hU.symm
      obtain rfl : R = "2" := String.toList_inj.1 hR.symm
      exact ⟨w, hrest⟩

theorem bare_call_leaves_power :
    let f := Function.custom 0 ["x"] (.symbol "x")
    let v : Vocabulary := ⟨fun name => if name = "f" then .function f else .unknown, false⟩
    v.meaning "f" = .function f ∧ (∀ c ∈ ("x!^2".toList.dropWhile isBlank).head?, c ≠ '(' ∧ c ≠ '^') ∧
      parse v "f x!^2" = .ok (.binary .pow (.call "f" (some f) [.factorial (.symbol "x")])
        (.number (.ofReal (Binary64.ofNat 2)))) ∧
      parse v "f(x!^2)" = .error (.token (.mark .power) 4) := by
  intro f v
  exact ⟨rfl, by simp [isBlank], parse_power_behind_factorial f⟩

end ComplexCalculator.Parse
