import ComplexCalculator.Proofs.Token.Seams
import ComplexCalculator.Proofs.Parse.Following
import ComplexCalculator.Proofs.Parse.RoundTrip

/-!
# Texts of texts

A text that is read to a tree is an operand when it stands in brackets: it has the same lexemes
there, whatever surrounds it, and the closing bracket ends all that the end of the text ends. So the
tree of a text that is put together from texts in brackets is put together from their trees.
-/
namespace ComplexCalculator
namespace Parse

variable {v : Vocabulary} {text other : String} {t u : Expr} {p : Precedence}

/-- The lexemes of the text are derived to the tree wherever the text stands, unless what follows
prolongs its last lexeme or continues the level. -/
def Composes (v : Vocabulary) (p : Precedence) (text : String) (t : Expr) : Prop :=
  ∃ ls, Spells text ls ∧ Builds v p ls t

theorem Composes.loosen {q : Precedence} (h : Composes v q text t) (hp : p.rank ≤ q.rank) :
    Composes v p text t := by
  obtain ⟨ls, hs, hb⟩ := h
  exact ⟨ls, hs, hb.loosen hp⟩

theorem Composes.parse (h : Composes v p text t) : parse v text = .ok t := by
  obtain ⟨ls, hs, hb⟩ := h
  have hd := hb.loosen (p := .relation) (Nat.zero_le _) [] (quiet_nil _)
  rw [List.append_nil] at hd
  exact parse_iff_derives.2 ⟨ls, hs.lexemes?, hd⟩

theorem opens_grouped (text : String) : Expr.Opens (grouped text) :=
  Expr.Opens.append (Expr.Opens.append ⟨'(', [], rfl, by decide⟩ _) _

theorem composes_grouped (h : parse v text = .ok t) : Composes v .number (grouped text) t := by
  obtain ⟨ls, hls, hd⟩ := parse_iff_derives.1 h
  exact ⟨_, spells_grouped hls, builds_group hd.before_closing⟩

theorem Composes.negate (h : Composes v .number text t) (ho : Expr.Opens text) :
    Composes v .number ("-" ++ text) (.negate t) := by
  obtain ⟨ls, hs, hb⟩ := h
  exact ⟨_, Expr.spells_negate hs ho, builds_negate hb⟩

theorem Composes.factorial (h : Composes v .power text t) :
    Composes v .factorial (text ++ "!") (.factorial t) := by
  obtain ⟨ls, hs, hb⟩ := h
  have hh : Heads v .factorial ls t := Builds.heads hb (by decide)
  exact ⟨_, Expr.spells_factorial hs, (heads_factorial hh).builds⟩

theorem Composes.binary (op : Operator) (h : Composes v .number text t)
    (h' : Composes v .number other u) :
    Composes v op.precedence (text ++ " " ++ op.symbol ++ " " ++ other) (.binary op t u) := by
  obtain ⟨ls, hs, hb⟩ := h
  obtain ⟨ls', hs', hb'⟩ := h'
  refine ⟨_, Expr.spells_binary op hs hs', ?_⟩
  cases hop : op.isRightAssociative with
  | true =>
    obtain rfl : op = .pow := by simpa [Operator.isRightAssociative] using hop
    exact builds_power hb (hb'.loosen (rank_le_number _))
  | false =>
    obtain ⟨-, -, hf⟩ := operator?_mark hop
    have hn := ne_number_of_le (Nat.le_of_lt hf)
    have hl := (hb.loosen (rank_le_number op.precedence.tighter)).heads hn
    exact (heads_chain hop hl (hb'.loosen (rank_le_number _))).builds

theorem Composes.define {name : String} (hn : IsName name)
    (hf : ∀ f, v.meaning name ≠ .function f) (h : Composes v .number text t) :
    Composes v .relation (name ++ " := " ++ text) (.define name t) := by
  obtain ⟨ls, hs, hb⟩ := h
  have hh := heads_define hf (hb.loosen (p := .addition) (by decide))
  exact ⟨_, Expr.spells_define hn hs, hh.builds⟩

theorem composes_call {name : String} {f : Function} (hn : IsName name)
    (hf : v.meaning name = .function f) {parts : List (String × Expr)} (hne : parts ≠ [])
    (h : ∀ q ∈ parts, Composes v .relation q.1 q.2) :
    Composes v .number (name ++ grouped (",".intercalate (parts.map Prod.fst)))
      (.call name (some f) (parts.map Prod.snd)) := by
  choose! lexemes hs hb using h
  have hspells : ∀ q ∈ parts.map fun q => (q.1, lexemes q), Spells q.1 q.2 :=
    List.forall_mem_map.2 hs
  have hbuilds : ∀ q ∈ parts.map fun q => (lexemes q, q.2), Builds v .relation q.1 q.2 :=
    List.forall_mem_map.2 hb
  have hall := spells_commas (s := ",") rfl (List.forall_mem_nil _) hspells
  have hargs := Derives.call_arguments (by simpa using hne) hbuilds ⟨name, f, none, []⟩
  simp only [List.map_map, Function.comp_def] at hall hargs
  refine ⟨_, ?_, builds_call hf hargs⟩
  intro cs rest hs' hc
  have hgroup := spells_grouped hall.lexemes? cs rest hs' hc
  simpa using spells_name hn _ _ (isSeam_grouped _ cs) hgroup

/-- Texts in brackets are put together as their trees are: by a sign, a factorial, an operator or a
definition, and as the arguments of a call. -/
theorem texts_compose (v : Vocabulary) :
    (∀ A a, parse v A = .ok a →
      parse v (grouped A) = .ok a ∧
      parse v ("-" ++ grouped A) = .ok (.negate a) ∧
      parse v (grouped A ++ "!") = .ok (.factorial a) ∧
      (∀ op : Operator, ∀ B b, parse v B = .ok b →
        parse v (grouped A ++ " " ++ op.symbol ++ " " ++ grouped B) = .ok (.binary op a b)) ∧
      ∀ x, IsName x → (∀ f, v.meaning x ≠ .function f) →
        parse v (x ++ " := " ++ grouped A) = .ok (.define x a)) ∧
    ∀ name f, IsName name → v.meaning name = .function f →
      ∀ parts : List (String × Expr), parts ≠ [] → (∀ q ∈ parts, parse v q.1 = .ok q.2) →
        parse v (name ++ grouped (",".intercalate (parts.map fun q => grouped q.1))) =
          .ok (.call name (some f) (parts.map Prod.snd)) := by
  refine ⟨fun A a hA => ?_, fun name f hn hf parts hne hparts => ?_⟩
  · have ha := composes_grouped hA
    refine ⟨ha.parse, (ha.negate (opens_grouped A)).parse, ?_, fun op B b hB => ?_,
      fun x hx hf => (ha.define hx hf).parse⟩
    · exact (ha.loosen (rank_le_number _)).factorial.parse
    · exact (ha.binary op (composes_grouped hB)).parse
  · have hgroups : ∀ q ∈ parts.map fun q => (grouped q.1, q.2), Composes v .relation q.1 q.2 :=
      List.forall_mem_map.2 fun q hq => (composes_grouped (hparts q hq)).loosen (Nat.zero_le _)
    have hcall := composes_call hn hf (by simpa using hne) hgroups
    simpa [Function.comp_def] using hcall.parse

theorem texts_compose_greedy_call :
    let f := Function.custom 0 ["x", "y"] (.symbol "x")
    let v : Vocabulary := ⟨fun name => if name = "f" then .function f else .unknown, false⟩
    let t := Expr.call "f" (some f) [.symbol "x", .symbol "y"]
    parse v "f x, y" = .ok t ∧ parse v "(f x, y) ^ (f x, y)" = .ok (.binary .pow t t) := by
  intro f v t
  have hs : Stream.ofString "f x, y" =
      .token ⟨.name "f", 0⟩ (.token ⟨.name "x", 2⟩ (.token ⟨.mark .comma, 3⟩
        (.token ⟨.name "y", 5⟩ (.ending 6)))) := by
    decide +kernel
  have ht : parse v "f x, y" = .ok t := by
    simp only [parse, hs]
    rfl
  exact ⟨ht, ((texts_compose v).1 _ _ ht).2.2.2.1 .pow _ _ ht⟩

end Parse
end ComplexCalculator
