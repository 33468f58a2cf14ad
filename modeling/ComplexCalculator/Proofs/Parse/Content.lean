import ComplexCalculator.Proofs.Expr.Spelling
import ComplexCalculator.Proofs.Expr.Names
import ComplexCalculator.Proofs.Parse.Derivation

/-!
# What a text says

Brackets and commas only arrange what the other lexemes of a text say. A tree says one lexeme for
each of its nodes: numbers, names and operators. Reading loses none of them, doubles none and adds
none: what a construct has taken so far and what is ahead of it is what its tree says and what is
left. In particular the names of a text are names in its tree.
-/
namespace ComplexCalculator

def Lexeme.isContent : Lexeme → Bool
  | .mark .opening | .mark .closing | .mark .comma | .ending => false
  | _ => true

namespace Expr

mutual
def content : Expr → List Lexeme
  | .number z => [.number z.re]
  | .symbol name => [.name name]
  | .negate t => .mark .minus :: t.content
  | .factorial t => .mark .factorial :: t.content
  | .binary op l r => .mark op.mark :: (l.content ++ r.content)
  | .define name t => .mark .define :: .name name :: t.content
  | .call name _ ts => .name name :: contentAll ts

def contentAll : List Expr → List Lexeme
  | [] => []
  | t :: ts => t.content ++ contentAll ts
end

theorem contentAll_append (ts us : List Expr) :
    contentAll (ts ++ us) = contentAll ts ++ contentAll us := by
  induction ts with
  | nil => rfl
  | cons t ts ih => simp only [List.cons_append, contentAll, ih, List.append_assoc]

theorem mem_free_call {name other : String} {callee : Option Function} {ts : List Expr}
    (h : name ∈ freeAll ts) : name ∈ (call other callee ts).free := by
  cases callee <;> exact List.mem_append_right _ h

mutual
theorem name_mem_content {name : String} :
    ∀ {t : Expr}, .name name ∈ t.content → name ∈ t.free ∨ name ∈ t.called
  | .number z, h => by simp [content] at h
  | .symbol other, h => .inl (by simpa [content, free] using h)
  | .negate t, h => by
    have ht := name_mem_content (t := t) (by simpa [content] using h)
    simpa [free, called, calls] using ht
  | .factorial t, h => by
    have ht := name_mem_content (t := t) (by simpa [content] using h)
    simpa [free, called, calls] using ht
  | .binary op l r, h => by
    have h' : .name name ∈ l.content ∨ .name name ∈ r.content := by simpa [content] using h
    simp only [free, called, calls, List.map_append, List.mem_append]
    rcases h' with h' | h'
    · exact (name_mem_content h').imp .inl .inl
    · exact (name_mem_content h').imp .inr .inr
  | .define other t, h => by
    have h' : name = other ∨ .name name ∈ t.content := by simpa [content] using h
    simp only [free, called, calls, List.mem_cons]
    rcases h' with h' | h'
    · exact .inl (.inl h')
    · exact (name_mem_content h').imp .inr id
  | .call other callee ts, h => by
    have h' : name = other ∨ .name name ∈ contentAll ts := by simpa [content] using h
    rw [called, calls, List.map_cons, List.mem_cons]
    rcases h' with h' | h'
    · exact .inr (.inl h')
    · exact (name_mem_contentAll h').imp mem_free_call .inr

theorem name_mem_contentAll {name : String} :
    ∀ {ts : List Expr}, .name name ∈ contentAll ts →
      name ∈ freeAll ts ∨ name ∈ (callsAll ts).map Prod.fst
  | [], h => by simp [contentAll] at h
  | t :: ts, h => by
    simp only [freeAll, callsAll, List.map_append, List.mem_append]
    rcases List.mem_append.1 h with h | h
    · exact (name_mem_content h).imp .inl .inl
    · exact (name_mem_contentAll h).imp .inr .inr
end

end Expr

namespace Parse

def Pending.content (c : Pending) : List Lexeme :=
  .name c.name :: ((c.exponent.map (.mark .power :: ·.content)).getD [] ++
    Expr.contentAll c.arguments)

def Construct.content : Construct → List Lexeme
  | .level _ => []
  | .after _ l => l.content
  | .application c | .arguments c => c.content

variable {v : Vocabulary} {x : Lexeme}

theorem Pending.count_push (c : Pending) (t : Expr) :
    (c.push t).content.count x = c.content.count x + t.content.count x := by
  simp only [Pending.content, Pending.push, Expr.contentAll_append, Expr.contentAll,
    List.count_cons, List.count_append, List.append_nil]
  omega

theorem Pending.count_complete (c : Pending) (t : Expr) :
    (c.complete t).content.count x = c.content.count x + t.content.count x := by
  cases he : c.exponent <;>
    simp only [Pending.complete, Pending.content, he, Option.map_none, Option.map_some,
      Option.getD_none, Option.getD_some, Expr.content, Expr.contentAll_append, Expr.contentAll,
      List.count_cons, List.count_append, List.append_nil, List.nil_append, Operator.mark] <;>
    omega

theorem count_cons_of_not_isContent {l : Lexeme} (hl : l.isContent = false)
    (hx : x.isContent = true) (s : List Lexeme) : (l :: s).count x = s.count x := by
  refine List.count_cons_of_ne fun h => ?_
  cases hl.symm.trans (h ▸ hx)

theorem mark_of_operator? {m : Mark} {op : Operator} (h : m.operator? = some op) : op.mark = m := by
  cases m <;> simp [Mark.operator?] at h <;> subst h <;> rfl

/-- Nothing that a text says is lost or added on the way into the tree. -/
theorem Derives.count {c : Construct} {s s' : List Lexeme} {t : Expr} (h : Derives v c s t s')
    (hx : x.isContent = true) :
    c.content.count x + s.count x = t.content.count x + s'.count x := by
  have hopening := count_cons_of_not_isContent (x := x) (l := .mark .opening) rfl hx
  have hclosing := count_cons_of_not_isContent (x := x) (l := .mark .closing) rfl hx
  have hcomma := count_cons_of_not_isContent (x := x) (l := .mark .comma) rfl hx
  induction h with
  | level hp hl ht ihl iht =>
    simp only [Construct.content, List.count_nil] at ihl iht ⊢
    omega
  | stop hs => rfl
  | operation hm hp hr ht ihr iht =>
    simp only [Construct.content, Expr.content, mark_of_operator? hm, List.count_nil,
      List.count_cons, List.count_append] at ihr iht ⊢
    omega
  | definition hr ht ihr iht =>
    simp only [Construct.content, Expr.content, List.count_nil, List.count_cons] at ihr iht ⊢
    omega
  | factorial ht iht =>
    simp only [Construct.content, Expr.content, List.count_cons] at iht ⊢
    omega
  | power he ihe =>
    simp only [Construct.content, Expr.content, Operator.mark, List.count_nil, List.count_cons,
      List.count_append] at ihe ⊢
    omega
  | number =>
    simp only [Construct.content, Expr.content, Number.ofReal, List.count_nil, List.count_cons]
    omega
  | symbol hn =>
    simp only [Construct.content, Expr.content, List.count_nil, List.count_cons]
    omega
  | negate ht iht =>
    simp only [Construct.content, Expr.content, List.count_nil, List.count_cons] at iht ⊢
    omega
  | group ht iht =>
    simp only [Construct.content, hopening, hclosing] at iht ⊢
    exact iht
  | call hf hs ht iht =>
    simp only [Construct.content, Pending.content, Expr.contentAll, Option.map_none,
      Option.getD_none, List.append_nil, List.count_nil, List.count_cons] at iht ⊢
    omega
  | raised hf he ht ihe iht =>
    simp only [Construct.content, Pending.content, Expr.contentAll, Option.map_some,
      Option.getD_some, List.append_nil, List.count_nil, List.count_cons] at ihe iht ⊢
    omega
  | bracketed ht iht =>
    simp only [Construct.content, hopening, hclosing] at iht ⊢
    exact iht
  | bare hs ht iht => exact iht
  | last ht hs iht =>
    simp only [Construct.content, Pending.count_complete, List.count_nil] at iht ⊢
    omega
  | more ht hu iht ihu =>
    simp only [Construct.content, Pending.count_push, List.count_nil, hcomma] at iht ihu ⊢
    omega

theorem name_mem_of_parse {text : String} {t : Expr} (h : parse v text = .ok t) {name : String}
    {k : Token} (hk : k ∈ (Stream.ofString text).tokens) (hn : k.lexeme = .name name) :
    name ∈ t.free ∨ name ∈ t.called := by
  obtain ⟨ls, hls, hd⟩ := parse_iff_derives.1 h
  have hmem : .name name ∈ ls := by
    have hlexeme := List.mem_map_of_mem (f := Token.lexeme) hk
    rw [Stream.map_lexeme_tokens hls, hn] at hlexeme
    simpa using hlexeme
  have hcount := hd.count (x := .name name) rfl
  simp only [Construct.content, List.count_nil] at hcount
  refine Expr.name_mem_content (List.count_pos_iff.1 ?_)
  have := List.count_pos_iff.2 hmem
  omega

end Parse
end ComplexCalculator
