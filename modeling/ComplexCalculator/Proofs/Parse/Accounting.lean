import ComplexCalculator.Proofs.Parse.RoundTrip
import ComplexCalculator.Proofs.Parse.Content

/-!
# Accounting for a text

What a text says is what its tree says, each lexeme as often here as there. What a text has besides
are the brackets and commas, and its end. So the nodes of the tree and the brackets and commas are
together as many as the lexemes of the text. The brackets are balanced, since every construct of the
grammar closes the brackets that it opens and no others.
-/
namespace ComplexCalculator

def Lexeme.isPunctuation : Lexeme → Bool
  | .mark .opening | .mark .closing | .mark .comma => true
  | _ => false

theorem Lexeme.countP_ne_ending (s : List Lexeme) :
    s.countP isContent + s.countP isPunctuation = s.countP (· ≠ .ending) := by
  induction s with
  | nil => rfl
  | cons l s ih =>
    have hl : (if l.isContent then 1 else 0) + (if l.isPunctuation then 1 else 0) =
        if l ≠ .ending then 1 else 0 := by
      cases l with
      | mark m => cases m <;> rfl
      | _ => rfl
    simp only [List.countP_cons, decide_eq_true_eq]
    omega

namespace Expr

mutual
/-- How many nodes a tree has; the target of a definition is a node of its own. -/
def nodes : Expr → Nat
  | .number _ => 1
  | .symbol _ => 1
  | .negate t => t.nodes + 1
  | .factorial t => t.nodes + 1
  | .binary _ l r => l.nodes + r.nodes + 1
  | .define _ t => t.nodes + 2
  | .call _ _ ts => nodesAll ts + 1

def nodesAll : List Expr → Nat
  | [] => 0
  | t :: ts => t.nodes + nodesAll ts
end

mutual
theorem length_content : ∀ t : Expr, t.content.length = t.nodes
  | .number z => rfl
  | .symbol name => rfl
  | .negate t => by rw [content, nodes, List.length_cons, length_content t]
  | .factorial t => by rw [content, nodes, List.length_cons, length_content t]
  | .binary op l r => by
    rw [content, nodes, List.length_cons, List.length_append, length_content l, length_content r]
  | .define name t => by rw [content, nodes, List.length_cons, List.length_cons, length_content t]
  | .call name callee ts => by rw [content, nodes, List.length_cons, length_contentAll ts]

theorem length_contentAll : ∀ ts : List Expr, (contentAll ts).length = nodesAll ts
  | [] => rfl
  | t :: ts => by
    rw [contentAll, nodesAll, List.length_append, length_content t, length_contentAll ts]
end

mutual
theorem isContent_content : ∀ t : Expr, ∀ l ∈ t.content, l.isContent = true
  | .number z => List.forall_mem_singleton.2 rfl
  | .symbol name => List.forall_mem_singleton.2 rfl
  | .negate t => List.forall_mem_cons.2 ⟨rfl, isContent_content t⟩
  | .factorial t => List.forall_mem_cons.2 ⟨rfl, isContent_content t⟩
  | .binary op l r =>
    List.forall_mem_cons.2 ⟨by cases op <;> rfl,
      List.forall_mem_append.2 ⟨isContent_content l, isContent_content r⟩⟩
  | .define name t =>
    List.forall_mem_cons.2 ⟨rfl, List.forall_mem_cons.2 ⟨rfl, isContent_content t⟩⟩
  | .call name callee ts => List.forall_mem_cons.2 ⟨rfl, isContent_contentAll ts⟩

theorem isContent_contentAll : ∀ ts : List Expr, ∀ l ∈ contentAll ts, l.isContent = true
  | [] => List.forall_mem_nil _
  | t :: ts => List.forall_mem_append.2 ⟨isContent_content t, isContent_contentAll ts⟩
end

mutual
def literals : Expr → List Number
  | .number z => [z]
  | .symbol _ => []
  | .negate t => t.literals
  | .factorial t => t.literals
  | .binary _ l r => l.literals ++ r.literals
  | .define _ t => t.literals
  | .call _ _ ts => literalsAll ts

def literalsAll : List Expr → List Number
  | [] => []
  | t :: ts => t.literals ++ literalsAll ts
end

theorem forall_mem_literalsAll {p : Number → Prop} {ts : List Expr}
    (h : ∀ t ∈ ts, ∀ z ∈ t.unsigned.literals, p z) : ∀ z ∈ literalsAll (unsignedAll ts), p z := by
  induction ts with
  | nil => exact List.forall_mem_nil _
  | cons t ts ih =>
    obtain ⟨ht, hts⟩ := List.forall_mem_cons.1 h
    exact List.forall_mem_append.2 ⟨ht, ih hts⟩

theorem WellFormed.literals_real {v : Vocabulary} {t : Expr} (h : t.WellFormed v) :
    ∀ z ∈ t.unsigned.literals, z = .ofReal z.re := by
  induction h with
  | number hz => exact List.forall_mem_singleton.2 hz.unsigned_eq
  | symbol => exact List.forall_mem_nil _
  | negate ht iht => exact iht
  | factorial ht iht => exact iht
  | binary hl hr ihl ihr => exact List.forall_mem_append.2 ⟨ihl, ihr⟩
  | define hn hf ht iht => exact iht
  | call hn hf hs ht iht => exact forall_mem_literalsAll iht

end Expr

namespace Parse

variable {v : Vocabulary}

/-- Every closing bracket closes one that is open, and in the end none is open. -/
structure IsBalanced (s : List Lexeme) : Prop where
  closed : s.count (.mark .opening) = s.count (.mark .closing)
  opened : ∀ n, (s.take n).count (.mark .closing) ≤ (s.take n).count (.mark .opening)

theorem isBalanced_nil : IsBalanced [] := ⟨rfl, fun n => by simp⟩

theorem IsBalanced.append {s s' : List Lexeme} (h : IsBalanced s) (h' : IsBalanced s') :
    IsBalanced (s ++ s') where
  closed := by rw [List.count_append, List.count_append, h.closed, h'.closed]
  opened n := by
    rw [List.take_append, List.count_append, List.count_append]
    exact Nat.add_le_add (h.opened n) (h'.opened _)

theorem isBalanced_singleton {l : Lexeme} (ho : l ≠ .mark .opening) (hc : l ≠ .mark .closing) :
    IsBalanced [l] where
  closed := by
    rw [List.count_cons_of_ne ho, List.count_cons_of_ne hc, List.count_nil, List.count_nil]
  opened n := by
    cases n with
    | zero => exact Nat.le_refl _
    | succ n =>
      rw [List.take_succ_cons, List.count_cons_of_ne ho, List.count_cons_of_ne hc, List.take_nil,
        List.count_nil, List.count_nil]

theorem IsBalanced.cons {l : Lexeme} {s : List Lexeme} (h : IsBalanced s)
    (ho : l ≠ .mark .opening) (hc : l ≠ .mark .closing) : IsBalanced (l :: s) :=
  (isBalanced_singleton ho hc).append h

theorem IsBalanced.group {s : List Lexeme} (h : IsBalanced s) :
    IsBalanced (.mark .opening :: s ++ [.mark .closing]) where
  closed := by simp [h.closed]
  opened n := by
    cases n with
    | zero => exact Nat.le_refl _
    | succ n =>
      -- The closing bracket is in the front part at most once, and the opening one is.
      have hs := h.opened n
      have hlast : ([Lexeme.mark .closing].take (n - s.length)).count (.mark .closing) ≤ 1 :=
        List.count_le_length.trans (List.length_take_le' _ _)
      have hne : Lexeme.mark .opening ≠ .mark .closing := by decide
      rw [List.cons_append, List.take_succ_cons, List.take_append, List.count_cons_of_ne hne,
        List.count_cons_self, List.count_append, List.count_append]
      omega

theorem Derives.balanced {c : Construct} {s s' : List Lexeme} {t : Expr} (h : Derives v c s t s') :
    ∃ w, s = w ++ s' ∧ IsBalanced w := by
  induction h with
  | level hp hl ht ihl iht =>
    obtain ⟨w, rfl, hw⟩ := ihl
    obtain ⟨w', rfl, hw'⟩ := iht
    exact ⟨w ++ w', by simp, hw.append hw'⟩
  | stop hs => exact ⟨[], rfl, isBalanced_nil⟩
  | @operation p m op l s r s₁ t s₂ hm hp hr ht ihr iht =>
    obtain ⟨w, rfl, hw⟩ := ihr
    obtain ⟨w', rfl, hw'⟩ := iht
    have ho : Lexeme.mark m ≠ .mark .opening := by rintro ⟨⟩; cases hm
    have hc : Lexeme.mark m ≠ .mark .closing := by rintro ⟨⟩; cases hm
    exact ⟨.mark m :: (w ++ w'), by simp, (hw.append hw').cons ho hc⟩
  | definition hr ht ihr iht =>
    obtain ⟨w, rfl, hw⟩ := ihr
    obtain ⟨w', rfl, hw'⟩ := iht
    exact ⟨.mark .define :: (w ++ w'), by simp, (hw.append hw').cons (by decide) (by decide)⟩
  | factorial ht iht =>
    obtain ⟨w, rfl, hw⟩ := iht
    exact ⟨.mark .factorial :: w, rfl, hw.cons (by decide) (by decide)⟩
  | power he ihe =>
    obtain ⟨w, rfl, hw⟩ := ihe
    exact ⟨.mark .power :: w, rfl, hw.cons (by decide) (by decide)⟩
  | number => exact ⟨[.number _], rfl, isBalanced_singleton nofun nofun⟩
  | symbol hn => exact ⟨[.name _], rfl, isBalanced_singleton nofun nofun⟩
  | negate ht iht =>
    obtain ⟨w, rfl, hw⟩ := iht
    exact ⟨.mark .minus :: w, rfl, hw.cons (by decide) (by decide)⟩
  | group ht iht =>
    obtain ⟨w, rfl, hw⟩ := iht
    exact ⟨.mark .opening :: w ++ [.mark .closing], by simp, hw.group⟩
  | call hf hs ht iht =>
    obtain ⟨w, rfl, hw⟩ := iht
    exact ⟨.name _ :: w, rfl, hw.cons nofun nofun⟩
  | @raised name f s e s₁ t s₂ hf he ht ihe iht =>
    obtain ⟨w, rfl, hw⟩ := ihe
    obtain ⟨w', rfl, hw'⟩ := iht
    have hpower := (hw.append hw').cons (l := .mark .power) (by decide) (by decide)
    exact ⟨.name name :: .mark .power :: (w ++ w'), by simp, hpower.cons nofun nofun⟩
  | bracketed ht iht =>
    obtain ⟨w, rfl, hw⟩ := iht
    exact ⟨.mark .opening :: w ++ [.mark .closing], by simp, hw.group⟩
  | bare hs ht iht => exact iht
  | last ht hs iht => exact iht
  | more ht hu iht ihu =>
    obtain ⟨w, rfl, hw⟩ := iht
    obtain ⟨w', rfl, hw'⟩ := ihu
    exact ⟨w ++ .mark .comma :: w', by simp, hw.append (hw'.cons (by decide) (by decide))⟩

/-- The lexemes of a text are those that its tree says, the brackets and commas that arrange them,
and the end. -/
structure Accounts (s : List Lexeme) (t : Expr) : Prop where
  content : (s.filter Lexeme.isContent).Perm t.content
  literals : ∀ z ∈ t.literals, z = .ofReal z.re
  nodes : t.nodes + s.countP Lexeme.isPunctuation = s.countP (· ≠ .ending)
  balanced : IsBalanced s

theorem Derives.perm {s : List Lexeme} {t : Expr} (h : Derives v (.level .relation) s t []) :
    (s.filter Lexeme.isContent).Perm t.content := by
  refine List.perm_iff_count.2 fun x => ?_
  cases hx : x.isContent with
  | true =>
    rw [List.count_filter hx]
    simpa [Construct.content] using h.count hx
  | false =>
    have hs : x ∉ s.filter Lexeme.isContent := fun hmem => by
      cases hx.symm.trans (List.mem_filter.1 hmem).2
    have ht : x ∉ t.content := fun hmem => by
      cases hx.symm.trans (t.isContent_content x hmem)
    rw [List.count_eq_zero_of_not_mem hs, List.count_eq_zero_of_not_mem ht]

theorem accounts_of_perm {s : List Lexeme} {t : Expr}
    (hs : (s.filter Lexeme.isContent).Perm t.content) (hl : ∀ z ∈ t.literals, z = .ofReal z.re)
    (hb : IsBalanced s) : Accounts s t where
  content := hs
  literals := hl
  nodes := by
    rw [← t.length_content, ← hs.length_eq, ← List.countP_eq_length_filter,
      Lexeme.countP_ne_ending]
  balanced := hb

/-- Reading a text loses none of its lexemes, doubles none and adds none. -/
theorem tree_accounts_for_text {text : String} {t : Expr} (h : parse v text = .ok t) :
    Accounts ((Stream.ofString text).tokens.map Token.lexeme) t := by
  obtain ⟨hw, hu⟩ := isPlain_of_parse h
  obtain ⟨ls, hls, hd⟩ := parse_iff_derives.1 h
  obtain ⟨w, hs, hb⟩ := hd.balanced
  rw [List.append_nil] at hs
  subst hs
  rw [Stream.map_lexeme_tokens hls]
  have hending : [Lexeme.ending].filter Lexeme.isContent = [] := rfl
  have hperm : ((ls ++ [Lexeme.ending]).filter Lexeme.isContent).Perm t.content := by
    rw [List.filter_append, hending, List.append_nil]
    exact hd.perm
  exact accounts_of_perm hperm (hu ▸ hw.literals_real)
    (hb.append (isBalanced_singleton nofun nofun))

theorem tree_accounts_for_raised_call :
    let f := Function.custom 0 ["x", "y"] (.symbol "x")
    let v : Vocabulary := ⟨fun name => if name = "f" then .function f else .unknown, false⟩
    let t := Expr.binary .pow
      (.call "f" (some f) [.negate (.symbol "x"), .number (.ofReal (Binary64.ofNat 3))])
      (.number (.ofReal (Binary64.ofNat 2)))
    parse v "f^2(-x, (3))" = .ok t ∧
      Accounts ((Stream.ofString "f^2(-x, (3))").tokens.map Token.lexeme) t := by
  intro f v t
  have hs : Stream.ofString "f^2(-x, (3))" =
      .token ⟨.name "f", 0⟩ (.token ⟨.mark .power, 1⟩ (.token ⟨.number (Binary64.ofNat 2), 2⟩
        (.token ⟨.mark .opening, 3⟩ (.token ⟨.mark .minus, 4⟩ (.token ⟨.name "x", 5⟩
          (.token ⟨.mark .comma, 6⟩ (.token ⟨.mark .opening, 8⟩
            (.token ⟨.number (Binary64.ofNat 3), 9⟩ (.token ⟨.mark .closing, 10⟩
              (.token ⟨.mark .closing, 11⟩ (.ending 12))))))))))) := by
    decide +kernel
  have hp : parse v "f^2(-x, (3))" = .ok t := by
    simp only [parse, hs]
    rfl
  exact ⟨hp, tree_accounts_for_text hp⟩

end Parse
end ComplexCalculator
