import ComplexCalculator.Scope.Store
import ComplexCalculator.Proofs.Parse.Composition

/-!
# Chains of comparisons

Comparisons associate to the left, and each answers its left operand when it holds. So a value that
passes one comparison of a chain is what the next one compares: the value of the first operand
meets every other one in turn. Once a comparison fails, NaN is there in its place, and what is
compared from there on is NaN whether it holds or not.
-/
namespace ComplexCalculator

inductive Relation
  | equal
  | less
  deriving DecidableEq

namespace Relation

def operator : Relation → Operator
  | .equal => .equal
  | .less => .less

def Holds : Relation → Number → Number → Prop
  | .equal, a, b => (a.re == b.re) = true ∧ (a.im == b.im) = true
  | .less, a, b => (a.im == 0) = true ∧ (b.im == 0) = true ∧ a.re < b.re

instance : ∀ (r : Relation) (a b : Number), Decidable (r.Holds a b)
  | .equal, _, _ => inferInstanceAs (Decidable (_ ∧ _))
  | .less, _, _ => inferInstanceAs (Decidable (_ ∧ _ ∧ _))

@[simp] theorem precedence_operator (r : Relation) : r.operator.precedence = .relation := by
  cases r <;> rfl

@[simp] theorem isRightAssociative_operator (r : Relation) :
    r.operator.isRightAssociative = false := by
  cases r <;> rfl

theorem apply_operator (r : Relation) (a b : Number) :
    r.operator.apply a b = if r.Holds a b then a else Number.nan := by
  cases r with
  | equal => exact if_congr Number.equals_iff rfl rfl
  | less => exact if_congr (by simp [Holds, Number.isReal, and_assoc]) rfl rfl

end Relation

structure Comparand where
  relation : Relation
  text : String
  tree : Expr

namespace Comparand

def value (c : Context) (k : Comparand) : Number := (k.tree.evaluate c).value

def appendText (text : String) (k : Comparand) : String :=
  text ++ " " ++ k.relation.operator.symbol ++ " " ++ grouped k.text

def appendTree (t : Expr) (k : Comparand) : Expr :=
  .binary k.relation.operator t k.tree

end Comparand

def chainText (text : String) (ks : List Comparand) : String :=
  ks.foldl Comparand.appendText (grouped text)

def chainTree (t : Expr) (ks : List Comparand) : Expr :=
  ks.foldl Comparand.appendTree t

namespace Parse

variable {v : Vocabulary} {text : String} {t : Expr} {ks : List Comparand}

def Leads (v : Vocabulary) (text : String) (t : Expr) : Prop :=
  ∃ ls, Spells text ls ∧ Heads v .relation ls t

theorem Leads.composes (h : Leads v text t) : Composes v .relation text t := by
  obtain ⟨ls, hs, hh⟩ := h
  exact ⟨ls, hs, hh.builds⟩

theorem leads_grouped (h : parse v text = .ok t) : Leads v (grouped text) t := by
  obtain ⟨ls, hs, hb⟩ := composes_grouped h
  exact ⟨ls, hs, (hb.loosen (p := .addition) (by decide)).heads (by decide)⟩

theorem Leads.append (h : Leads v text t) {k : Comparand} (hk : parse v k.text = .ok k.tree) :
    Leads v (k.appendText text) (k.appendTree t) := by
  obtain ⟨ls, hs, hh⟩ := h
  obtain ⟨ls', hs', hb⟩ := composes_grouped hk
  have hh' : Heads v k.relation.operator.precedence ls t := by simpa using hh
  have hc := heads_chain (by simp) hh' (hb.loosen (rank_le_number _))
  exact ⟨_, Expr.spells_binary k.relation.operator hs hs', by simpa [Comparand.appendTree] using hc⟩

theorem Leads.foldl (h : Leads v text t) (hks : ∀ k ∈ ks, parse v k.text = .ok k.tree) :
    Leads v (ks.foldl Comparand.appendText text) (ks.foldl Comparand.appendTree t) := by
  induction ks generalizing text t with
  | nil => exact h
  | cons k ks ih =>
    obtain ⟨hk, hks⟩ := List.forall_mem_cons.1 hks
    exact ih (h.append hk) hks

theorem parse_chainText (h : parse v text = .ok t) (hks : ∀ k ∈ ks, parse v k.text = .ok k.tree) :
    parse v (chainText text ks) = .ok (chainTree t ks) :=
  ((leads_grouped h).foldl hks).composes.parse

end Parse

/-- The number compares to each operand as this one's operator asks. -/
def ComparesToAll (c : Context) (a : Number) (ks : List Comparand) : Prop :=
  ∀ k ∈ ks, k.relation.Holds a (k.value c)

instance (c : Context) (a : Number) (ks : List Comparand) : Decidable (ComparesToAll c a ks) :=
  inferInstanceAs (Decidable (∀ k ∈ ks, k.relation.Holds a (k.value c)))

variable {c : Context}

theorem value_appendTree (t : Expr) (k : Comparand) :
    ((k.appendTree t).evaluate c).value =
      if k.relation.Holds (t.evaluate c).value (k.value c) then (t.evaluate c).value
      else Number.nan := by
  rw [Comparand.appendTree, Expr.evaluate]
  exact Relation.apply_operator _ _ _

theorem value_chainTree (t : Expr) (ks : List Comparand) :
    ((chainTree t ks).evaluate c).value =
      if ComparesToAll c (t.evaluate c).value ks then (t.evaluate c).value else Number.nan := by
  induction ks generalizing t with
  | nil => exact (if_pos (List.forall_mem_nil _)).symm
  | cons k ks ih =>
    have hk := value_appendTree (c := c) t k
    have hks := ih (k.appendTree t)
    by_cases h : k.relation.Holds (t.evaluate c).value (k.value c)
    · rw [if_pos h] at hk
      rw [hk] at hks
      exact hks.trans (if_congr (by simp [ComparesToAll, h]) rfl rfl)
    · rw [if_neg h] at hk
      rw [hk, ite_self] at hks
      rw [if_neg fun hall => h (hall k List.mem_cons_self)]
      exact hks

/-- In every scope a chain of comparisons has the value of its first operand when this one compares
to each of the others, and is NaN when it does not, however the chain goes on. -/
theorem chain_compares_first (s : Store) (i : Nat) {text : String} {t : Expr}
    {ks : List Comparand} (ht : parse (s.vocabulary i) text = .ok t)
    (hks : ∀ k ∈ ks, parse (s.vocabulary i) k.text = .ok k.tree) :
    let a := (t.evaluate (s.context i)).value
    parse (s.vocabulary i) (chainText text ks) = .ok (chainTree t ks) ∧
    ((chainTree t ks).evaluate (s.context i)).value =
      (if ComparesToAll (s.context i) a ks then a else Number.nan) ∧
    (¬ ComparesToAll (s.context i) a ks →
      ∀ later, (∀ k ∈ later, parse (s.vocabulary i) k.text = .ok k.tree) →
        parse (s.vocabulary i) (chainText text (ks ++ later)) = .ok (chainTree t (ks ++ later)) ∧
        ((chainTree t (ks ++ later)).evaluate (s.context i)).value = Number.nan) := by
  intro a
  refine ⟨Parse.parse_chainText ht hks, value_chainTree t ks, fun hfail later hlater => ?_⟩
  have hall := List.forall_mem_append.2 ⟨hks, hlater⟩
  refine ⟨Parse.parse_chainText ht hall, ?_⟩
  rw [value_chainTree]
  exact if_neg fun h => hfail fun k hk => h k (List.mem_append_left later hk)

theorem chain_compares_first_unordered :
    let s := Store.root none
    let number (n : Float) : Expr := .number ⟨n, 0⟩
    let t := Expr.binary .less (.binary .less (number 1) (number 3)) (number 2)
    parse (s.vocabulary 0) "(1) < (3) < (2)" = .ok t ∧
      (t.evaluate (s.context 0)).value = Number.one := by
  intro s number t
  have hread : ∀ text n, Stream.ofString text = .token ⟨.number n, 0⟩ (.ending 1) →
      parse (s.vocabulary 0) text = .ok (number n) := by
    intro text n hs
    simp only [parse, hs]
    rfl
  have hthree := hread "3" 3 (by decide +kernel)
  have htwo := hread "2" 2 (by decide +kernel)
  have hks : ∀ k ∈ [⟨.less, "3", number 3⟩, (⟨.less, "2", number 2⟩ : Comparand)],
      parse (s.vocabulary 0) k.text = .ok k.tree :=
    List.forall_mem_cons.2 ⟨hthree, List.forall_mem_singleton.2 htwo⟩
  obtain ⟨hparse, hvalue, -⟩ := chain_compares_first s 0 (hread "1" 1 (by decide +kernel)) hks
  refine ⟨hparse, hvalue.trans (if_pos ?_)⟩
  decide +kernel

end ComplexCalculator
