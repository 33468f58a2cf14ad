import ComplexCalculator.Proofs.Parse.RoundTrip

/-!
# Brackets that are needed

As an operand at a level a tree opens the brackets of its own spelling, and one more when it is
looser than the level. No derivation gets the tree for less: what a rule builds opens what its parts
open, and only the brackets of a group take a looser tree to a tighter level. This holds where
functions stand before brackets, as they do in spellings, since a call without them saves a pair and
a raised call another. So a spelling opens the fewest brackets that its tree can be read from, and
none of the pairs around its operands can be left out.
-/
namespace ComplexCalculator

def openings (ls : List Lexeme) : Nat := ls.count (.mark .opening)

@[simp] theorem openings_nil : openings [] = 0 := rfl

@[simp] theorem openings_number (x : Float) (ls : List Lexeme) :
    openings (.number x :: ls) = openings ls :=
  List.count_cons_of_ne Lexeme.noConfusion

@[simp] theorem openings_name (name : String) (ls : List Lexeme) :
    openings (.name name :: ls) = openings ls :=
  List.count_cons_of_ne Lexeme.noConfusion

@[simp] theorem openings_opening (ls : List Lexeme) :
    openings (.mark .opening :: ls) = openings ls + 1 :=
  List.count_cons_self

theorem openings_mark {m : Mark} (h : m ≠ .opening) (ls : List Lexeme) :
    openings (.mark m :: ls) = openings ls :=
  List.count_cons_of_ne fun heq => h (Lexeme.mark.inj heq)

@[simp] theorem openings_append (ls ls' : List Lexeme) :
    openings (ls ++ ls') = openings ls + openings ls' :=
  List.count_append

@[simp] theorem openings_bracketed (wrapped : Bool) (ls : List Lexeme) :
    openings (bracketed wrapped ls) = openings ls + wrapped.toNat := by
  have hc : Mark.closing ≠ .opening := by decide
  cases wrapped <;> simp [bracketed, openings_mark hc]

theorem ne_opening_of_operator? {m : Mark} {op : Operator} (h : m.operator? = some op) :
    m ≠ .opening := by
  rintro rfl
  cases h

theorem Operator.mark_ne_opening (op : Operator) : op.mark ≠ .opening := by
  cases op <;> decide

def Precedence.left : Precedence → Precedence
  | .power => .number
  | p => p

def Operator.right : Operator → Precedence
  | .pow => .power
  | op => op.precedence.tighter

theorem rank_le_left (p : Precedence) : p.rank ≤ p.left.rank := by
  cases p <;> decide

theorem rank_left_le_tighter (p : Precedence) : p.left.rank ≤ p.tighter.rank := by
  cases p <;> decide

theorem left_of_operator {m : Mark} {op : Operator} (h : m.operator? = some op) :
    op.precedence.left = op.precedence ∧ op.right = op.precedence.tighter := by
  cases m <;> simp [Mark.operator?] at h <;> subst h <;> exact ⟨rfl, rfl⟩

namespace Expr

def brackets (p : Precedence) (t : Expr) : Nat :=
  openings (bracketed (t.isWrapped p false) t.spelled)

theorem isWrapped_eq_decide (p : Precedence) (t : Expr) :
    t.isWrapped p false = decide (t.precedence.rank < p.rank) := by
  simp [isWrapped]

theorem isWrapped_tighter {p : Precedence} (hp : p ≠ .number) (t : Expr) :
    t.isWrapped p true = t.isWrapped p.tighter false := by
  rw [isWrapped_eq_decide, Parse.rank_tighter hp]
  by_cases ht : t.precedence = p
  · simp [isWrapped, ht]
  · have hne : t.precedence.rank ≠ p.rank := fun h => ht (Precedence.rank_injective h)
    simp only [isWrapped, beq_eq_false_iff_ne.2 ht, Bool.and_false, Bool.or_false]
    exact decide_eq_decide.2 (by omega)

theorem brackets_eq (p : Precedence) (t : Expr) :
    t.brackets p = openings t.spelled + if t.precedence.rank < p.rank then 1 else 0 := by
  rw [brackets, openings_bracketed, isWrapped_eq_decide]
  split <;> simp [*]

theorem brackets_mono {p q : Precedence} (h : p.rank ≤ q.rank) (t : Expr) :
    t.brackets p ≤ t.brackets q := by
  rw [brackets_eq, brackets_eq]
  split <;> split <;> omega

theorem brackets_le_succ (p : Precedence) (t : Expr) :
    t.brackets p ≤ t.brackets .relation + 1 := by
  rw [brackets_eq, brackets_eq]
  split <;> omega

theorem brackets_of_le {p : Precedence} {t : Expr} (h : p.rank ≤ t.precedence.rank) :
    t.brackets p = openings t.spelled := by
  rw [brackets_eq, if_neg (Nat.not_lt.2 h)]
  rfl

theorem brackets_relation (t : Expr) : t.brackets .relation = openings t.spelled :=
  brackets_of_le (Nat.zero_le _)

theorem openings_negate (t : Expr) : openings (negate t).spelled = t.brackets .number :=
  openings_mark (by decide) _

theorem openings_factorial (t : Expr) : openings (factorial t).spelled = t.brackets .factorial := by
  rw [spelled, openings_append, openings_mark (by decide)]
  rfl

theorem openings_define (name : String) (t : Expr) :
    openings (define name t).spelled = t.brackets .addition := by
  rw [spelled, openings_name, openings_mark (by decide), isWrapped_tighter (by decide)]
  rfl

theorem openings_binary (op : Operator) (l r : Expr) :
    openings (binary op l r).spelled = l.brackets op.precedence.left + r.brackets op.right := by
  have hl : l.isWrapped op.precedence op.isRightAssociative =
      l.isWrapped op.precedence.left false := by
    cases op with
    | pow => exact isWrapped_tighter (by decide) l
    | _ => rfl
  have hr : r.isWrapped op.precedence (!op.isRightAssociative) = r.isWrapped op.right false := by
    cases op with
    | pow => rfl
    | _ => exact isWrapped_tighter (by decide) r
  rw [spelled, openings_append, openings_mark op.mark_ne_opening, hl, hr]
  rfl

theorem openings_spelledAll (ts : List Expr) :
    openings (spelledAll ts) = (ts.map (brackets .relation)).sum := by
  induction ts with
  | nil => rfl
  | cons t ts ih =>
    rw [List.map_cons, List.sum_cons, ← ih, brackets_relation]
    cases ts with
    | nil => rfl
    | cons u us =>
      rw [spelledAll, openings_append, openings_mark (by decide)]
      exact List.cons_ne_nil u us

theorem openings_call (name : String) (callee : Option Function) (ts : List Expr) :
    openings (call name callee ts).spelled = (ts.map (brackets .relation)).sum + 1 := by
  have hc : Mark.closing ≠ .opening := by decide
  simp [spelled, openings_spelledAll, openings_mark hc]

theorem precedence_eq_of_alike {t u : Expr} (h : t.alike u = true) :
    t.precedence = u.precedence := by
  cases t <;> cases u <;> simp_all [alike, precedence]

theorem brackets_eq_of_openings {t u : Expr} (h : t.alike u = true)
    (hc : openings t.spelled = openings u.spelled) (p : Precedence) :
    t.brackets p = u.brackets p := by
  rw [brackets_eq, brackets_eq, precedence_eq_of_alike h, hc]

mutual
theorem openings_eq_of_alike : ∀ {t u : Expr}, t.alike u = true →
    openings t.spelled = openings u.spelled
  | .number a, .number b, _ => by rw [spelled, spelled, openings_number, openings_number]
  | .symbol a, .symbol b, _ => by rw [spelled, spelled, openings_name, openings_name]
  | .negate a, .negate b, h => by
    have ha : a.alike b = true := h
    rw [openings_negate, openings_negate, brackets_eq_of_openings ha (openings_eq_of_alike ha)]
  | .factorial a, .factorial b, h => by
    have ha : a.alike b = true := h
    rw [openings_factorial, openings_factorial,
      brackets_eq_of_openings ha (openings_eq_of_alike ha)]
  | .binary o a b, .binary p c d, h => by
    obtain ⟨⟨rfl, ha⟩, hb⟩ : (o = p ∧ a.alike c = true) ∧ b.alike d = true := by
      simpa [alike] using h
    rw [openings_binary, openings_binary, brackets_eq_of_openings ha (openings_eq_of_alike ha),
      brackets_eq_of_openings hb (openings_eq_of_alike hb)]
  | .define a b, .define c d, h => by
    have hb : b.alike d = true := (Bool.and_eq_true_iff.1 h).2
    rw [openings_define, openings_define, brackets_eq_of_openings hb (openings_eq_of_alike hb)]
  | .call a _ as, .call b _ bs, h => by
    have hs : alikeAll as bs = true := (Bool.and_eq_true_iff.1 h).2
    rw [openings_call, openings_call, sum_eq_of_alikeAll hs]

theorem sum_eq_of_alikeAll : ∀ {ts us : List Expr}, alikeAll ts us = true →
    (ts.map (brackets .relation)).sum = (us.map (brackets .relation)).sum
  | [], [], _ => rfl
  | t :: ts, u :: us, h => by
    obtain ⟨ht, hts⟩ := Bool.and_eq_true_iff.1 h
    rw [List.map_cons, List.map_cons, List.sum_cons, List.sum_cons, sum_eq_of_alikeAll hts,
      brackets_eq_of_openings ht (openings_eq_of_alike ht)]
end

end Expr

namespace Vocabulary
variable {v : Vocabulary}

/-- Every function stands before the bracket that opens its arguments. -/
def Applies (v : Vocabulary) (s : List Lexeme) : Prop :=
  ∀ name f rest, .name name :: rest <:+ s → v.meaning name = .function f →
    rest.head? = some (.mark .opening)

theorem Applies.of_suffix {s s' : List Lexeme} (h : v.Applies s) (hs : s' <:+ s) : v.Applies s' :=
  fun name f rest hr => h name f rest (hr.trans hs)

theorem Applies.tail {l : Lexeme} {s : List Lexeme} (h : v.Applies (l :: s)) : v.Applies s :=
  h.of_suffix (List.suffix_cons _ _)

theorem Applies.head {name : String} {f : Function} {s : List Lexeme}
    (h : v.Applies (.name name :: s)) (hf : v.meaning name = .function f) :
    s.head? = some (.mark .opening) :=
  h name f s List.suffix_rfl hf

theorem Applies.cons {l : Lexeme} {s : List Lexeme} (h : v.Applies s)
    (hl : ∀ name f, l = .name name → v.meaning name = .function f →
      s.head? = some (.mark .opening)) : v.Applies (l :: s) := by
  intro name f rest hr hf
  rcases List.suffix_cons_iff.1 hr with heq | hr
  · obtain ⟨rfl, rfl⟩ := List.cons.inj heq
    exact hl name f rfl hf
  · exact h name f rest hr hf

theorem Applies.cons_mark {m : Mark} {s : List Lexeme} (h : v.Applies s) :
    v.Applies (.mark m :: s) :=
  h.cons nofun

theorem Applies.cons_symbol {name : String} {s : List Lexeme} (h : v.Applies s)
    (hf : ∀ f, v.meaning name ≠ .function f) : v.Applies (.name name :: s) := by
  refine h.cons ?_
  rintro _ f ⟨⟩ hm
  exact absurd hm (hf f)

theorem applies_nil : v.Applies [] := by
  intro name f rest hr
  cases List.suffix_nil.1 hr

theorem applies_mark (m : Mark) : v.Applies [.mark m] := applies_nil.cons_mark

theorem Applies.append {s s' : List Lexeme} (h : v.Applies s) (h' : v.Applies s') :
    v.Applies (s ++ s') := by
  induction s with
  | nil => exact h'
  | cons l s ih =>
    refine (ih h.tail).cons ?_
    rintro name f rfl hf
    rw [List.head?_append, h.head hf]
    rfl

theorem Applies.bracketed {ls : List Lexeme} (h : v.Applies ls) (wrapped : Bool) :
    v.Applies (bracketed wrapped ls) := by
  cases wrapped with
  | false => exact h
  | true => exact h.cons_mark.append (applies_mark .closing)

end Vocabulary

namespace Parse
variable {v : Vocabulary}

def Pending.brackets (c : Pending) : Nat := (c.arguments.map (Expr.brackets .relation)).sum

/-- The brackets before a construct that belong to its tree. -/
def Construct.spent : Construct → Nat
  | .level _ => 0
  | .after p l => l.brackets p.left
  | .application c => c.brackets
  | .arguments c => c.brackets + 1

/-- The brackets that a tree opens as what a construct is read to. -/
def Construct.cost : Construct → Expr → Nat
  | .level p, t | .after p _, t => t.brackets p
  | .application _, t | .arguments _, t => t.brackets .number

def Construct.IsApplied : Construct → List Lexeme → Prop
  | .level _, _ | .after _ _, _ => True
  | .application c, s => c.exponent = none ∧ s.head? = some (.mark .opening)
  | .arguments c, _ => c.exponent = none

theorem Pending.brackets_push (c : Pending) (t : Expr) :
    (c.push t).brackets = c.brackets + t.brackets .relation := by
  simp [Pending.brackets, Pending.push]

theorem Pending.brackets_complete {c : Pending} (hc : c.exponent = none) (t : Expr) :
    (c.complete t).brackets .number = c.brackets + t.brackets .relation + 1 := by
  have ht : c.complete t = .call c.name (some c.function) (c.arguments ++ [t]) := by
    rw [Pending.complete, hc]
  rw [ht]
  refine (Expr.brackets_of_le (Nat.le_refl _)).trans ?_
  simp [Expr.openings_call, Pending.brackets]

theorem brackets_chain {m : Mark} {op : Operator} (h : m.operator? = some op) (l r : Expr) :
    (Expr.binary op l r).brackets op.precedence =
      l.brackets op.precedence + r.brackets op.precedence.tighter := by
  obtain ⟨hleft, hright⟩ := left_of_operator h
  refine (Expr.brackets_of_le (Nat.le_refl _)).trans ?_
  rw [Expr.openings_binary, hleft, hright]

/-- What a construct takes off the lexemes ahead opens no fewer brackets than its tree has in
addition to those before it. -/
theorem Derives.cost_le {c : Construct} {s s' : List Lexeme} {t : Expr} (h : Derives v c s t s')
    (hs : v.Applies s) (hc : c.IsApplied s) : openings s' + c.cost t ≤ openings s + c.spent := by
  induction h with
  | @level p s l s₁ t s₂ hp hl ht ihl iht =>
    have hl' := ihl hs trivial
    have ht' := iht (hs.of_suffix hl.suffix) trivial
    have hmono := l.brackets_mono (rank_left_le_tighter p)
    simp only [Construct.cost, Construct.spent] at *
    omega
  | @stop p t s hstop =>
    have hmono := t.brackets_mono (rank_le_left p)
    simp only [Construct.cost, Construct.spent]
    omega
  | @operation p m op l s r s₁ t s₂ hm hp hr ht ihr iht =>
    subst hp
    have hr' := ihr hs.tail trivial
    have ht' := iht (hs.tail.of_suffix hr.suffix) trivial
    simp only [Construct.cost, Construct.spent, (left_of_operator hm).1, brackets_chain hm,
      openings_mark (ne_opening_of_operator? hm)] at *
    omega
  | @definition name s r s₁ t s₂ hr ht ihr iht =>
    have hr' := ihr hs.tail trivial
    have ht' := iht (hs.tail.of_suffix hr.suffix) trivial
    have hm : Mark.define ≠ .opening := by decide
    simp only [Construct.cost, Construct.spent, Precedence.left, Expr.brackets_relation,
      Expr.openings_define, openings_mark hm] at *
    omega
  | @factorial l s t s₁ ht iht =>
    have ht' := iht hs.tail trivial
    have hl : (Expr.factorial l).brackets .factorial = l.brackets .factorial :=
      (Expr.brackets_of_le (Nat.le_refl _)).trans (Expr.openings_factorial l)
    have hm : Mark.factorial ≠ .opening := by decide
    simpa only [Construct.cost, Construct.spent, Precedence.left, hl, openings_mark hm] using ht'
  | @power b s e s₁ he ihe =>
    have he' := ihe hs.tail trivial
    have hb : (Expr.binary .pow b e).brackets .power = b.brackets .number + e.brackets .power :=
      (Expr.brackets_of_le (Nat.le_refl _)).trans (Expr.openings_binary .pow b e)
    have hm : Mark.power ≠ .opening := by decide
    simp only [Construct.cost, Construct.spent, Precedence.left, hb, openings_mark hm] at *
    omega
  | @number x s => exact Nat.le_of_eq (openings_number x s).symm
  | @symbol name s hn => exact Nat.le_of_eq (openings_name name s).symm
  | @negate s t s₁ ht iht =>
    have ht' := iht hs.tail trivial
    have hn : (Expr.negate t).brackets .number = t.brackets .number :=
      (Expr.brackets_of_le (Nat.le_refl _)).trans (Expr.openings_negate t)
    have hm : Mark.minus ≠ .opening := by decide
    simpa only [Construct.cost, Construct.spent, hn, openings_mark hm] using ht'
  | @group s t s₁ ht iht =>
    -- The bracket pays for the tree being looser than a primary.
    have ht' := iht hs.tail trivial
    have hsucc := t.brackets_le_succ .number
    have hm : Mark.closing ≠ .opening := by decide
    simp only [Construct.cost, Construct.spent, openings_mark hm, openings_opening] at *
    omega
  | @call name f s t s₁ hf hp ht iht =>
    have ht' := iht hs.tail ⟨rfl, hs.head hf⟩
    simpa [Construct.cost, Construct.spent, Pending.brackets] using ht'
  | raised hf he ht ihe iht => cases hs.head hf
  | @bracketed c s t s₁ ht iht =>
    have ht' := iht hs.tail hc.1
    have hm : Mark.closing ≠ .opening := by decide
    simp only [Construct.cost, Construct.spent, openings_mark hm, openings_opening] at *
    omega
  | bare ho ht iht => exact absurd hc.2 ho
  | @last c s t s₁ ht ho iht =>
    have ht' := iht hs trivial
    simp only [Construct.cost, Construct.spent, Pending.brackets_complete hc] at *
    omega
  | @more c s t s₁ u s₂ ht hu iht ihu =>
    have ht' := iht hs trivial
    have hu' := ihu (hs.of_suffix ((List.suffix_cons _ _).trans ht.suffix)) hc
    have hm : Mark.comma ≠ .opening := by decide
    simp only [Construct.cost, Construct.spent, Pending.brackets_push, openings_mark hm] at *
    omega

theorem Derives.openings_spelled_le {s : List Lexeme} {t : Expr}
    (h : Derives v (.level .relation) s t []) (hs : v.Applies s) :
    openings t.spelled ≤ openings s := by
  have hc := h.cost_le hs trivial
  simpa [Construct.cost, Construct.spent, Expr.brackets_relation] using hc

end Parse

inductive Side
  | left
  | right
  deriving DecidableEq

namespace Expr

/-- Whether an operand stands in brackets in the text of a tree. -/
def wraps : Expr → Side → Bool
  | .negate t, .right => t.isWrapped .number false
  | .factorial t, .left => t.isWrapped .factorial false
  | .binary op l _, .left => l.isWrapped op.precedence op.isRightAssociative
  | .binary op _ r, .right => r.isWrapped op.precedence (!op.isRightAssociative)
  | .define _ t, .right => t.isWrapped .relation true
  | _, _ => false

/-- The text of a tree with its operands in brackets on the given sides. -/
def arranged (w : Side → Bool) : Expr → String
  | .negate t => "-" ++ wrap (w .right) t.render
  | .factorial t => wrap (w .left) t.render ++ "!"
  | .binary op l r => wrap (w .left) l.render ++ " " ++ op.symbol ++ " " ++ wrap (w .right) r.render
  | .define name t => name ++ " := " ++ wrap (w .right) t.render
  | t => t.render

def arrangement (w : Side → Bool) : Expr → List Lexeme
  | .negate t => .mark .minus :: bracketed (w .right) t.spelled
  | .factorial t => bracketed (w .left) t.spelled ++ [.mark .factorial]
  | .binary op l r =>
    bracketed (w .left) l.spelled ++ .mark op.mark :: bracketed (w .right) r.spelled
  | .define name t => .name name :: .mark .define :: bracketed (w .right) t.spelled
  | t => t.spelled

theorem arranged_wraps (t : Expr) : t.arranged t.wraps = t.render := by
  cases t <;> rfl

theorem arrangement_wraps (t : Expr) : t.arrangement t.wraps = t.spelled := by
  cases t <;> rfl

theorem openings_arrangement {t : Expr} {side : Side} (h : t.wraps side = true) :
    openings (t.arrangement (Function.update t.wraps side false)) + 1 = openings t.spelled := by
  have hne : Side.left ≠ .right := nofun
  have hm : Mark.minus ≠ .opening ∧ Mark.factorial ≠ .opening ∧ Mark.define ≠ .opening := by decide
  rw [← arrangement_wraps t]
  cases t <;> cases side <;> try cases h
  all_goals
    simp only [arrangement, openings_append, openings_bracketed, openings_name,
      openings_mark hm.1, openings_mark hm.2.1, openings_mark hm.2.2,
      openings_mark (Operator.mark_ne_opening _), h, Function.update_self,
      Function.update_of_ne hne, Function.update_of_ne hne.symm, Bool.toNat_true, Bool.toNat_false] <;>
    omega

variable {v : Vocabulary} {t : Expr}

theorem WellFormed.spells_arranged (h : t.WellFormed v) (w : Side → Bool) :
    Spells (t.arranged w) (t.arrangement w) := by
  cases h with
  | negate ht => exact spells_negate (ht.spells.wrap _) (ht.opens.wrap _)
  | factorial ht => exact spells_factorial (ht.spells.wrap _)
  | binary hl hr => exact spells_binary _ (hl.spells.wrap _) (hr.spells.wrap _)
  | define hn hf ht => exact spells_define hn (ht.spells.wrap _)
  | number hz => exact (WellFormed.number (v := v) hz).spells
  | symbol hn hf hs => exact (WellFormed.symbol hn hf hs).spells
  | call hn hf hs ht => exact (WellFormed.call hn hf hs ht).spells

theorem WellFormed.lexemes?_arranged (h : t.WellFormed v) (w : Side → Bool) :
    (Stream.ofString (t.arranged w)).lexemes? = some (t.arrangement w) := by
  rw [ofString_lexemes?, (h.spells_arranged w).lexemes?]

theorem applies_spelledAll {ts : List Expr} (h : ∀ t ∈ ts, v.Applies t.spelled) :
    v.Applies (spelledAll ts) := by
  induction ts with
  | nil => exact Vocabulary.applies_nil
  | cons t ts ih =>
    obtain ⟨ht, hts⟩ := List.forall_mem_cons.1 h
    cases ts with
    | nil => exact ht
    | cons u us => exact ht.append (ih hts).cons_mark

theorem WellFormed.applies (h : t.WellFormed v) : ∀ w, v.Applies (t.arrangement w) := by
  induction h with
  | number hz => exact fun w => Vocabulary.applies_nil.cons nofun
  | symbol hn hf hs => exact fun w => Vocabulary.applies_nil.cons_symbol hf
  | @negate t ht iht =>
    have ht' := t.arrangement_wraps ▸ iht t.wraps
    exact fun w => (ht'.bracketed _).cons_mark
  | @factorial t ht iht =>
    have ht' := t.arrangement_wraps ▸ iht t.wraps
    exact fun w => (ht'.bracketed _).append (Vocabulary.applies_mark .factorial)
  | @binary op l r hl hr ihl ihr =>
    have hl' := l.arrangement_wraps ▸ ihl l.wraps
    have hr' := r.arrangement_wraps ▸ ihr r.wraps
    exact fun w => (hl'.bracketed _).append (hr'.bracketed _).cons_mark
  | @define name t hn hf ht iht =>
    have ht' := t.arrangement_wraps ▸ iht t.wraps
    exact fun w => (ht'.bracketed _).cons_mark.cons_symbol hf
  | @call name f ts hn hf hs ht iht =>
    have hts : ∀ t ∈ ts, v.Applies t.spelled := fun t ht => t.arrangement_wraps ▸ iht t ht t.wraps
    have happlied := (applies_spelledAll hts).append (Vocabulary.applies_mark .closing)
    exact fun w => happlied.cons_mark.cons fun _ _ _ _ => rfl

end Expr

namespace Store
open Text

/-- None of the pairs of brackets that the text of a tree has around its operands can be left out:
without it the text is not read at all, or as a different tree. -/
theorem operand_brackets_needed {s : Store} {i : Nat} {source : Source} {t : Expr} {side : Side}
    (h : s.parse i source = .ok t) (hside : t.wraps side = true) :
    t.arranged t.wraps = t.render ∧
      ∀ u, s.parse i (.text (t.arranged (Function.update t.wraps side false))) = .ok u →
        u.alike t = false := by
  obtain ⟨text, -, hp⟩ := parse_eq_ok h
  have hw := (Parse.isPlain_of_parse hp).1
  refine ⟨t.arranged_wraps, fun u hu => Bool.eq_false_iff.2 fun halike => ?_⟩
  obtain ⟨ls, hls, hd⟩ := Parse.parse_iff_derives.1 (parse_text.1 hu)
  obtain rfl := Option.some.inj ((hw.lexemes?_arranged _).symm.trans hls)
  have hle := hd.openings_spelled_le (hw.applies _)
  have hleft := Expr.openings_arrangement hside
  have heq := Expr.openings_eq_of_alike halike
  omega

theorem operand_brackets_needed_negate :
    let s := root none
    let t := Expr.negate (.factorial (.symbol "x"))
    let u := Expr.factorial (.negate (.symbol "x"))
    s.parse 0 (.text "-(x!)") = .ok t ∧ t.wraps .right = true ∧
      t.arranged (Function.update t.wraps .right false) = "-x!" ∧
      s.parse 0 (.text "-x!") = .ok u ∧ u.alike t = false := by
  intro s t u
  have hwith : Stream.ofString "-(x!)" =
      .token ⟨.mark .minus, 0⟩ (.token ⟨.mark .opening, 1⟩ (.token ⟨.name "x", 2⟩
        (.token ⟨.mark .factorial, 3⟩ (.token ⟨.mark .closing, 4⟩ (.ending 5))))) := by
    decide +kernel
  have hwithout : Stream.ofString "-x!" = .token ⟨.mark .minus, 0⟩
      (.token ⟨.name "x", 1⟩ (.token ⟨.mark .factorial, 2⟩ (.ending 3))) := by
    decide +kernel
  have ht : s.parse 0 (.text "-(x!)") = .ok t := by
    rw [parse_text, ComplexCalculator.parse, hwith]
    rfl
  have hu : s.parse 0 (.text "-x!") = .ok u := by
    rw [parse_text, ComplexCalculator.parse, hwithout]
    rfl
  have hside : t.wraps .right = true := rfl
  have hw : t.arranged (Function.update t.wraps .right false) = "-x!" := by
    decide +kernel
  exact ⟨ht, hside, hw, hu, (operand_brackets_needed ht hside).2 u (hw ▸ hu)⟩

end Store
end ComplexCalculator
