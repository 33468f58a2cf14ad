import ComplexCalculator.Proofs.Expr.Spelling
import ComplexCalculator.Proofs.Parse.Derivation
import ComplexCalculator.Session.Line

/-!
# Rendering and reading

The spelling of a well formed tree is derived to the tree at every level that is not tighter than
the tree. A tree on the left of a chain has to leave the chain open, so it is also said that the
spelling of a tree can stand at the head of what continues its level. Conversely every tree that is
derived from lexemes of a text is well formed. So a text that is rendered from a tree is read back
to the tree.
-/
namespace ComplexCalculator.Parse

variable {v : Vocabulary}

/-- No lexeme ahead continues the level or a tighter one. -/
def Quiet (p : Precedence) (s : List Lexeme) : Prop :=
  ∀ l ∈ s.head?, ∀ q, l.continues? = some q → q.rank < p.rank

theorem Quiet.mono {p q : Precedence} {s : List Lexeme} (h : Quiet p s) (hpq : p.rank ≤ q.rank) :
    Quiet q s :=
  fun l hl r hr => Nat.lt_of_lt_of_le (h l hl r hr) hpq

theorem Quiet.stops {p : Precedence} {s : List Lexeme} (h : Quiet p s) :
    ∀ l ∈ s.head?, l.continues? ≠ some p :=
  fun l hl hc => Nat.lt_irrefl _ (h l hl p hc)

theorem quiet_nil (p : Precedence) : Quiet p [] := nofun

theorem quiet_cons {p : Precedence} {l : Lexeme} (h : ∀ q, l.continues? = some q → q.rank < p.rank)
    (s : List Lexeme) : Quiet p (l :: s) := by
  rintro k ⟨⟩
  exact h

theorem quiet_of_none {p : Precedence} {l : Lexeme} (h : l.continues? = none) (s : List Lexeme) :
    Quiet p (l :: s) :=
  quiet_cons (fun q hq => by cases h.symm.trans hq) s

theorem rank_le_number (p : Precedence) : p.rank ≤ Precedence.number.rank := by
  cases p <;> decide

theorem quiet_number (s : List Lexeme) : Quiet .number s := by
  intro l _ q hq
  obtain ⟨-, rfl⟩ | ⟨-, rfl⟩ | ⟨m, link, -, hm, rfl⟩ := continues?_cases hq
  · decide
  · decide
  · obtain ⟨-, hn, -⟩ := extension_of_link (g := .primary) hm
    exact Nat.lt_of_le_of_ne (rank_le_number _) fun h => hn (Precedence.rank_injective h)

theorem rank_le_tighter (p : Precedence) : p.rank ≤ p.tighter.rank := by
  cases p <;> decide

/-- The lexemes are derived to the tree, whatever follows that does not continue the level. -/
def Builds (v : Vocabulary) (p : Precedence) (ls : List Lexeme) (t : Expr) : Prop :=
  ∀ rest, Quiet p rest → Derives v (.level p) (ls ++ rest) t rest

def Heads (v : Vocabulary) (p : Precedence) (ls : List Lexeme) (t : Expr) : Prop :=
  ∀ rest u rest', Quiet p.tighter rest → Derives v (.after p t) rest u rest' →
    Derives v (.level p) (ls ++ rest) u rest'

theorem Builds.heads {p : Precedence} {ls : List Lexeme} {t : Expr} (h : Builds v p.tighter ls t)
    (hp : p ≠ .number) : Heads v p ls t :=
  fun rest _ _ hq hu => .level hp (h rest hq) hu

theorem Heads.builds {p : Precedence} {ls : List Lexeme} {t : Expr} (h : Heads v p ls t) :
    Builds v p ls t :=
  fun rest hq => h rest t rest (hq.mono (rank_le_tighter p)) (.stop hq.stops)

theorem Derives.loosen {p q : Precedence} {s rest : List Lexeme} {t : Expr}
    (h : Derives v (.level q) s t rest) (hp : p.rank ≤ q.rank) (hq : Quiet p rest) :
    Derives v (.level p) s t rest := by
  by_cases hpq : p.rank = q.rank
  · exact Precedence.rank_injective hpq ▸ h
  · have hn : p ≠ .number := by
      rintro rfl
      exact hpq (Nat.le_antisymm hp (rank_le_number q))
    have ht := rank_tighter hn
    have hl := h.loosen (p := p.tighter) (by omega) (hq.mono (rank_le_tighter p))
    exact .level hn hl (.stop hq.stops)
termination_by q.rank - p.rank

theorem Builds.loosen {p q : Precedence} {ls : List Lexeme} {t : Expr} (h : Builds v q ls t)
    (hp : p.rank ≤ q.rank) : Builds v p ls t :=
  fun rest hq => (h rest (hq.mono hp)).loosen hp hq

/-- A tree's spelling is derived to it at each level that is not tighter than the tree. -/
structure Spans (v : Vocabulary) (t : Expr) : Prop where
  builds : ∀ p : Precedence, p.rank ≤ t.precedence.rank → Builds v p t.spelled t.unsigned
  heads : ∀ p : Precedence, p.rank ≤ t.precedence.rank → p.rank ≤ Precedence.factorial.rank →
    Heads v p t.spelled t.unsigned

theorem ne_number_of_le {p : Precedence} (h : p.rank ≤ Precedence.factorial.rank) :
    p ≠ .number := by
  rintro rfl
  exact absurd h (by decide)

theorem spans_of_builds {t : Expr} {p : Precedence} (ht : t.precedence = p)
    (hp : Precedence.factorial.rank < p.rank) (h : Builds v p t.spelled t.unsigned) :
    Spans v t where
  builds q hq := h.loosen (ht ▸ hq)
  heads q _ hf := by
    have hn := ne_number_of_le hf
    exact (h.loosen (by rw [rank_tighter hn]; omega)).heads hn

theorem spans_of_heads {t : Expr} {p : Precedence} (ht : t.precedence = p)
    (h : Heads v p t.spelled t.unsigned) : Spans v t where
  builds q hq := h.builds.loosen (ht ▸ hq)
  heads q hq hf := by
    subst ht
    by_cases heq : q.rank = t.precedence.rank
    · exact Precedence.rank_injective heq ▸ h
    · have hn := ne_number_of_le hf
      exact (h.builds.loosen (by rw [rank_tighter hn]; omega)).heads hn

variable {ls ls' : List Lexeme} {l r t : Expr}

theorem builds_group (h : ∀ rest, Derives v (.level .relation) (ls ++ .mark .closing :: rest) t
    (.mark .closing :: rest)) : Builds v .number (bracketed true ls) t := by
  intro rest _
  simpa [bracketed] using Derives.group (h rest)

theorem builds_negate (h : Builds v .number ls t) :
    Builds v .number (.mark .minus :: ls) (.negate t) :=
  fun rest hq => .negate (h rest hq)

theorem heads_factorial (h : Heads v .factorial ls t) :
    Heads v .factorial (ls ++ [.mark .factorial]) (.factorial t) := by
  intro rest u rest' hq hu
  have hq' : Quiet .power (.mark .factorial :: rest) := quiet_cons (fun q hq => by
    obtain rfl : Precedence.factorial = q := Option.some.inj hq
    decide) rest
  simpa using h _ u rest' hq' (.factorial hu)

theorem operator?_mark {op : Operator} (h : op.isRightAssociative = false) :
    op.mark.operator? = some op ∧ (Lexeme.mark op.mark).continues? = some op.precedence ∧
      op.precedence.rank < Precedence.factorial.rank := by
  cases op <;> simp_all [Operator.isRightAssociative] <;> decide

theorem heads_chain {op : Operator} (h : op.isRightAssociative = false)
    (hl : Heads v op.precedence ls l) (hr : Builds v op.precedence.tighter ls' r) :
    Heads v op.precedence (ls ++ .mark op.mark :: ls') (.binary op l r) := by
  obtain ⟨hm, hc, hf⟩ := operator?_mark h
  have hn := ne_number_of_le (Nat.le_of_lt hf)
  intro rest u rest' hq hu
  have hq' : Quiet op.precedence.tighter (.mark op.mark :: (ls' ++ rest)) :=
    quiet_cons (fun q hq => by
      cases hc.symm.trans hq
      rw [rank_tighter hn]
      exact Nat.lt_succ_self _) _
  simpa using hl _ u rest' hq' (.operation hm rfl (hr rest hq) hu)

theorem builds_power (hl : Builds v .number ls l) (hr : Builds v .power ls' r) :
    Builds v .power (ls ++ .mark .power :: ls') (.binary .pow l r) := by
  intro rest hq
  have hp : Precedence.power ≠ .number := by decide
  have hd := Derives.level hp (hl _ (quiet_number _)) (.power (hr rest hq))
  simpa using hd

theorem admits_define {name : String} (hf : ∀ f, v.meaning name ≠ .function f) :
    v.Admits name (some (.mark .define)) := by
  unfold Vocabulary.Admits
  cases hm : v.meaning name with
  | function f => exact hf f hm
  | constant => trivial
  | unknown => exact fun _ => rfl

theorem heads_define {name : String} (hf : ∀ f, v.meaning name ≠ .function f)
    (h : Builds v .addition ls t) :
    Heads v .relation (.name name :: .mark .define :: ls) (.define name t) := by
  intro rest u rest' hq hu
  have hq' : Quiet .addition (.mark .define :: (ls ++ rest)) := quiet_cons (fun q hq => by
    obtain rfl : Precedence.relation = q := Option.some.inj hq
    decide) _
  have hn := (Derives.symbol (admits_define hf)).loosen (p := .addition) (by decide) hq'
  exact .level (by decide) hn (.definition (h rest hq) hu)

theorem builds_call {name : String} {f : Function} (hf : v.meaning name = .function f)
    (h : ∀ rest, Derives v (.arguments ⟨name, f, none, []⟩) (ls ++ .mark .closing :: rest) t
      (.mark .closing :: rest)) :
    Builds v .number (.name name :: bracketed true ls) t := by
  intro rest _
  have hd := Derives.call hf (by simp) (.bracketed (h rest))
  simpa [bracketed] using hd

def raised (t : Expr) : Option Expr → Expr
  | some e => .binary .pow t e
  | none => t

def Pending.tree (c : Pending) : Expr :=
  raised (.call c.name (some c.function) c.arguments) c.exponent

theorem Pending.complete_eq (c : Pending) (t : Expr) : c.complete t = (c.push t).tree := rfl

def Pending.pushAll (c : Pending) (ts : List Expr) : Pending :=
  { c with arguments := c.arguments ++ ts }

theorem Pending.pushAll_cons (c : Pending) (t : Expr) (ts : List Expr) :
    c.pushAll (t :: ts) = (c.push t).pushAll ts := by
  simp only [pushAll, push, List.append_assoc, List.singleton_append]

theorem Derives.call_arguments {parts : List (List Lexeme × Expr)} (hn : parts ≠ [])
    (h : ∀ q ∈ parts, Builds v .relation q.1 q.2) (c : Pending) (rest : List Lexeme) :
    Derives v (.arguments c) (commas (parts.map Prod.fst) ++ .mark .closing :: rest)
      (c.pushAll (parts.map Prod.snd)).tree (.mark .closing :: rest) := by
  induction parts generalizing c with
  | nil => exact absurd rfl hn
  | cons q parts ih =>
    obtain ⟨hq, hparts⟩ := List.forall_mem_cons.1 h
    cases parts with
    | nil =>
      rw [List.map_singleton, List.map_singleton, commas_singleton]
      exact .last (hq _ (quiet_of_none rfl rest)) nofun
    | cons q' parts =>
      have hrest := ih (List.cons_ne_nil _ _) hparts (c.push q.2)
      simp only [List.map_cons] at hrest ⊢
      rw [commas_cons_cons, Pending.pushAll_cons, List.append_assoc]
      exact .more (hq _ (quiet_of_none rfl _)) hrest

theorem Spans.group (h : Spans v t) : Builds v .number (bracketed true t.spelled) t.unsigned :=
  builds_group fun rest => h.builds .relation (Nat.zero_le _) _ (quiet_of_none rfl rest)

theorem Spans.wrap (h : Spans v t) {wrapped : Bool} {p : Precedence}
    (hp : wrapped = false → p.rank ≤ t.precedence.rank) :
    Builds v p (bracketed wrapped t.spelled) t.unsigned := by
  cases wrapped with
  | true => exact h.group.loosen (rank_le_number p)
  | false => exact h.builds p (hp rfl)

theorem Spans.wrap_heads (h : Spans v t) {wrapped : Bool} {p : Precedence}
    (hp : wrapped = false → p.rank ≤ t.precedence.rank) (hf : p.rank ≤ Precedence.factorial.rank) :
    Heads v p (bracketed wrapped t.spelled) t.unsigned := by
  cases wrapped with
  | true =>
    exact (h.group.loosen (rank_le_number _)).heads (ne_number_of_le hf)
  | false => exact h.heads p (hp rfl) hf

theorem isWrapped_eq_false {p : Precedence} {level : Bool}
    (h : t.isWrapped p level = false) :
    p.rank ≤ t.precedence.rank ∧ (level = true → p.rank < t.precedence.rank) := by
  simp only [Expr.isWrapped, Bool.or_eq_false_iff, decide_eq_false_iff_not, Nat.not_lt,
    Bool.and_eq_false_iff, beq_eq_false_iff_ne] at h
  refine ⟨h.1, fun hl => Nat.lt_of_le_of_ne h.1 fun heq => ?_⟩
  rcases h.2 with hl' | hne
  · simp [hl] at hl'
  · exact hne (Precedence.rank_injective heq).symm

theorem Spans.operand (h : Spans v t) (p : Precedence) :
    Builds v p (bracketed (t.isWrapped p false) t.spelled) t.unsigned :=
  h.wrap fun hw => (isWrapped_eq_false hw).1

theorem Spans.tight_operand (h : Spans v t) {p : Precedence} (hp : p ≠ .number) :
    Builds v p.tighter (bracketed (t.isWrapped p true) t.spelled) t.unsigned :=
  h.wrap fun hw => by
    rw [rank_tighter hp]
    exact (isWrapped_eq_false hw).2 rfl

theorem Spans.left_operand (h : Spans v t) {p : Precedence}
    (hp : p.rank ≤ Precedence.factorial.rank) :
    Heads v p (bracketed (t.isWrapped p false) t.spelled) t.unsigned :=
  h.wrap_heads (fun hw => (isWrapped_eq_false hw).1) hp

theorem spans_chain {op : Operator} (h : op.isRightAssociative = false) (hl : Spans v l)
    (hr : Spans v r) : Spans v (.binary op l r) := by
  obtain ⟨-, -, hf⟩ := operator?_mark h
  have hn := ne_number_of_le (Nat.le_of_lt hf)
  have hd := heads_chain h (hl.left_operand (Nat.le_of_lt hf)) (hr.tight_operand hn)
  refine spans_of_heads (p := op.precedence) rfl ?_
  simpa only [Expr.spelled, Expr.unsigned, h, Bool.not_false] using hd

theorem spans_power (hl : Spans v l) (hr : Spans v r) : Spans v (.binary .pow l r) := by
  have hd := builds_power (hl.tight_operand (p := .power) (by decide)) (hr.operand .power)
  refine spans_of_builds (p := .power) rfl (by decide) ?_
  rw [Expr.spelled]
  exact hd

theorem spans_factorial (ht : Spans v t) : Spans v (.factorial t) :=
  spans_of_heads (p := .factorial) rfl (heads_factorial (ht.left_operand (Nat.le_refl _)))

theorem spans_negate (ht : Spans v t) : Spans v (.negate t) :=
  spans_of_builds (p := .number) rfl (by decide) (builds_negate (ht.operand .number))

theorem spans_number {z : Number} (hz : z.IsLiteral) : Spans v (.number z) := by
  refine spans_of_builds (p := .number) rfl (by decide) fun rest hq => ?_
  rw [Expr.unsigned, hz.unsigned_eq]
  exact .number

theorem spans_symbol {name : String} (hf : ∀ f, v.meaning name ≠ .function f)
    (hs : v.isStrict = true → v.meaning name ≠ .unknown) : Spans v (.symbol name) := by
  refine spans_of_builds (p := .number) rfl (by decide) fun rest hq => .symbol ?_
  unfold Vocabulary.Admits
  cases hm : v.meaning name with
  | function f => exact hf f hm
  | constant => trivial
  | unknown => exact fun h => absurd hm (hs h)

theorem spans_define {name : String} (hf : ∀ f, v.meaning name ≠ .function f) (ht : Spans v t) :
    Spans v (.define name t) :=
  spans_of_heads (p := .relation) rfl
    (heads_define hf (ht.tight_operand (p := .relation) (by decide)))

theorem unsignedAll_eq_map (ts : List Expr) : Expr.unsignedAll ts = ts.map Expr.unsigned := by
  induction ts with
  | nil => rfl
  | cons t ts ih => rw [Expr.unsignedAll, ih, List.map_cons]

theorem spans_call {name : String} {f : Function} {ts : List Expr}
    (hf : v.meaning name = .function f) (hs : ts ≠ []) (h : ∀ t ∈ ts, Spans v t) :
    Spans v (.call name (some f) ts) := by
  have hparts : ∀ q ∈ ts.map fun t => (t.spelled, t.unsigned), Builds v .relation q.1 q.2 :=
    List.forall_mem_map.2 fun t ht => (h t ht).builds .relation (Nat.zero_le _)
  have hd := builds_call hf fun rest => Derives.call_arguments (by simpa using hs) hparts _ rest
  refine spans_of_builds (p := .number) rfl (by decide) ?_
  rw [Expr.spelled, Expr.unsigned, Expr.spelledAll_eq, unsignedAll_eq_map]
  simpa [Function.comp_def, Pending.tree, Pending.pushAll, raised, bracketed] using hd

theorem spans_of_wellFormed {t : Expr} (h : t.WellFormed v) : Spans v t := by
  induction h with
  | number hz => exact spans_number hz
  | symbol hn hf hs => exact spans_symbol hf hs
  | negate ht iht => exact spans_negate iht
  | factorial ht iht => exact spans_factorial iht
  | @binary op l r hl hr ihl ihr =>
    cases hop : op.isRightAssociative with
    | false => exact spans_chain hop ihl ihr
    | true =>
      obtain rfl : op = .pow := by simpa [Operator.isRightAssociative] using hop
      exact spans_power ihl ihr
  | define hn hf ht iht => exact spans_define hf iht
  | call hn hf hs ht iht => exact spans_call hf hs iht

/-- A tree before a lexeme: only in front of `:=` it need not be well formed, but as the target it
has to be a name that can be defined. -/
def Fits (v : Vocabulary) (t : Expr) (next : Option Lexeme) : Prop :=
  t.unsigned = t ∧ (t.WellFormed v ∨ next = some (.mark .define) ∧
    ∀ name, t = .symbol name → IsName name ∧ ∀ f, v.meaning name ≠ .function f)

theorem Fits.isPlain {t : Expr} {next : Option Lexeme} (h : Fits v t next)
    (hn : next ≠ some (.mark .define)) : t.IsPlain v :=
  ⟨h.2.resolve_right fun hd => hn hd.1, h.1⟩

theorem fits_of_isPlain {t : Expr} (h : t.IsPlain v) (next : Option Lexeme) : Fits v t next :=
  ⟨h.2, .inl h.1⟩

theorem Fits.symbol {name : String} {next : Option Lexeme} (h : Fits v (.symbol name) next) :
    IsName name ∧ ∀ f, v.meaning name ≠ .function f := by
  rcases h.2 with h | ⟨-, h⟩
  · cases h with
    | symbol hn hf hs => exact ⟨hn, hf⟩
  · exact h name rfl

theorem fits_symbol {name : String} {next : Option Lexeme} (hn : IsName name)
    (h : v.Admits name next) : Fits v (.symbol name) next := by
  refine ⟨rfl, ?_⟩
  simp only [Vocabulary.Admits] at h
  cases hm : v.meaning name with
  | function f =>
    rw [hm] at h
    exact h.elim
  | constant => exact .inl (.symbol hn (by simp [hm]) (by simp [hm]))
  | unknown =>
    rw [hm] at h
    cases hs : v.isStrict with
    | false => exact .inl (.symbol hn (by simp [hm]) (by simp [hs]))
    | true =>
      refine .inr ⟨h hs, fun other ho => ?_⟩
      cases ho
      exact ⟨hn, by simp [hm]⟩

theorem Fits.map {t u : Expr} {next : Option Lexeme} (h : Fits v t next)
    (hu : t.unsigned = t → u.unsigned = u) (hw : t.WellFormed v → u.WellFormed v)
    (hn : ∀ name, u ≠ .symbol name) : Fits v u next :=
  ⟨hu h.1, h.2.imp hw fun hd => ⟨hd.1, fun name he => absurd he (hn name)⟩⟩

structure Pending.IsPlain (v : Vocabulary) (c : Pending) : Prop where
  name : IsName c.name
  function : v.meaning c.name = .function c.function
  exponent : ∀ e ∈ c.exponent, e.IsPlain v
  arguments : ∀ t ∈ c.arguments, t.IsPlain v

theorem Pending.IsPlain.push {c : Pending} {t : Expr} (h : c.IsPlain v) (ht : t.IsPlain v) :
    (c.push t).IsPlain v where
  name := h.name
  function := h.function
  exponent := h.exponent
  arguments u hu := by
    rcases List.mem_append.1 hu with hu | hu
    · exact h.arguments u hu
    · exact List.mem_singleton.1 hu ▸ ht

theorem Pending.IsPlain.complete {c : Pending} {t : Expr} (h : c.IsPlain v)
    (ht : t.IsPlain v) : (c.complete t).IsPlain v := by
  have hall : ∀ u ∈ c.arguments ++ [t], u.IsPlain v := (h.push ht).arguments
  have hcall : Expr.IsPlain v (.call c.name (some c.function) (c.arguments ++ [t])) :=
    ⟨.call h.name h.function (by simp) fun u hu => (hall u hu).1,
      by rw [Expr.unsigned, Expr.unsignedAll_eq fun u hu => (hall u hu).2]⟩
  unfold Pending.complete
  cases he : c.exponent with
  | none => exact hcall
  | some e =>
    have hs := h.exponent e he
    exact ⟨.binary hcall.1 hs.1, by rw [Expr.unsigned, hcall.2, hs.2]⟩

theorem ne_define_of_operator? {m : Mark} {op : Operator} (h : m.operator? = some op) :
    m ≠ .define := by
  rintro rfl
  cases h

theorem Derives.head_ne_define {c : Construct} {s s' : List Lexeme} {t : Expr}
    (h : Derives v c s t s') (hc : ∀ p l, c ≠ .after p l) : s.head? ≠ some (.mark .define) := by
  induction h with
  | level hp hl ht ihl iht => exact ihl nofun
  | bare hs ht iht => exact iht nofun
  | last ht hs iht => exact iht nofun
  | more ht hu iht ihu => exact iht nofun
  | stop | operation | definition | factorial | power => exact absurd rfl (hc _ _)
  | _ => simp

/-- What a derivation says about its tree, if the lexemes are those of a text. -/
def Sound (v : Vocabulary) : Construct → List Lexeme → Expr → List Lexeme → Prop
  | .level p, _, t, s' => Fits v t s'.head? ∧ (p = .relation → s'.head? ≠ some (.mark .define))
  | .after p l, s, t, s' =>
    Fits v l s.head? → Fits v t s'.head? ∧ (p = .relation → s'.head? ≠ some (.mark .define))
  | .application c, _, t, _ | .arguments c, _, t, _ => c.IsPlain v → t.IsPlain v

theorem Derives.sound {c : Construct} {s s' : List Lexeme} {t : Expr} (h : Derives v c s t s')
    (hs : ∀ l ∈ s, l.IsRead) : (∀ l ∈ s', l.IsRead) ∧ Sound v c s t s' := by
  induction h with
  | level hp hl ht ihl iht =>
    obtain ⟨hs₁, hfits, -⟩ := ihl hs
    obtain ⟨hs₂, hafter⟩ := iht hs₁
    exact ⟨hs₂, hafter hfits⟩
  | @stop p t s hstop =>
    refine ⟨hs, fun hfits => ⟨hfits, ?_⟩⟩
    rintro rfl hd
    exact hstop _ hd rfl
  | @operation p m op l s r s₁ t s₂ hm hp hr ht ihr iht =>
    obtain ⟨-, hs⟩ := List.forall_mem_cons.1 hs
    obtain ⟨hs₁, hfits, -⟩ := ihr hs
    obtain ⟨hs₂, hafter⟩ := iht hs₁
    refine ⟨hs₂, fun hl => hafter ?_⟩
    obtain ⟨hlw, hlu⟩ := hl.isPlain (by simpa using ne_define_of_operator? hm)
    exact hfits.map (congrArg₂ (Expr.binary op) hlu) (.binary hlw) nofun
  | @definition name s r s₁ t s₂ hr ht ihr iht =>
    obtain ⟨-, hs⟩ := List.forall_mem_cons.1 hs
    obtain ⟨hs₁, hfits, -⟩ := ihr hs
    obtain ⟨hs₂, hafter⟩ := iht hs₁
    refine ⟨hs₂, fun hl => hafter ?_⟩
    obtain ⟨hn, hf⟩ := hl.symbol
    exact hfits.map (congrArg (Expr.define name)) (.define hn hf) nofun
  | factorial ht iht =>
    obtain ⟨-, hs⟩ := List.forall_mem_cons.1 hs
    obtain ⟨hs₁, hafter⟩ := iht hs
    refine ⟨hs₁, fun hl => hafter ?_⟩
    obtain ⟨hlw, hlu⟩ := hl.isPlain (by simp)
    exact fits_of_isPlain ⟨.factorial hlw, congrArg Expr.factorial hlu⟩ _
  | power he ihe =>
    obtain ⟨-, hs⟩ := List.forall_mem_cons.1 hs
    obtain ⟨hs₁, hfits, -⟩ := ihe hs
    refine ⟨hs₁, fun hb => ⟨?_, nofun⟩⟩
    obtain ⟨hbw, hbu⟩ := hb.isPlain (by simp)
    exact hfits.map (congrArg₂ (Expr.binary .pow) hbu) (.binary hbw) nofun
  | number =>
    obtain ⟨⟨n, hx⟩, hs'⟩ := List.forall_mem_cons.1 hs
    subst hx
    have hu := congrArg Expr.number (Number.unsigned_ofNat n)
    exact ⟨hs', fits_of_isPlain ⟨.number (Number.ofNat_isLiteral n), hu⟩ _, nofun⟩
  | symbol hn =>
    obtain ⟨hname, hs⟩ := List.forall_mem_cons.1 hs
    exact ⟨hs, fits_symbol hname hn, nofun⟩
  | negate ht iht =>
    obtain ⟨-, hs⟩ := List.forall_mem_cons.1 hs
    obtain ⟨hs₁, hfits, -⟩ := iht hs
    exact ⟨hs₁, hfits.map (congrArg Expr.negate) .negate nofun, nofun⟩
  | group ht iht =>
    obtain ⟨-, hs⟩ := List.forall_mem_cons.1 hs
    obtain ⟨hs₁, hfits, hd⟩ := iht hs
    obtain ⟨-, hs₁⟩ := List.forall_mem_cons.1 hs₁
    exact ⟨hs₁, fits_of_isPlain (hfits.isPlain (hd rfl)) _, nofun⟩
  | call hf hs' ht iht =>
    obtain ⟨hname, hs⟩ := List.forall_mem_cons.1 hs
    obtain ⟨hs₁, hcall⟩ := iht hs
    exact ⟨hs₁, fits_of_isPlain (hcall ⟨hname, hf, nofun, nofun⟩) _, nofun⟩
  | raised hf he ht ihe iht =>
    obtain ⟨hname, hs⟩ := List.forall_mem_cons.1 hs
    obtain ⟨-, hs⟩ := List.forall_mem_cons.1 hs
    obtain ⟨hs₁, hfits, -⟩ := ihe hs
    obtain ⟨hs₂, hcall⟩ := iht hs₁
    have hep := hfits.isPlain (ht.head_ne_define nofun)
    refine ⟨hs₂, fits_of_isPlain (hcall ⟨hname, hf, ?_, nofun⟩) _, nofun⟩
    rintro e ⟨⟩
    exact hep
  | bracketed ht iht =>
    obtain ⟨-, hs⟩ := List.forall_mem_cons.1 hs
    obtain ⟨hs₁, hcall⟩ := iht hs
    exact ⟨(List.forall_mem_cons.1 hs₁).2, hcall⟩
  | bare hs' ht iht => exact iht hs
  | last ht hs' iht =>
    obtain ⟨hs₁, hfits, hd⟩ := iht hs
    exact ⟨hs₁, fun hc => hc.complete (hfits.isPlain (hd rfl))⟩
  | more ht hu iht ihu =>
    obtain ⟨hs₁, hfits, hd⟩ := iht hs
    obtain ⟨hs₂, hcall⟩ := ihu (List.forall_mem_cons.1 hs₁).2
    exact ⟨hs₂, fun hc => hcall (hc.push (hfits.isPlain (hd rfl)))⟩

theorem isPlain_of_parse {text : String} {t : Expr} (h : parse v text = .ok t) : t.IsPlain v := by
  obtain ⟨ls, hls, hd⟩ := parse_iff_derives.1 h
  obtain ⟨-, hfits, -⟩ := hd.sound (isRead_of_lexemes? hls)
  exact hfits.isPlain nofun

theorem parse_render {t : Expr} (h : t.WellFormed v) : parse v t.render = .ok t.unsigned := by
  refine parse_iff_derives.2 ⟨t.spelled, h.lexemes?_render, ?_⟩
  have hd := (spans_of_wellFormed h).builds .relation (Nat.zero_le _) [] (quiet_nil _)
  rwa [List.append_nil] at hd

end ComplexCalculator.Parse

namespace ComplexCalculator.Store
open Text

theorem parse_text {s : Store} {i : Nat} {text : String} {t : Expr} :
    s.parse i (.text text) = .ok t ↔ ComplexCalculator.parse (s.vocabulary i) text = .ok t := by
  simp only [parse, Source.read?_text]
  cases ComplexCalculator.parse (s.vocabulary i) text <;> simp

theorem parse_eq_ok {s : Store} {i : Nat} {source : Source} {t : Expr}
    (h : s.parse i source = .ok t) :
    ∃ text, source.read? = some text ∧ ComplexCalculator.parse (s.vocabulary i) text = .ok t := by
  unfold parse at h
  cases hr : source.read? with
  | none => simp [hr] at h
  | some text =>
    cases hp : ComplexCalculator.parse (s.vocabulary i) text <;> simp_all

/-- Every tree that is read in a scope is well formed there and is read again from its own text. And
every well formed tree is read from its text, up to the signs of zeros. -/
theorem render_parse_round_trip (s : Store) (i : Nat) :
    (∀ source t, s.parse i source = .ok t →
      t.WellFormed (s.vocabulary i) ∧ s.parse i (.text t.render) = .ok t) ∧
    ∀ t : Expr, t.WellFormed (s.vocabulary i) →
      s.parse i (.text t.render) = .ok t.unsigned ∧ t.unsigned.alike t = true := by
  refine ⟨fun source t h => ?_, fun t h => ⟨parse_text.2 (Parse.parse_render h), h.unsigned_alike⟩⟩
  obtain ⟨text, -, hp⟩ := parse_eq_ok h
  obtain ⟨hw, hu⟩ := Parse.isPlain_of_parse hp
  exact ⟨hw, parse_text.2 ((Parse.parse_render hw).trans (congrArg _ hu))⟩

theorem render_parse_round_trip_call :
    let s := (root none).defineCustom 0 "f" ["x"] (.symbol "x")
    let f := Function.custom 0 ["x"] (.symbol "x")
    let t := Expr.binary .pow (.call "f" (some f) [.negate (.symbol "x")]) (.number (.ofReal 2))
    t.WellFormed (s.vocabulary 0) ∧ s.parse 0 (.text t.render) = .ok t.unsigned := by
  intro s f t
  have hx : Expr.WellFormed (s.vocabulary 0) (.symbol "x") :=
    .symbol (isName_of_all (by decide) (by decide)) nofun nofun
  have hf : (s.vocabulary 0).meaning "f" = .function f := rfl
  have hc : Expr.WellFormed (s.vocabulary 0) (.call "f" (some f) [.negate (.symbol "x")]) :=
    .call (isName_of_all (by decide) (by decide)) hf (by simp) (by simpa using .negate hx)
  have ht : t.WellFormed (s.vocabulary 0) :=
    .binary hc (.number ⟨Number.isReal_ofReal _, .inr (by decide +kernel)⟩)
  exact ⟨ht, ((render_parse_round_trip s 0).2 t ht).1⟩

end ComplexCalculator.Store
