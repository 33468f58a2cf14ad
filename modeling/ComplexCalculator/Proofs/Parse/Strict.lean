import ComplexCalculator.Proofs.Parse.RoundTrip

/-!
# Strict reading

Strict reading is to refuse unknown names except as the targets of definitions. The roles of names
are seen in the tree, but the reader has to decide when it comes to a name, by the token behind it:
an unknown name passes before `:=` only. So a target in brackets is refused, since the bracket stands
between it and the `:=`; and this is the only difference. Strict reading gives a tree exactly when
lax reading gives it, all its symbols but the targets are known, and no unknown name stands before a
closing bracket.
-/
namespace ComplexCalculator

namespace Vocabulary
variable {v : Vocabulary}

def lax (v : Vocabulary) : Vocabulary := { v with isStrict := false }

def strict (v : Vocabulary) : Vocabulary := { v with isStrict := true }

def Knows (v : Vocabulary) (name : String) : Prop := v.meaning name ≠ .unknown

def KnowsAll (v : Vocabulary) (names : List String) : Prop := ∀ name ∈ names, v.Knows name

/-- No unknown name stands before a closing bracket. -/
def KnowsClosed (v : Vocabulary) (s : List Lexeme) : Prop :=
  ∀ name, [.name name, .mark .closing] <:+: s → v.Knows name

theorem knowsAll_append {names others : List String} :
    v.KnowsAll (names ++ others) ↔ v.KnowsAll names ∧ v.KnowsAll others :=
  List.forall_mem_append

theorem KnowsClosed.of_suffix {s s' : List Lexeme} (h : v.KnowsClosed s) (hs : s' <:+ s) :
    v.KnowsClosed s' :=
  fun name hn => h name (hn.trans hs.isInfix)

theorem knowsClosed_cons {l : Lexeme} {s : List Lexeme} :
    v.KnowsClosed (l :: s) ↔
      (∀ name, l = .name name → s.head? = some (.mark .closing) → v.Knows name) ∧
        v.KnowsClosed s := by
  have hfront (name : String) : [.name name, .mark .closing] <+: l :: s ↔
      l = .name name ∧ s.head? = some (.mark .closing) := by
    cases s <;> simp [List.cons_prefix_cons, eq_comm]
  simp only [KnowsClosed, List.infix_cons_iff, hfront, or_imp, and_imp, forall_and]

theorem KnowsClosed.tail {l : Lexeme} {s : List Lexeme} (h : v.KnowsClosed (l :: s)) :
    v.KnowsClosed s :=
  h.of_suffix (List.suffix_cons _ _)

theorem KnowsClosed.cons {l : Lexeme} {s : List Lexeme} (h : v.KnowsClosed s)
    (hl : ∀ name, l ≠ .name name) : v.KnowsClosed (l :: s) :=
  knowsClosed_cons.2 ⟨fun name hn => absurd hn (hl name), h⟩

theorem KnowsClosed.cons_function {name : String} {f : Function} {s : List Lexeme}
    (h : v.KnowsClosed s) (hf : v.meaning name = .function f) : v.KnowsClosed (.name name :: s) := by
  refine knowsClosed_cons.2 ⟨?_, h⟩
  rintro _ ⟨⟩ - hu
  cases hu.symm.trans hf

theorem knowsClosed_nil : v.KnowsClosed [] :=
  fun name hn => by cases List.infix_nil.1 hn

theorem knowsClosed_concat_ending {s : List Lexeme} :
    v.KnowsClosed (s ++ [.ending]) ↔ v.KnowsClosed s := by
  constructor
  · exact fun h name hn => h name (hn.trans (List.prefix_append _ _).isInfix)
  · intro h name hn
    rcases List.infix_concat_iff.1 hn with ⟨r, hr⟩ | hinfix
    · have hlast := congrArg List.getLast? hr
      simp at hlast
    · exact h name hinfix

theorem admits_lax {name : String} {next : Option Lexeme} :
    v.lax.Admits name next ↔ ∀ f, v.meaning name ≠ .function f := by
  cases hm : v.meaning name <;> simp [Admits, lax, hm]

theorem admits_strict {name : String} {next : Option Lexeme} :
    v.strict.Admits name next ↔
      (∀ f, v.meaning name ≠ .function f) ∧ (v.Knows name ∨ next = some (.mark .define)) := by
  cases hm : v.meaning name <;> simp [Admits, strict, Knows, hm]

end Vocabulary

namespace Expr

mutual
def symbols : Expr → List String
  | .number _ => []
  | .symbol name => [name]
  | .negate t => t.symbols
  | .factorial t => t.symbols
  | .binary _ l r => l.symbols ++ r.symbols
  | .define _ t => t.symbols
  | .call _ _ ts => symbolsAll ts

def symbolsAll : List Expr → List String
  | [] => []
  | t :: ts => t.symbols ++ symbolsAll ts
end

theorem forall_mem_symbolsAll {p : String → Prop} {ts : List Expr} :
    (∀ name ∈ symbolsAll ts, p name) ↔ ∀ t ∈ ts, ∀ name ∈ t.symbols, p name := by
  induction ts with
  | nil => simp [symbolsAll]
  | cons t ts ih => rw [symbolsAll, List.forall_mem_append, ih, List.forall_mem_cons]

theorem knowsAll_symbolsAll {v : Vocabulary} {ts : List Expr} :
    v.KnowsAll (symbolsAll ts) ↔ ∀ t ∈ ts, v.KnowsAll t.symbols :=
  forall_mem_symbolsAll

theorem WellFormed.symbols {v : Vocabulary} {t : Expr} (h : t.WellFormed v) :
    ∀ name ∈ t.symbols,
      (∀ f, v.meaning name ≠ .function f) ∧ (v.isStrict = true → v.Knows name) := by
  induction h with
  | number hz => exact List.forall_mem_nil _
  | symbol hn hf hs => exact List.forall_mem_singleton.2 ⟨hf, hs⟩
  | negate ht iht => exact iht
  | factorial ht iht => exact iht
  | binary hl hr ihl ihr => exact List.forall_mem_append.2 ⟨ihl, ihr⟩
  | define hn hf ht iht => exact iht
  | call hn hf hs ht iht => exact forall_mem_symbolsAll.2 iht

end Expr

namespace Parse

variable {v : Vocabulary} {c : Construct} {p : Precedence} {s s' : List Lexeme} {t : Expr}

def Pending.symbols (c : Pending) : List String :=
  (c.exponent.map Expr.symbols).getD [] ++ Expr.symbolsAll c.arguments

theorem Pending.knowsAll_push {c : Pending} :
    v.KnowsAll (c.push t).symbols ↔ v.KnowsAll c.symbols ∧ v.KnowsAll t.symbols := by
  simp only [symbols, push, Vocabulary.knowsAll_append, Expr.knowsAll_symbolsAll,
    List.forall_mem_append, List.forall_mem_singleton, and_assoc]

theorem Pending.knowsAll_complete {c : Pending} :
    v.KnowsAll (c.complete t).symbols ↔ v.KnowsAll c.symbols ∧ v.KnowsAll t.symbols := by
  cases he : c.exponent with
  | none =>
    simp only [complete, symbols, he, Option.map_none, Option.getD_none, List.nil_append,
      Expr.symbols, Expr.knowsAll_symbolsAll, List.forall_mem_append, List.forall_mem_singleton]
  | some e =>
    simp only [complete, symbols, he, Option.map_some, Option.getD_some, Expr.symbols,
      Vocabulary.knowsAll_append, Expr.knowsAll_symbolsAll, List.forall_mem_append,
      List.forall_mem_singleton]
    tauto

theorem Pending.complete_ne_symbol {c : Pending} {name : String} : c.complete t ≠ .symbol name := by
  cases he : c.exponent <;> simp [complete, he]

def Construct.Spells (name : String) : Construct → List Lexeme → List Lexeme → Prop
  | .level _, s, s' => s = .name name :: s' ∨ [.name name, .mark .closing] <:+: s
  | .after _ l, s, s' => l = .symbol name ∧ s = s'
  | .application _, _, _ | .arguments _, _, _ => False

theorem Derives.spells {name : String} (h : Derives v c s (.symbol name) s') :
    c.Spells name s s' := by
  generalize ht : Expr.symbol name = t at h
  induction h with
  | level hp hl ht' ihl iht =>
    obtain ⟨rfl, rfl⟩ := iht ht
    exact ihl rfl
  | stop hs => exact ⟨ht.symm, rfl⟩
  | operation hm hp hr ht' ihr iht => cases (iht ht).1
  | definition hr ht' ihr iht => cases (iht ht).1
  | factorial ht' iht => cases (iht ht).1
  | power he ihe => cases ht
  | number => cases ht
  | symbol hn =>
    cases ht
    exact .inl rfl
  | negate ht' iht => cases ht
  | @group s t s₁ ht' iht =>
    rcases iht ht with rfl | hinfix
    · exact .inr ⟨[.mark .opening], s₁, rfl⟩
    · exact .inr (List.infix_cons hinfix)
  | call hf hs ht' iht => exact (iht ht).elim
  | raised hf he ht' ihe iht => exact (iht ht).elim
  | bracketed ht' iht => exact iht ht
  | bare hs ht' iht => exact iht ht
  | last ht' hs iht => exact absurd ht.symm Pending.complete_ne_symbol
  | more ht' hu iht ihu => exact ihu ht

/-- The symbols of a tree are known, or it is the target of a definition that is ahead. -/
def Passes (v : Vocabulary) (t : Expr) (s : List Lexeme) : Prop :=
  v.KnowsAll t.symbols ∨ ∃ name, t = .symbol name ∧ s.head? = some (.mark .define)

theorem Passes.knowsAll (h : Passes v t s) (ht : ∀ name, t ≠ .symbol name) :
    v.KnowsAll t.symbols := by
  rcases h with h | ⟨name, rfl, -⟩
  · exact h
  · exact absurd rfl (ht name)

def Construct.Passes (v : Vocabulary) : Construct → List Lexeme → Prop
  | .level _, _ => True
  | .after _ l, s => Parse.Passes v l s
  | .application c, _ | .arguments c, _ => v.KnowsAll c.symbols

theorem Derives.passes (h : Derives v c s t s') (ht : Passes v t s') : c.Passes v s := by
  induction h with
  | stop hs => exact ht
  | operation hm hp hr ht' ihr iht =>
    exact .inl (Vocabulary.knowsAll_append.1 ((iht ht).knowsAll nofun)).1
  | definition hr ht' ihr iht => exact .inr ⟨_, rfl, rfl⟩
  | factorial ht' iht => exact .inl ((iht ht).knowsAll nofun)
  | power he ihe => exact .inl (Vocabulary.knowsAll_append.1 (ht.knowsAll nofun)).1
  | bracketed ht' iht => exact iht (.inl (ht.knowsAll fun name hn => (hn ▸ ht').spells))
  | bare hs ht' iht => exact iht ht
  | last ht' hs iht =>
    exact (Pending.knowsAll_complete.1 (ht.knowsAll fun _ => Pending.complete_ne_symbol)).1
  | more ht' hu iht ihu => exact (Pending.knowsAll_push.1 (ihu ht)).1
  | level | number | symbol | negate | group | call | raised => trivial

theorem Derives.knowsAll_of_closing {w : Vocabulary}
    (h : Derives w (.level p) s t (.mark .closing :: s')) (hs : v.KnowsClosed s)
    (ht : Passes v t s') : v.KnowsAll t.symbols := by
  rcases ht with ht | ⟨name, rfl, -⟩
  · exact ht
  · have hname : [Lexeme.name name, .mark .closing] <:+: s := by
      rcases h.spells with rfl | hinfix
      · exact ⟨[], s', rfl⟩
      · exact hinfix
    exact List.forall_mem_singleton.2 (hs name hname)

theorem Derives.strict (h : Derives v.lax c s t s') (hs : v.KnowsClosed s) (ht : Passes v t s') :
    Derives v.strict c s t s' := by
  induction h with
  | level hp hl ht' ihl iht =>
    exact .level hp (ihl hs (ht'.passes ht)) (iht (hs.of_suffix hl.suffix) ht)
  | stop hs' => exact .stop hs'
  | operation hm hp hr ht' ihr iht =>
    have hknown := Vocabulary.knowsAll_append.1 ((ht'.passes ht).knowsAll nofun)
    exact .operation hm hp (ihr hs.tail (.inl hknown.2)) (iht (hs.tail.of_suffix hr.suffix) ht)
  | definition hr ht' ihr iht =>
    have hknown := (ht'.passes ht).knowsAll nofun
    exact .definition (ihr hs.tail (.inl hknown)) (iht (hs.tail.of_suffix hr.suffix) ht)
  | factorial ht' iht => exact .factorial (iht hs.tail ht)
  | power he ihe =>
    have hknown := Vocabulary.knowsAll_append.1 (ht.knowsAll nofun)
    exact .power (ihe hs.tail (.inl hknown.2))
  | number => exact .number
  | symbol hn =>
    refine .symbol (Vocabulary.admits_strict.2 ⟨Vocabulary.admits_lax.1 hn, ?_⟩)
    exact ht.imp (fun h => h _ List.mem_cons_self) fun ⟨_, _, h⟩ => h
  | negate ht' iht => exact .negate (iht hs.tail (.inl (ht.knowsAll nofun)))
  | group ht' iht => exact .group (iht hs.tail (.inl (ht'.knowsAll_of_closing hs.tail ht)))
  | call hf hs' ht' iht => exact .call hf hs' (iht hs.tail ht)
  | raised hf he ht' ihe iht =>
    have hknown := Vocabulary.knowsAll_append.1 (ht'.passes ht)
    exact .raised hf (ihe hs.tail.tail (.inl hknown.1))
      (iht (hs.tail.tail.of_suffix he.suffix) ht)
  | bracketed ht' iht =>
    have hknown := ht.knowsAll fun name hn => (hn ▸ ht').spells
    exact .bracketed (iht hs.tail (.inl hknown))
  | bare hs' ht' iht => exact .bare hs' (iht hs ht)
  | last ht' hs' iht =>
    have hknown := Pending.knowsAll_complete.1 (ht.knowsAll fun _ => Pending.complete_ne_symbol)
    exact .last (iht hs (.inl hknown.2)) hs'
  | more ht' hu iht ihu =>
    have hknown := Pending.knowsAll_push.1 (hu.passes ht)
    have hrest := (hs.of_suffix ht'.suffix).tail
    exact .more (iht hs (.inl hknown.2)) (ihu hrest ht)

theorem Derives.lax (h : Derives v.strict c s t s') : Derives v.lax c s t s' := by
  induction h with
  | level hp hl ht ihl iht => exact .level hp ihl iht
  | stop hs => exact .stop hs
  | operation hm hp hr ht ihr iht => exact .operation hm hp ihr iht
  | definition hr ht ihr iht => exact .definition ihr iht
  | factorial ht iht => exact .factorial iht
  | power he ihe => exact .power ihe
  | number => exact .number
  | symbol hn => exact .symbol (Vocabulary.admits_lax.2 (Vocabulary.admits_strict.1 hn).1)
  | negate ht iht => exact .negate iht
  | group ht iht => exact .group iht
  | call hf hs ht iht => exact .call hf hs iht
  | raised hf he ht ihe iht => exact .raised hf ihe iht
  | bracketed ht iht => exact .bracketed iht
  | bare hs ht iht => exact .bare hs iht
  | last ht hs iht => exact .last iht hs
  | more ht hu iht ihu => exact .more iht ihu

theorem Derives.knowsClosed (h : Derives v.strict c s t s') (hs : v.KnowsClosed s') :
    v.KnowsClosed s := by
  induction h with
  | level hp hl ht ihl iht => exact ihl (iht hs)
  | stop _ => exact hs
  | operation hm hp hr ht ihr iht => exact (ihr (iht hs)).cons nofun
  | definition hr ht ihr iht => exact (ihr (iht hs)).cons nofun
  | factorial ht iht => exact (iht hs).cons nofun
  | power he ihe => exact (ihe hs).cons nofun
  | number => exact hs.cons nofun
  | symbol hn =>
    refine Vocabulary.knowsClosed_cons.2 ⟨?_, hs⟩
    rintro name ⟨⟩ hclosing
    rcases (Vocabulary.admits_strict.1 hn).2 with hknown | hdefine
    · exact hknown
    · cases hclosing.symm.trans hdefine
  | negate ht iht => exact (iht hs).cons nofun
  | group ht iht => exact (iht (hs.cons nofun)).cons nofun
  | call hf _ ht iht => exact (iht hs).cons_function hf
  | raised hf he ht ihe iht =>
    exact Vocabulary.KnowsClosed.cons_function ((ihe (iht hs)).cons nofun) hf
  | bracketed ht iht => exact (iht (hs.cons nofun)).cons nofun
  | bare _ ht iht => exact iht hs
  | last ht _ iht => exact iht hs
  | more ht hu iht ihu => exact iht ((ihu hs).cons nofun)

theorem knowsAll_of_wellFormed (h : t.WellFormed v.strict) : v.KnowsAll t.symbols :=
  fun name hname => (h.symbols name hname).2 rfl

/-- Strict reading gives a tree exactly when lax reading gives it, all its symbols but the targets of
definitions are known, and no unknown name of the text stands before a closing bracket. -/
theorem parse_strict_iff (v : Vocabulary) (text : String) (t : Expr) :
    parse v.strict text = .ok t ↔
      parse v.lax text = .ok t ∧ v.KnowsAll t.symbols ∧
        v.KnowsClosed ((Stream.ofString text).tokens.map Token.lexeme) := by
  constructor
  · intro h
    obtain ⟨ls, hls, hd⟩ := parse_iff_derives.1 h
    have hclosed : v.KnowsClosed ls := hd.knowsClosed Vocabulary.knowsClosed_nil
    rw [Stream.map_lexeme_tokens hls, Vocabulary.knowsClosed_concat_ending]
    exact ⟨parse_iff_derives.2 ⟨ls, hls, hd.lax⟩, knowsAll_of_wellFormed (isPlain_of_parse h).1,
      hclosed⟩
  · rintro ⟨h, ht, hclosed⟩
    obtain ⟨ls, hls, hd⟩ := parse_iff_derives.1 h
    rw [Stream.map_lexeme_tokens hls, Vocabulary.knowsClosed_concat_ending] at hclosed
    exact parse_iff_derives.2 ⟨ls, hls, hd.strict hclosed (.inl ht)⟩

theorem bracketed_target_is_refused :
    let v : Vocabulary := ⟨fun _ => .unknown, false⟩
    let t := Expr.define "x" (.number (.ofReal (Binary64.ofNat 3)))
    parse v.lax "(x) := 3" = .ok t ∧ (∀ name ∈ t.symbols, v.meaning name ≠ .unknown) ∧
      parse v.strict "(x) := 3" = .error (.unknown "x" 1) := by
  intro v t
  have hs : Stream.ofString "(x) := 3" =
      .token ⟨.mark .opening, 0⟩ (.token ⟨.name "x", 1⟩ (.token ⟨.mark .closing, 2⟩
        (.token ⟨.mark .define, 4⟩ (.token ⟨.number (Binary64.ofNat 3), 7⟩ (.ending 8))))) := by
    decide +kernel
  simp only [parse, hs]
  exact ⟨rfl, List.forall_mem_nil _, rfl⟩

end Parse
end ComplexCalculator
