import ComplexCalculator.Proofs.Number.Literal
import ComplexCalculator.Proofs.Token.Lexemes

/-!
# The spelling of a tree

A tree is well formed for a vocabulary when its literals are natural or infinite, its names are
names that mean what their places need, and its calls hold the functions that their names mean. The
text of such a tree consists of the lexemes of its spelling: no two neighbours run together,
whatever follows, unless it begins with a letter or a digit.
-/
namespace ComplexCalculator
namespace Expr

inductive WellFormed (v : Vocabulary) : Expr → Prop
  | number {z} (hz : z.IsLiteral) : WellFormed v (.number z)
  | symbol {name} (hn : IsName name) (hf : ∀ f, v.meaning name ≠ .function f)
      (hs : v.isStrict = true → v.meaning name ≠ .unknown) : WellFormed v (.symbol name)
  | negate {t} (ht : WellFormed v t) : WellFormed v (.negate t)
  | factorial {t} (ht : WellFormed v t) : WellFormed v (.factorial t)
  | binary {op l r} (hl : WellFormed v l) (hr : WellFormed v r) : WellFormed v (.binary op l r)
  /-- The target may be unknown, also to strict reading. -/
  | define {name t} (hn : IsName name) (hf : ∀ f, v.meaning name ≠ .function f)
      (ht : WellFormed v t) : WellFormed v (.define name t)
  | call {name f ts} (hn : IsName name) (hf : v.meaning name = .function f) (hs : ts ≠ [])
      (ht : ∀ t ∈ ts, WellFormed v t) : WellFormed v (.call name (some f) ts)

mutual
def unsigned : Expr → Expr
  | .number z => .number z.unsigned
  | .symbol name => .symbol name
  | .negate t => .negate t.unsigned
  | .factorial t => .factorial t.unsigned
  | .binary op l r => .binary op l.unsigned r.unsigned
  | .define name t => .define name t.unsigned
  | .call name f ts => .call name f (unsignedAll ts)

def unsignedAll : List Expr → List Expr
  | [] => []
  | t :: ts => t.unsigned :: unsignedAll ts
end

def IsPlain (v : Vocabulary) (t : Expr) : Prop := t.WellFormed v ∧ t.unsigned = t

theorem unsignedAll_eq {ts : List Expr} (h : ∀ t ∈ ts, t.unsigned = t) : unsignedAll ts = ts := by
  induction ts with
  | nil => rfl
  | cons t ts ih =>
    obtain ⟨ht, hts⟩ := List.forall_mem_cons.1 h
    rw [unsignedAll, ht, ih hts]

theorem alikeAll_unsigned {ts : List Expr} (h : ∀ t ∈ ts, t.unsigned.alike t = true) :
    alikeAll (unsignedAll ts) ts = true := by
  induction ts with
  | nil => rfl
  | cons t ts ih =>
    obtain ⟨ht, hts⟩ := List.forall_mem_cons.1 h
    simp only [unsignedAll, alikeAll, ht, ih hts, Bool.and_self]

theorem WellFormed.unsigned_alike {v : Vocabulary} {t : Expr} (h : t.WellFormed v) :
    t.unsigned.alike t = true := by
  induction h with
  | number hz => exact hz.unsigned_equals
  | symbol => exact beq_self_eq_true _
  | negate ht iht => exact iht
  | factorial ht iht => exact iht
  | binary hl hr ihl ihr => simp only [unsigned, alike, beq_self_eq_true, ihl, ihr, Bool.and_self]
  | define hn hf ht iht => simp only [unsigned, alike, beq_self_eq_true, iht, Bool.and_self]
  | call hn hf hs ht iht =>
    simp only [unsigned, alike, beq_self_eq_true, alikeAll_unsigned iht, Bool.and_self]

end Expr

def Operator.mark : Operator → Mark
  | .add => .plus
  | .sub => .minus
  | .mul => .times
  | .div => .over
  | .pow => .power
  | .equal => .equal
  | .less => .less

def bracketed (wrapped : Bool) (ls : List Lexeme) : List Lexeme :=
  if wrapped then .mark .opening :: ls ++ [.mark .closing] else ls

namespace Expr

mutual
def spelled : Expr → List Lexeme
  | .number z => [.number z.unsigned.re]
  | .symbol name => [.name name]
  | .negate t => .mark .minus :: bracketed (t.isWrapped .number false) t.spelled
  | .factorial t => bracketed (t.isWrapped .factorial false) t.spelled ++ [.mark .factorial]
  | .binary op l r =>
    bracketed (l.isWrapped op.precedence op.isRightAssociative) l.spelled ++ .mark op.mark ::
      bracketed (r.isWrapped op.precedence (!op.isRightAssociative)) r.spelled
  | .define name t =>
    .name name :: .mark .define :: bracketed (t.isWrapped .relation true) t.spelled
  | .call name _ ts => .name name :: .mark .opening :: spelledAll ts ++ [.mark .closing]

def spelledAll : List Expr → List Lexeme
  | [] => []
  | [t] => t.spelled
  | t :: ts => t.spelled ++ .mark .comma :: spelledAll ts
end

end Expr

def IsSeam (cs : List Char) : Prop := ∀ c ∈ cs.head?, c.isDigit = false ∧ c.isAlpha = false

theorem isSeam_nil : IsSeam [] := nofun

theorem isSeam_cons {c : Char} (h : c.isDigit = false ∧ c.isAlpha = false) (cs : List Char) :
    IsSeam (c :: cs) := by
  rintro d ⟨⟩
  exact h

/-- The text has these lexemes, whatever follows beyond a seam. -/
def Spells (text : String) (ls : List Lexeme) : Prop :=
  ∀ cs rest, IsSeam cs → lexemes? cs = some rest → lexemes? (text.toList ++ cs) = some (ls ++ rest)

theorem Spells.lexemes? {text : String} {ls : List Lexeme} (h : Spells text ls) :
    lexemes? text.toList = some ls := by
  have hs := h [] [] isSeam_nil lexemes?_nil
  rwa [List.append_nil, List.append_nil] at hs

theorem lexemes?_cons_mark {m : Mark} {cs : List Char} {rest : List Lexeme}
    (h : Mark.read? (m.spelling.toList ++ cs) = some m) (hc : lexemes? cs = some rest) :
    lexemes? (m.spelling.toList ++ cs) = some (.mark m :: rest) := by
  rw [lexemes?_mark h, hc]
  rfl

theorem spells_name {name : String} (h : IsName name) : Spells name [.name name] := by
  intro cs rest hs hc
  rw [lexemes?_name h fun c hcs => (hs c hcs).2, hc]
  rfl

theorem spells_literal {z : Number} (h : z.IsLiteral) :
    Spells (z.text none) [.number z.unsigned.re] := by
  intro cs rest hs hc
  have hd := h.digits
  rw [lexemes?_digits hd.ne_nil hd.isDigit fun c hcs => (hs c hcs).1, hc, hd.value]
  rfl

theorem lexemes?_symbol (op : Operator) {cs : List Char} {rest : List Lexeme}
    (hc : lexemes? cs = some rest) :
    lexemes? (' ' :: op.symbol.toList ++ ' ' :: cs) = some (.mark op.mark :: rest) := by
  have hb : lexemes? (' ' :: cs) = some rest := (lexemes?_blank rfl cs).trans hc
  rw [List.cons_append, lexemes?_blank rfl]
  have hm : op.symbol = op.mark.spelling := by cases op <;> rfl
  rw [hm]
  exact lexemes?_cons_mark (by cases op <;> rfl) hb

theorem lexemes?_bracketed {us cs : List Char} {ls rest : List Lexeme}
    (hc : lexemes? cs = some rest)
    (h : ∀ r, lexemes? (')' :: cs) = some r → lexemes? (us ++ ')' :: cs) = some (ls ++ r)) :
    lexemes? ('(' :: (us ++ ')' :: cs)) = some (bracketed true ls ++ rest) := by
  have hclosing : lexemes? (')' :: cs) = some (.mark .closing :: rest) :=
    lexemes?_cons_mark (m := .closing) rfl hc
  have hopening : lexemes? ('(' :: (us ++ ')' :: cs)) = some (.mark .opening :: _) :=
    lexemes?_cons_mark (m := .opening) rfl (h _ hclosing)
  simpa [bracketed] using hopening

def commas (lss : List (List Lexeme)) : List Lexeme := [Lexeme.mark .comma].intercalate lss

theorem commas_singleton (ls : List Lexeme) : commas [ls] = ls := List.intercalate_singleton

theorem commas_cons_cons (ls ls' : List Lexeme) (lss : List (List Lexeme)) :
    commas (ls :: ls' :: lss) = ls ++ .mark .comma :: commas (ls' :: lss) := by
  rw [commas, List.intercalate_cons_cons, List.append_assoc, List.singleton_append, commas]

theorem spells_commas {s : String} {bs : List Char} (hs : s.toList = ',' :: bs)
    (hb : ∀ b ∈ bs, Text.isBlank b = true) {parts : List (String × List Lexeme)}
    (h : ∀ q ∈ parts, Spells q.1 q.2) :
    Spells (s.intercalate (parts.map Prod.fst)) (commas (parts.map Prod.snd)) := by
  induction parts with
  | nil => exact fun cs rest _ hc => hc
  | cons q parts ih =>
    obtain ⟨hq, hparts⟩ := List.forall_mem_cons.1 h
    cases parts with
    | nil =>
      rw [List.map_singleton, List.map_singleton, String.intercalate_singleton, commas_singleton]
      exact hq
    | cons q' parts =>
      intro cs rest hseam hc
      have hrest := (lexemes?_blanks hb _).trans (ih hparts cs rest hseam hc)
      have hm : lexemes? (',' :: (bs ++ _)) = some _ := lexemes?_cons_mark (m := .comma) rfl hrest
      have hd := hq _ _ (isSeam_cons (by decide) _) hm
      simpa [commas_cons_cons, String.intercalate_cons_cons, hs] using hd

theorem wrap_toList (wrapped : Bool) (text : String) :
    (Expr.wrap wrapped text).toList =
      if wrapped then '(' :: text.toList ++ [')'] else text.toList := by
  cases wrapped <;> simp [Expr.wrap]

theorem Spells.wrap {text : String} {ls : List Lexeme} (h : Spells text ls) (wrapped : Bool) :
    Spells (Expr.wrap wrapped text) (bracketed wrapped ls) := by
  intro cs rest hs hc
  rw [wrap_toList]
  cases wrapped with
  | false => exact h cs rest hs hc
  | true =>
    have hgroup := lexemes?_bracketed hc fun r => h (')' :: cs) r (isSeam_cons (by decide) cs)
    simpa using hgroup

namespace Expr

def Opens (text : String) : Prop := ∃ c cs, text.toList = c :: cs ∧ c ≠ '>'

theorem Opens.append {text : String} (h : Opens text) (other : String) : Opens (text ++ other) := by
  obtain ⟨c, cs, ht, hc⟩ := h
  exact ⟨c, cs ++ other.toList, by rw [String.toList_append, ht, List.cons_append], hc⟩

theorem Opens.wrap {text : String} (h : Opens text) (wrapped : Bool) :
    Opens (Expr.wrap wrapped text) := by
  cases wrapped with
  | false => exact h
  | true => exact ⟨'(', _, (wrap_toList true text).trans rfl, by decide⟩

theorem opens_name {name : String} (h : IsName name) : Opens name := by
  rcases h with ⟨hn, ha⟩ | ⟨c, hg, hn⟩
  · cases hc : name.toList with
    | nil => exact absurd hc hn
    | cons c cs =>
      refine ⟨c, cs, hc, ?_⟩
      rintro rfl
      exact absurd (ha '>' (hc ▸ List.mem_cons_self)) (by decide)
  · refine ⟨c, [], hn, ?_⟩
    rintro rfl
    exact absurd hg (by decide)

theorem opens_literal {z : Number} (h : z.IsLiteral) : Opens (z.text none) := by
  have hd := h.digits
  cases hc : (z.text none).toList with
  | nil => exact absurd hc hd.ne_nil
  | cons c cs =>
    refine ⟨c, cs, hc, ?_⟩
    rintro rfl
    exact absurd (hd.isDigit '>' (hc ▸ List.mem_cons_self)) (by decide)

theorem WellFormed.opens {v : Vocabulary} {t : Expr} (h : t.WellFormed v) : Opens t.render := by
  induction h with
  | number hz => exact opens_literal hz
  | symbol hn hf hs => exact opens_name hn
  | negate ht iht => exact Opens.append ⟨'-', [], rfl, by decide⟩ _
  | factorial ht iht => exact (iht.wrap _).append _
  | binary hl hr ihl ihr =>
    simp only [render, String.append_assoc]
    exact (ihl.wrap _).append _
  | define hn hf ht iht =>
    simp only [render, String.append_assoc]
    exact (opens_name hn).append _
  | call hn hf hs ht iht =>
    simp only [render, String.append_assoc]
    exact (opens_name hn).append _

theorem read?_minus {text : String} (h : Opens text) (cs : List Char) :
    Mark.read? ('-' :: (text.toList ++ cs)) = some .minus := by
  obtain ⟨c, r, ht, hc⟩ := h
  rw [ht, List.cons_append]
  simp [Mark.read?, hc]

section
variable {text other : String} {ls ls' : List Lexeme}

theorem spells_negate (h : Spells text ls) (ho : Opens text) :
    Spells ("-" ++ text) (.mark .minus :: ls) := by
  intro cs rest hs hc
  have hm : lexemes? ('-' :: _) = some _ :=
    lexemes?_cons_mark (m := .minus) (read?_minus ho cs) (h cs rest hs hc)
  simpa using hm

theorem spells_factorial (h : Spells text ls) :
    Spells (text ++ "!") (ls ++ [.mark .factorial]) := by
  intro cs rest hs hc
  have hm : lexemes? ('!' :: cs) = some (.mark .factorial :: rest) :=
    lexemes?_cons_mark (m := .factorial) rfl hc
  simpa using h ('!' :: cs) _ (isSeam_cons (by decide) cs) hm

theorem spells_binary (op : Operator) (hl : Spells text ls) (hr : Spells other ls') :
    Spells (text ++ " " ++ op.symbol ++ " " ++ other) (ls ++ .mark op.mark :: ls') := by
  intro cs rest hs hc
  have hm := lexemes?_symbol op (hr cs rest hs hc)
  simpa using hl _ _ (isSeam_cons (by decide) _) hm

theorem spells_define {name : String} (hn : IsName name) (h : Spells text ls) :
    Spells (name ++ " := " ++ text) (.name name :: .mark .define :: ls) := by
  intro cs rest hs hc
  have hb := (lexemes?_blank (c := ' ') rfl _).trans (h cs rest hs hc)
  have hm : lexemes? (':' :: '=' :: ' ' :: _) = some _ := lexemes?_cons_mark (m := .define) rfl hb
  have hb' := (lexemes?_blank (c := ' ') rfl _).trans hm
  simpa using spells_name hn _ _ (isSeam_cons (by decide) _) hb'

end

theorem spelledAll_eq (ts : List Expr) : spelledAll ts = commas (ts.map spelled) := by
  induction ts with
  | nil => rfl
  | cons t ts ih =>
    cases ts with
    | nil => exact (commas_singleton _).symm
    | cons u ts => simp only [spelledAll, ih, List.map_cons, commas_cons_cons]

theorem renderAll_eq (ts : List Expr) : renderAll ts = ", ".intercalate (ts.map render) := by
  induction ts with
  | nil => rfl
  | cons t ts ih =>
    cases ts with
    | nil => exact String.intercalate_singleton.symm
    | cons u ts => simp only [renderAll, ih, List.map_cons, String.intercalate_cons_cons]

theorem spells_all {ts : List Expr} (h : ∀ t ∈ ts, Spells t.render t.spelled) :
    Spells (renderAll ts) (spelledAll ts) := by
  have hparts : ∀ q ∈ ts.map fun t => (t.render, t.spelled), Spells q.1 q.2 :=
    List.forall_mem_map.2 h
  have hb : ∀ b ∈ [' '], Text.isBlank b = true := List.forall_mem_singleton.2 rfl
  have hs := spells_commas (s := ", ") rfl hb hparts
  rw [renderAll_eq, spelledAll_eq]
  simpa only [List.map_map, Function.comp_def] using hs

theorem WellFormed.spells {v : Vocabulary} {t : Expr} (h : t.WellFormed v) :
    Spells t.render t.spelled := by
  induction h with
  | number hz => exact spells_literal hz
  | symbol hn hf hs => exact spells_name hn
  | negate ht iht => exact spells_negate (iht.wrap _) (ht.opens.wrap _)
  | factorial ht iht => exact spells_factorial (iht.wrap _)
  | @binary op l r hl hr ihl ihr => exact spells_binary op (ihl.wrap _) (ihr.wrap _)
  | define hn hf ht iht => exact spells_define hn (iht.wrap _)
  | @call name f ts hn hf hs ht iht =>
    intro cs rest hs' hc
    have hgroup := lexemes?_bracketed hc fun r =>
      spells_all iht (')' :: cs) r (isSeam_cons (by decide) cs)
    have hn' := spells_name hn _ _ (isSeam_cons (by decide) _) hgroup
    simpa [render, spelled, bracketed] using hn'

theorem WellFormed.lexemes?_render {v : Vocabulary} {t : Expr} (h : t.WellFormed v) :
    (Stream.ofString t.render).lexemes? = some t.spelled := by
  rw [ofString_lexemes?, h.spells.lexemes?]

end Expr
end ComplexCalculator
