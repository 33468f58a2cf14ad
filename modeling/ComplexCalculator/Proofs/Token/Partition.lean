import ComplexCalculator.Proofs.Token.Lexemes

/-!
# How a text is cut

A text falls into blanks and slices, one slice for each token, until it ends or a character is stray.
A slice is as long as it can be: a run of digits or of letters is not followed by another one, a
Greek letter stands alone, and no longer mark stands where a mark does. These rules leave no choice,
and the stream of a text is what they give. So a text is read to its end unless some character is
stray, and up to the first such character it is read as if it ended there.
-/
namespace ComplexCalculator
open Text

def Text.isStray (c : Char) : Bool :=
  !(isBlank c || c.isDigit || c.isAlpha || isGreek c || Mark.initials.contains c)

theorem Mark.isPrefix_of_read? {cs : List Char} {m : Mark} (h : Mark.read? cs = some m) :
    m.spelling.toList <+: cs := by
  unfold Mark.read? at h
  split at h
  all_goals
    cases h
    try exact ⟨_, rfl⟩

theorem Mark.read?_spelling (m : Mark) (cs : List Char) :
    ∃ l, Mark.read? (m.spelling.toList ++ cs) = some l ∧
      m.spelling.length ≤ l.spelling.length := by
  cases m with
  | minus =>
    by_cases h : cs.head? = some '>'
    · obtain ⟨r, rfl⟩ := List.head?_eq_some_iff.1 h
      exact ⟨.arrow, rfl, by decide⟩
    · exact ⟨.minus, by cases cs <;> simp_all [Mark.read?, spelling], Nat.le_refl _⟩
  | colon =>
    by_cases h : cs.head? = some '='
    · obtain ⟨r, rfl⟩ := List.head?_eq_some_iff.1 h
      exact ⟨.define, rfl, by decide⟩
    · exact ⟨.colon, by cases cs <;> simp_all [Mark.read?, spelling], Nat.le_refl _⟩
  | greater =>
    by_cases h : cs.head? = some '='
    · obtain ⟨r, rfl⟩ := List.head?_eq_some_iff.1 h
      exact ⟨.greaterEqual, rfl, by decide⟩
    · exact ⟨.greater, by cases cs <;> simp_all [Mark.read?, spelling], Nat.le_refl _⟩
  | lessEqual =>
    by_cases h : cs.head? = some '>'
    · obtain ⟨r, rfl⟩ := List.head?_eq_some_iff.1 h
      exact ⟨.equivalent, rfl, by decide⟩
    · exact ⟨.lessEqual, by cases cs <;> simp_all [Mark.read?, spelling], Nat.le_refl _⟩
  | less =>
    by_cases he : cs.head? = some '='
    · obtain ⟨r, rfl⟩ := List.head?_eq_some_iff.1 he
      by_cases h : r.head? = some '>'
      · obtain ⟨r, rfl⟩ := List.head?_eq_some_iff.1 h
        exact ⟨.equivalent, rfl, by decide⟩
      · exact ⟨.lessEqual, by cases r <;> simp_all [Mark.read?, spelling], by decide⟩
    · by_cases h : cs.head? = some '>'
      · obtain ⟨r, rfl⟩ := List.head?_eq_some_iff.1 h
        exact ⟨.unequal, rfl, by decide⟩
      · exact ⟨.less, by cases cs <;> simp_all [Mark.read?, spelling], Nat.le_refl _⟩
  | _ => exact ⟨_, rfl, Nat.le_refl _⟩

theorem Mark.read?_self (m : Mark) : Mark.read? m.spelling.toList = some m := by
  cases m <;> rfl

theorem Mark.read?_eq_some_iff {cs : List Char} {m : Mark} :
    Mark.read? cs = some m ↔
      m.spelling.toList <+: cs ∧
        ∀ l : Mark, l.spelling.toList <+: cs → l.spelling.length ≤ m.spelling.length := by
  constructor
  · intro h
    refine ⟨isPrefix_of_read? h, ?_⟩
    rintro l ⟨r, rfl⟩
    obtain ⟨k, hk, hlen⟩ := l.read?_spelling r
    cases hk.symm.trans h
    exact hlen
  · rintro ⟨⟨r, rfl⟩, hm⟩
    obtain ⟨k, hk, hlen⟩ := m.read?_spelling r
    have hp := isPrefix_of_read? hk
    have hkm : k.spelling.toList.length = m.spelling.toList.length :=
      Nat.le_antisymm (hm k hp) hlen
    have hs : k.spelling.toList = m.spelling.toList :=
      (List.prefix_of_prefix_length_le hp ⟨r, rfl⟩ (Nat.le_of_eq hkm)).eq_of_length hkm
    rw [hk, ← k.read?_self, hs, read?_self]

theorem Mark.exists_spelling_of_mem_initials {c : Char} (h : c ∈ initials) :
    ∃ m : Mark, m.spelling.toList = [c] := by
  have hall : ∀ d ∈ initials, ∃ m : Mark, m.spelling.toList = [d] := by
    simp only [initials, List.forall_mem_cons]
    exact ⟨⟨.plus, rfl⟩, ⟨.minus, rfl⟩, ⟨.times, rfl⟩, ⟨.over, rfl⟩, ⟨.power, rfl⟩,
      ⟨.factorial, rfl⟩, ⟨.opening, rfl⟩, ⟨.closing, rfl⟩, ⟨.comma, rfl⟩, ⟨.colon, rfl⟩,
      ⟨.equal, rfl⟩, ⟨.less, rfl⟩, ⟨.greater, rfl⟩, nofun⟩
  exact hall c h

theorem Mark.read?_eq_none_iff {c : Char} (cs : List Char) :
    Mark.read? (c :: cs) = none ↔ c ∉ initials := by
  constructor
  · intro h hc
    obtain ⟨m, hm⟩ := exists_spelling_of_mem_initials hc
    obtain ⟨l, hl, -⟩ := m.read?_spelling cs
    rw [hm] at hl
    cases h.symm.trans hl
  · intro hc
    cases hm : Mark.read? (c :: cs) with
    | none => rfl
    | some m => exact absurd (mem_initials hm) hc

theorem Mark.mem_initials_of_mem_spelling (m : Mark) : ∀ c ∈ m.spelling.toList, c ∈ initials := by
  have hall : m.spelling.toList.all (initials.contains ·) = true := by cases m <;> rfl
  simpa using hall

/-- A slice of a text spells a lexeme before what follows, and no longer slice of its kind does. -/
inductive Munches : Lexeme → List Char → List Char → Prop
  | digits {ds rest} (hn : ds ≠ []) (hd : ∀ c ∈ ds, c.isDigit = true)
      (hr : ∀ c ∈ rest.head?, c.isDigit = false) :
      Munches (.number (Binary64.ofNat (Nat.ofDigitChars 10 ds 0))) ds rest
  | letters {cs rest} (hn : cs ≠ []) (ha : ∀ c ∈ cs, c.isAlpha = true)
      (hr : ∀ c ∈ rest.head?, c.isAlpha = false) : Munches (.name (String.ofList cs)) cs rest
  | greek {c rest} (hg : isGreek c = true) : Munches (.name (String.ofList [c])) [c] rest
  | mark {m rest} (hm : ∀ l : Mark, l.spelling.toList <+: m.spelling.toList ++ rest →
      l.spelling.length ≤ m.spelling.length) : Munches (.mark m) m.spelling.toList rest

theorem Munches.ne_nil {l : Lexeme} {ls rest : List Char} (h : Munches l ls rest) : ls ≠ [] := by
  cases h with
  | digits hn hd hr => exact hn
  | letters hn ha hr => exact hn
  | greek hg => exact List.cons_ne_nil _ _
  | @mark m hm =>
    intro he
    have hpos := m.spelling_length_pos
    rw [← String.length_toList, he] at hpos
    exact Nat.lt_irrefl _ hpos

theorem not_isBlank_of_mem_initials {c : Char} (h : c ∈ Mark.initials) : isBlank c = false := by
  simpa using List.any_eq_false.1 (by decide : Mark.initials.any isBlank = false) c h

theorem isStray_eq_true_iff {c : Char} :
    isStray c = true ↔ isBlank c = false ∧ c.isDigit = false ∧ c.isAlpha = false ∧
      isGreek c = false ∧ c ∉ Mark.initials := by
  simp [isStray, and_assoc]

theorem isStray_of_isBlank {c : Char} (h : isBlank c = true) : isStray c = false := by
  simp [isStray, h]

theorem Munches.mem {l : Lexeme} {ls rest : List Char} (h : Munches l ls rest) :
    ∀ c ∈ ls, isBlank c = false ∧ isStray c = false := by
  intro c hc
  cases h with
  | digits hn hd hr => exact ⟨not_isBlank_of_isDigit (hd c hc), by simp [isStray, hd c hc]⟩
  | letters hn ha hr => exact ⟨not_isBlank_of_isAlpha (ha c hc), by simp [isStray, ha c hc]⟩
  | greek hg =>
    obtain rfl := List.mem_singleton.1 hc
    exact ⟨not_isBlank_of_isGreek hg, by simp [isStray, hg]⟩
  | @mark m hm =>
    have hi := m.mem_initials_of_mem_spelling c hc
    exact ⟨not_isBlank_of_mem_initials hi, by simp [isStray, hi]⟩

theorem Munches.head {l : Lexeme} {ls rest : List Char} (h : Munches l ls rest) :
    ∀ c ∈ (ls ++ rest).head?, isBlank c = false := by
  cases ls with
  | nil => exact absurd rfl h.ne_nil
  | cons a ls =>
    rintro c ⟨⟩
    exact (h.mem a List.mem_cons_self).1

theorem Munches.of_append {l : Lexeme} {ls us r : List Char} (h : Munches l ls (us ++ r)) :
    Munches l ls us := by
  have hhead : ∀ c ∈ us.head?, c ∈ (us ++ r).head? := by
    intro c hc
    obtain ⟨r', rfl⟩ := List.head?_eq_some_iff.1 hc
    rfl
  cases h with
  | digits hn hd hr => exact .digits hn hd fun c hc => hr c (hhead c hc)
  | letters hn ha hr => exact .letters hn ha fun c hc => hr c (hhead c hc)
  | greek hg => exact .greek hg
  | mark hm =>
    refine .mark fun k hk => hm k (hk.trans ?_)
    rw [← List.append_assoc]
    exact List.prefix_append _ _

theorem Munches.read? {l : Lexeme} {ls rest : List Char} (h : Munches l ls rest) :
    Lexeme.read? (ls ++ rest) = some (l, ls.length) := by
  cases h with
  | digits hn hd hr => exact read?_digits hn hd hr
  | letters hn ha hr => exact read?_letters hn ha hr
  | greek hg => exact read?_greek hg rest
  | mark hm =>
    have hr := Mark.read?_eq_some_iff.2 ⟨List.prefix_append _ rest, hm⟩
    simp only [Lexeme.read?, hr, String.length_toList]

theorem head?_dropWhile {p : Char → Bool} (cs : List Char) :
    ∀ c ∈ (cs.dropWhile p).head?, p c = false := by
  intro c hc
  have h := List.head?_dropWhile_not p cs
  rwa [hc] at h

theorem munches_of_read? {cs : List Char} {l : Lexeme} {k : Nat}
    (h : Lexeme.read? cs = some (l, k)) :
    ∃ ls rest, cs = ls ++ rest ∧ ls.length = k ∧ Munches l ls rest := by
  unfold Lexeme.read? at h
  split at h
  · rename_i m hm
    cases h
    obtain ⟨⟨rest, rfl⟩, hlongest⟩ := Mark.read?_eq_some_iff.1 hm
    exact ⟨_, rest, rfl, String.length_toList, .mark hlongest⟩
  · split at h
    · cases h
    · rename_i c cs _
      split at h
      · rename_i hd
        cases h
        refine ⟨_, _, List.takeWhile_append_dropWhile.symm, rfl, .digits ?_ ?_ (head?_dropWhile _)⟩
        · rw [List.takeWhile_cons_of_pos hd]
          exact List.cons_ne_nil _ _
        · exact List.all_eq_true.1 List.all_takeWhile
      · split at h
        · rename_i hg
          cases h
          exact ⟨[c], cs, rfl, rfl, .greek hg⟩
        · obtain ⟨ha, h⟩ := Option.ite_none_right_eq_some.1 h
          cases h
          refine ⟨_, _, List.takeWhile_append_dropWhile.symm, rfl,
            .letters ?_ ?_ (head?_dropWhile _)⟩
          · rw [List.takeWhile_cons_of_pos ha]
            exact List.cons_ne_nil _ _
          · exact List.all_eq_true.1 List.all_takeWhile

theorem Lexeme.read?_eq_none_iff {c : Char} {cs : List Char} (hb : isBlank c = false) :
    Lexeme.read? (c :: cs) = none ↔ isStray c = true := by
  rw [isStray_eq_true_iff, ← Mark.read?_eq_none_iff cs]
  unfold Lexeme.read?
  cases Mark.read? (c :: cs) with
  | some m => simp
  | none =>
    simp only [hb, true_and, and_true]
    split <;> simp_all
    split <;> simp_all

/-- The stream of a text that stands at a position: blanks and slices in turn, and in the end blanks
with nothing or a stray character after them. -/
inductive Cuts : Nat → List Char → Stream → Prop
  | ending {n bs} (hb : ∀ c ∈ bs, isBlank c = true) : Cuts n bs (.ending (n + bs.length))
  | stray {n bs c cs} (hb : ∀ c ∈ bs, isBlank c = true) (hc : isStray c = true) :
      Cuts n (bs ++ c :: cs) (.stray c (n + bs.length))
  | token {n bs l ls rest s} (hb : ∀ c ∈ bs, isBlank c = true) (hl : Munches l ls rest)
      (hs : Cuts (n + bs.length + ls.length) rest s) :
      Cuts n (bs ++ (ls ++ rest)) (.token ⟨l, n + bs.length⟩ s)

theorem Cursor.skipBlanks_append (n : Nat) {bs : List Char} (cs : List Char)
    (hb : ∀ c ∈ bs, isBlank c = true) (hc : ∀ c ∈ cs.head?, isBlank c = false) :
    (Cursor.mk n (bs ++ cs)).skipBlanks = ⟨n + bs.length, cs⟩ := by
  simp only [skipBlanks, advance, takeWhile_append hb hc, List.drop_left]

theorem Cursor.stream_of_ending {c : Cursor} (h : c.skipBlanks.rest = []) :
    c.stream = .ending c.skipBlanks.position := by
  have hs : c.scan = .ending c.skipBlanks := by simp only [scan, h, Lexeme.read?_nil]
  rw [stream]
  split <;> simp_all

theorem Cursor.stream_of_stray {c : Cursor} {a : Char} {cs : List Char}
    (h : c.skipBlanks.rest = a :: cs) (hr : Lexeme.read? (a :: cs) = none) :
    c.stream = .stray a c.skipBlanks.position := by
  have hs : c.scan = .stray a c.skipBlanks := by simp only [scan, h, hr]
  rw [stream]
  split <;> simp_all

theorem Cursor.stream_cuts (c : Cursor) : Cuts c.position c.rest c.stream := by
  induction hn : c.rest.length using Nat.strongRecOn generalizing c with
  | ind n ih =>
    subst hn
    have hb : ∀ a ∈ c.rest.takeWhile isBlank, isBlank a = true :=
      List.all_eq_true.1 List.all_takeWhile
    have hrest : c.rest = c.rest.takeWhile isBlank ++ c.skipBlanks.rest := by
      rw [skipBlanks_rest, List.takeWhile_append_dropWhile]
    cases hr : Lexeme.read? c.skipBlanks.rest with
    | some r =>
      obtain ⟨l, k⟩ := r
      obtain ⟨ls, rest, hls, rfl, hl⟩ := munches_of_read? hr
      have hshort := scan_shorter (scan_of_read hr)
      have hafter := ih _ hshort (c.skipBlanks.advance ls.length) rfl
      have hdrop : (c.skipBlanks.advance ls.length).rest = rest := by
        rw [advance, hls, List.drop_left]
      rw [hdrop] at hafter
      rw [stream_of_read hr, hrest, hls]
      exact .token hb hl hafter
    | none =>
      cases hd : c.skipBlanks.rest with
      | nil =>
        rw [stream_of_ending hd, hrest, hd, List.append_nil]
        exact .ending hb
      | cons a cs =>
        have hblank : isBlank a = false := by
          have hhead := head?_dropWhile (p := isBlank) c.rest a
          rw [← skipBlanks_rest, hd] at hhead
          exact hhead rfl
        rw [hd] at hr
        rw [stream_of_stray hd hr, hrest, hd]
        exact .stray hb ((Lexeme.read?_eq_none_iff hblank).1 hr)

theorem Cuts.stream_eq {n : Nat} {cs : List Char} {s : Stream} (h : Cuts n cs s) :
    (Cursor.mk n cs).stream = s := by
  induction h with
  | @ending n bs hb =>
    have hs := Cursor.skipBlanks_append n [] hb nofun
    rw [List.append_nil] at hs
    rw [Cursor.stream_of_ending (by rw [hs]), hs]
  | @stray n bs c cs hb hc =>
    have hblank : isBlank c = false := (isStray_eq_true_iff.1 hc).1
    have hs := Cursor.skipBlanks_append n (c :: cs) hb (by rintro d ⟨⟩; exact hblank)
    rw [Cursor.stream_of_stray (congrArg Cursor.rest hs)
      ((Lexeme.read?_eq_none_iff hblank).2 hc), hs]
  | @token n bs l ls rest s hb hl hs ih =>
    have hs := Cursor.skipBlanks_append n _ hb hl.head
    have hr : Lexeme.read? (Cursor.mk n (bs ++ (ls ++ rest))).skipBlanks.rest =
        some (l, ls.length) := by rw [hs, hl.read?]
    rw [Cursor.stream_of_read hr, hs]
    simp only [Cursor.advance, List.drop_left, ih]

theorem cuts_iff {n : Nat} {cs : List Char} {s : Stream} :
    Cuts n cs s ↔ (Cursor.mk n cs).stream = s :=
  ⟨Cuts.stream_eq, fun h => h ▸ (Cursor.mk n cs).stream_cuts⟩

theorem cuts_ofString (text : String) : Cuts 0 text.toList (Stream.ofString text) :=
  cuts_iff.2 rfl

def Stream.closed : Stream → Stream
  | .token k rest => .token k rest.closed
  | .ending n => .ending n
  | .stray _ n => .ending n

theorem Stream.tokens_closed {s : Stream} {c : Char} {p : Nat} (h : s.stray? = some (c, p)) :
    s.closed.tokens = s.tokens ++ [⟨.ending, p⟩] := by
  induction s with
  | token k rest ih => rw [closed, tokens, tokens, ih h, List.cons_append]
  | ending n => cases h
  | stray a n =>
    cases h
    rfl

theorem Cuts.not_stray {n : Nat} {cs : List Char} {s : Stream} (h : Cuts n cs s)
    (hs : s.stray? = none) :
    (∀ c ∈ cs, isStray c = false) ∧ s.tokens.getLast? = some ⟨.ending, n + cs.length⟩ := by
  induction h with
  | ending hb => exact ⟨fun c hc => isStray_of_isBlank (hb c hc), rfl⟩
  | stray hb hc => cases hs
  | @token n bs l ls rest s hb hl hcuts ih =>
    obtain ⟨hrest, hlast⟩ := ih hs
    constructor
    · intro c hc
      rcases List.mem_append.1 hc with hc | hc
      · exact isStray_of_isBlank (hb c hc)
      · exact (List.mem_append.1 hc).elim (fun hc => (hl.mem c hc).2) (hrest c)
    · rw [Stream.tokens, List.getLast?_cons, hlast, List.length_append, List.length_append,
        Option.getD_some, ← Nat.add_assoc, ← Nat.add_assoc]

theorem Cuts.of_stray {n : Nat} {cs : List Char} {s : Stream} (h : Cuts n cs s) {a : Char} {p : Nat}
    (hs : s.stray? = some (a, p)) :
    ∃ us r, cs = us ++ a :: r ∧ p = n + us.length ∧ isStray a = true ∧
      (∀ c ∈ us, isStray c = false) ∧ Cuts n us s.closed := by
  induction h with
  | ending hb => cases hs
  | @stray n bs c cs hb hc =>
    cases hs
    exact ⟨bs, cs, rfl, rfl, hc, fun c hc => isStray_of_isBlank (hb c hc), .ending hb⟩
  | @token n bs l ls rest s hb hl hcuts ih =>
    obtain ⟨us, r, rfl, hp, ha, hus, hclosed⟩ := ih hs
    refine ⟨bs ++ (ls ++ us), r, by simp, ?_, ha, ?_, .token hb hl.of_append hclosed⟩
    · rw [hp, List.length_append, List.length_append, ← Nat.add_assoc, ← Nat.add_assoc]
    · intro c hc
      rcases List.mem_append.1 hc with hc | hc
      · exact isStray_of_isBlank (hb c hc)
      · exact (List.mem_append.1 hc).elim (fun hc => (hl.mem c hc).2) (hus c)

/-- The stream of a text is the one that the rules of cutting give. It reaches the end of the text
unless a character is stray. It breaks off at the first stray character, and up to there it has the
tokens of the text that ends there. -/
theorem stream_partitions_text (text : String) :
    let cs := text.toList
    let s := Stream.ofString text
    (∀ s', Cuts 0 cs s' ↔ s' = s) ∧
    (s.stray?.isSome = true ↔ ∃ c ∈ cs, isStray c = true) ∧
    (s.stray? = none → s.tokens.getLast? = some ⟨.ending, cs.length⟩) ∧
    ∀ c p, s.stray? = some (c, p) →
      cs[p]? = some c ∧ isStray c = true ∧ (∀ d ∈ cs.take p, isStray d = false) ∧
      (Stream.ofString (String.ofList (cs.take p))).tokens = s.tokens ++ [⟨.ending, p⟩] := by
  intro cs s
  have hcuts : Cuts 0 cs s := cuts_iff.2 rfl
  refine ⟨fun s' => cuts_iff.trans eq_comm, ?_, fun hs => ?_, fun c p hs => ?_⟩
  · cases hs : s.stray? with
    | none =>
      have hnone := (hcuts.not_stray hs).1
      simp only [Option.isSome_none, Bool.false_eq_true, false_iff]
      rintro ⟨c, hc, hstray⟩
      cases hstray.symm.trans (hnone c hc)
    | some r =>
      obtain ⟨us, rest, hcs, -, hstray, -⟩ := hcuts.of_stray hs
      exact iff_of_true rfl ⟨r.1, by simp [hcs], hstray⟩
  · simpa using (hcuts.not_stray hs).2
  · obtain ⟨us, rest, hcs, hp, hstray, hus, hclosed⟩ := hcuts.of_stray hs
    obtain rfl : p = us.length := hp.trans (Nat.zero_add _)
    rw [hcs, List.take_left]
    refine ⟨by simp, hstray, hus, ?_⟩
    rw [← Stream.tokens_closed hs, ← hclosed.stream_eq, Stream.ofString, Cursor.start,
      String.toList_ofList]

end ComplexCalculator
