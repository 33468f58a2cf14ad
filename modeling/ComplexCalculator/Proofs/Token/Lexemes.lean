import ComplexCalculator.Proofs.Parse.Positions

/-!
# The lexemes of a text

The lexemes of a text do not depend on where the text stands. They can be read off piece by piece: a
blank is skipped, and a mark, a run of digits or a name is one lexeme as long as what follows cannot
prolong it. Every number that is read is the nearest one of a natural number, and every name is a
run of ASCII letters or one Greek letter.
-/
namespace ComplexCalculator
open Text

def lexemes? (cs : List Char) : Option (List Lexeme) := (Cursor.mk 0 cs).stream.lexemes?

theorem not_isBlank_of_isDigit {c : Char} (h : c.isDigit = true) : isBlank c = false := by
  have := toNat_le_of_isDigit h
  simp only [isBlank, Bool.or_eq_false_iff, Bool.and_eq_false_iff, decide_eq_false_iff_not,
    beq_eq_false_iff_ne]
  omega

theorem not_isBlank_of_isAlpha {c : Char} (h : c.isAlpha = true) : isBlank c = false := by
  have := toNat_le_of_isAlpha h
  simp only [isBlank, Bool.or_eq_false_iff, Bool.and_eq_false_iff, decide_eq_false_iff_not,
    beq_eq_false_iff_ne]
  omega

theorem not_isBlank_of_isGreek {c : Char} (h : isGreek c = true) : isBlank c = false := by
  simp only [isGreek, Bool.or_eq_true, Bool.and_eq_true, decide_eq_true_eq] at h
  simp only [isBlank, Bool.or_eq_false_iff, Bool.and_eq_false_iff, decide_eq_false_iff_not,
    beq_eq_false_iff_ne]
  omega

def Mark.initials : List Char := ['+', '-', '*', '/', '^', '!', '(', ')', ',', ':', '=', '<', '>']

theorem Mark.mem_initials {c : Char} {cs : List Char} {m : Mark}
    (h : Mark.read? (c :: cs) = some m) : c ∈ initials := by
  unfold Mark.read? at h
  split at h
  any_goals
    rename_i he
    obtain ⟨rfl, -⟩ := List.cons.inj he
    exact List.mem_of_elem_eq_true rfl
  cases h

theorem Mark.read?_eq_none {p : Char → Bool} (hp : initials.any p = false) {c : Char}
    (h : p c = true) (cs : List Char) : Mark.read? (c :: cs) = none := by
  cases hm : Mark.read? (c :: cs) with
  | none => rfl
  | some m => exact absurd h (List.any_eq_false.1 hp c (mem_initials hm))

theorem Mark.read?_isBlank {c : Char} (h : isBlank c = true) (cs : List Char) :
    Mark.read? (c :: cs) = none :=
  Mark.read?_eq_none (by decide) h cs

theorem Mark.read?_isDigit {c : Char} (h : c.isDigit = true) (cs : List Char) :
    Mark.read? (c :: cs) = none :=
  Mark.read?_eq_none (by decide) h cs

theorem Mark.read?_isAlpha {c : Char} (h : c.isAlpha = true) (cs : List Char) :
    Mark.read? (c :: cs) = none :=
  Mark.read?_eq_none (by decide) h cs

theorem Mark.read?_isGreek {c : Char} (h : isGreek c = true) (cs : List Char) :
    Mark.read? (c :: cs) = none :=
  Mark.read?_eq_none (by decide) h cs

theorem Lexeme.not_isBlank_of_read? {c : Char} {cs : List Char} {r : Lexeme × Nat}
    (h : Lexeme.read? (c :: cs) = some r) : isBlank c = false := by
  cases hb : isBlank c with
  | false => rfl
  | true =>
    simp only [Lexeme.read?, Mark.read?_isBlank hb] at h
    split at h
    · rename_i hd
      exact hb.symm.trans (not_isBlank_of_isDigit hd)
    · split at h
      · rename_i hg
        exact hb.symm.trans (not_isBlank_of_isGreek hg)
      · split at h
        · rename_i ha
          exact hb.symm.trans (not_isBlank_of_isAlpha ha)
        · cases h

theorem dropWhile_isBlank_of_read? {cs : List Char} {r : Lexeme × Nat}
    (h : Lexeme.read? cs = some r) : cs.dropWhile isBlank = cs := by
  cases cs with
  | nil => rfl
  | cons c cs => simp [Lexeme.not_isBlank_of_read? h]

theorem Cursor.scan_of_read {c : Cursor} {l : Lexeme} {k : Nat}
    (h : Lexeme.read? c.skipBlanks.rest = some (l, k)) :
    c.scan = .token ⟨l, c.skipBlanks.position⟩ (c.skipBlanks.advance k) := by
  simp only [scan, h]

theorem Cursor.stream_of_read {c : Cursor} {l : Lexeme} {k : Nat}
    (h : Lexeme.read? c.skipBlanks.rest = some (l, k)) :
    c.stream = .token ⟨l, c.skipBlanks.position⟩ (c.skipBlanks.advance k).stream := by
  have hs := scan_of_read h
  rw [stream]
  split
  · rename_i t after ht
    cases hs.symm.trans ht
    rfl
  · rename_i a d ht
    cases hs.symm.trans ht
  · rename_i d ht
    cases hs.symm.trans ht

theorem Cursor.lexemes?_of_not_read {c : Cursor} (h : Lexeme.read? c.skipBlanks.rest = none) :
    c.stream.lexemes? = if c.skipBlanks.rest = [] then some [] else none := by
  rw [stream]
  split
  · rename_i t after ht
    simp only [scan, h] at ht
    split at ht <;> cases ht
  · rename_i a d ht
    simp only [scan, h] at ht
    split at ht
    · cases ht
    · rename_i hr
      simp [hr, Stream.lexemes?]
  · rename_i d ht
    simp only [scan, h] at ht
    split at ht
    · rename_i hr
      simp [hr, Stream.lexemes?]
    · cases ht

theorem Cursor.lexemes?_congr {c d : Cursor} (h : c.skipBlanks.rest = d.skipBlanks.rest) :
    c.stream.lexemes? = d.stream.lexemes? := by
  induction hn : c.rest.length using Nat.strongRecOn generalizing c d with
  | ind n ih =>
    subst hn
    cases hr : Lexeme.read? c.skipBlanks.rest with
    | none => rw [lexemes?_of_not_read hr, lexemes?_of_not_read (h ▸ hr), h]
    | some r =>
      obtain ⟨l, k⟩ := r
      have hr' : Lexeme.read? d.skipBlanks.rest = some (l, k) := h ▸ hr
      have hshort := scan_shorter (scan_of_read hr)
      have hafter : (c.skipBlanks.advance k).skipBlanks.rest =
          (d.skipBlanks.advance k).skipBlanks.rest := by
        rw [skipBlanks_rest, skipBlanks_rest, advance, advance, h]
      rw [stream_of_read hr, stream_of_read hr']
      simp only [Stream.lexemes?, ih _ hshort hafter rfl]

theorem Cursor.lexemes?_eq (c : Cursor) : c.stream.lexemes? = lexemes? c.rest :=
  lexemes?_congr (by rw [skipBlanks_rest, skipBlanks_rest])

theorem ofString_lexemes? (text : String) :
    (Stream.ofString text).lexemes? = lexemes? text.toList := rfl

theorem lexemes?_nil : lexemes? [] = some [] := by
  have h := Cursor.lexemes?_of_not_read (c := ⟨0, []⟩) rfl
  exact h

theorem lexemes?_of_read {cs : List Char} {l : Lexeme} {k : Nat}
    (h : Lexeme.read? cs = some (l, k)) :
    lexemes? cs = (lexemes? (cs.drop k)).map (l :: ·) := by
  have hs : (Cursor.mk 0 cs).skipBlanks.rest = cs := by
    rw [Cursor.skipBlanks_rest]
    exact dropWhile_isBlank_of_read? h
  rw [lexemes?, Cursor.stream_of_read (hs.symm ▸ h)]
  simp only [Stream.lexemes?, Cursor.lexemes?_eq, Cursor.advance, hs]

theorem lexemes?_blank {c : Char} (h : isBlank c = true) (cs : List Char) :
    lexemes? (c :: cs) = lexemes? cs :=
  Cursor.lexemes?_congr (by simp [Cursor.skipBlanks_rest, h])

theorem lexemes?_blanks {bs : List Char} (hb : ∀ c ∈ bs, isBlank c = true) (cs : List Char) :
    lexemes? (bs ++ cs) = lexemes? cs := by
  induction bs with
  | nil => rfl
  | cons b bs ih =>
    obtain ⟨hb, hbs⟩ := List.forall_mem_cons.1 hb
    rw [List.cons_append, lexemes?_blank hb, ih hbs]

theorem lexemes?_mark {m : Mark} {cs : List Char}
    (h : Mark.read? (m.spelling.toList ++ cs) = some m) :
    lexemes? (m.spelling.toList ++ cs) = (lexemes? cs).map (.mark m :: ·) := by
  have hr : Lexeme.read? (m.spelling.toList ++ cs) = some (.mark m, m.spelling.length) := by
    simp only [Lexeme.read?, h]
  rw [lexemes?_of_read hr, ← String.length_toList, List.drop_left]

theorem takeWhile_append {p : Char → Bool} {ds cs : List Char} (hd : ∀ c ∈ ds, p c = true)
    (hc : ∀ c ∈ cs.head?, p c = false) : (ds ++ cs).takeWhile p = ds := by
  have hs : cs.takeWhile p = [] := by
    cases cs with
    | nil => rfl
    | cons c cs => simp [hc c rfl]
  rw [List.takeWhile_append_of_pos hd, hs, List.append_nil]

theorem read?_digits {ds cs : List Char} (hn : ds ≠ []) (hd : ∀ c ∈ ds, c.isDigit = true)
    (hc : ∀ c ∈ cs.head?, c.isDigit = false) :
    Lexeme.read? (ds ++ cs) =
      some (.number (Binary64.ofNat (Nat.ofDigitChars 10 ds 0)), ds.length) := by
  have ht := takeWhile_append hd hc
  cases ds with
  | nil => exact absurd rfl hn
  | cons d ds =>
    rw [List.cons_append] at ht ⊢
    have hdd := hd d List.mem_cons_self
    simp only [Lexeme.read?, Mark.read?_isDigit hdd, hdd, ht, if_true]

theorem lexemes?_digits {ds cs : List Char} (hn : ds ≠ []) (hd : ∀ c ∈ ds, c.isDigit = true)
    (hc : ∀ c ∈ cs.head?, c.isDigit = false) :
    lexemes? (ds ++ cs) =
      (lexemes? cs).map (.number (Binary64.ofNat (Nat.ofDigitChars 10 ds 0)) :: ·) := by
  rw [lexemes?_of_read (read?_digits hn hd hc), List.drop_left]

def IsName (name : String) : Prop :=
  (name.toList ≠ [] ∧ ∀ c ∈ name.toList, c.isAlpha = true) ∨
    ∃ c, isGreek c = true ∧ name.toList = [c]

theorem isName_of_all {name : String} (hn : name.toList ≠ [])
    (h : name.toList.all (·.isAlpha) = true) : IsName name :=
  .inl ⟨hn, List.all_eq_true.1 h⟩

theorem not_isDigit_of_isAlpha {c : Char} (h : c.isAlpha = true) : c.isDigit = false := by
  have ha := toNat_le_of_isAlpha h
  cases hd : c.isDigit with
  | false => rfl
  | true =>
    have := toNat_le_of_isDigit hd
    omega

theorem not_isGreek_of_isAlpha {c : Char} (h : c.isAlpha = true) : isGreek c = false := by
  have ha := toNat_le_of_isAlpha h
  cases hg : isGreek c with
  | false => rfl
  | true =>
    have := le_toNat_of_isGreek hg
    omega

theorem not_isDigit_of_isGreek {c : Char} (h : isGreek c = true) : c.isDigit = false := by
  have hg := le_toNat_of_isGreek h
  cases hd : c.isDigit with
  | false => rfl
  | true =>
    have := toNat_le_of_isDigit hd
    omega

theorem read?_letters {cs rest : List Char} (hn : cs ≠ []) (ha : ∀ c ∈ cs, c.isAlpha = true)
    (hr : ∀ c ∈ rest.head?, c.isAlpha = false) :
    Lexeme.read? (cs ++ rest) = some (.name (String.ofList cs), cs.length) := by
  have ht := takeWhile_append ha hr
  cases cs with
  | nil => exact absurd rfl hn
  | cons c cs =>
    rw [List.cons_append] at ht ⊢
    have hc := ha c List.mem_cons_self
    simp only [Lexeme.read?, Mark.read?_isAlpha hc, not_isDigit_of_isAlpha hc,
      not_isGreek_of_isAlpha hc, hc, ht, Bool.false_eq_true, if_false, if_true]

theorem read?_greek {c : Char} (h : isGreek c = true) (rest : List Char) :
    Lexeme.read? (c :: rest) = some (.name (String.ofList [c]), 1) := by
  simp only [Lexeme.read?, Mark.read?_isGreek h, not_isDigit_of_isGreek h, h, Bool.false_eq_true,
    if_false, if_true]

theorem lexemes?_name {name : String} (h : IsName name) {cs : List Char}
    (hc : ∀ c ∈ cs.head?, c.isAlpha = false) :
    lexemes? (name.toList ++ cs) = (lexemes? cs).map (.name name :: ·) := by
  rcases h with ⟨hn, ha⟩ | ⟨c, hg, hn⟩
  · rw [lexemes?_of_read (read?_letters hn ha hc), List.drop_left, String.ofList_toList]
  · rw [hn, List.singleton_append, lexemes?_of_read (read?_greek hg cs), ← hn,
      String.ofList_toList]
    rfl

def Lexeme.IsRead : Lexeme → Prop
  | .number x => ∃ n, x = Binary64.ofNat n
  | .name text => IsName text
  | .mark _ => True
  | .ending => False

theorem isRead_of_read? {cs : List Char} {l : Lexeme} {k : Nat}
    (h : Lexeme.read? cs = some (l, k)) : l.IsRead := by
  unfold Lexeme.read? at h
  split at h
  · cases h
    trivial
  · split at h
    · cases h
    · rename_i c cs _
      split at h
      · cases h
        exact ⟨_, rfl⟩
      · split at h
        · rename_i hg
          cases h
          exact .inr ⟨c, hg, String.toList_ofList⟩
        · obtain ⟨ha, h⟩ := Option.ite_none_right_eq_some.1 h
          cases h
          refine .inl ?_
          rw [String.toList_ofList]
          constructor
          · rw [List.takeWhile_cons_of_pos ha]
            exact List.cons_ne_nil _ _
          · exact fun x hx => List.all_eq_true.1 (List.all_takeWhile ..) x hx

theorem isRead_of_lexemes? {cs : List Char} {ls : List Lexeme} (h : lexemes? cs = some ls) :
    ∀ l ∈ ls, l.IsRead := by
  induction hn : cs.length using Nat.strongRecOn generalizing cs ls with
  | ind n ih =>
    subst hn
    have hskip := Cursor.skipBlanks_rest ⟨0, cs⟩
    cases hr : Lexeme.read? (cs.dropWhile isBlank) with
    | none =>
      rw [lexemes?, Cursor.lexemes?_of_not_read (hskip ▸ hr)] at h
      obtain ⟨-, ⟨⟩⟩ := Option.ite_none_right_eq_some.1 h
      exact List.forall_mem_nil _
    | some r =>
      obtain ⟨l, k⟩ := r
      rw [lexemes?, Cursor.stream_of_read (hskip ▸ hr)] at h
      obtain ⟨rest, hrest, rfl⟩ := Option.map_eq_some_iff.1 h
      rw [Cursor.lexemes?_eq] at hrest
      have hshort := Cursor.scan_shorter (Cursor.scan_of_read (hskip ▸ hr))
      exact List.forall_mem_cons.2 ⟨isRead_of_read? hr, ih _ hshort hrest rfl⟩

end ComplexCalculator
