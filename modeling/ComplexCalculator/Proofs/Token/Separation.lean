import ComplexCalculator.Proofs.Token.Seams

/-!
# Blanks between texts

A blank ends whatever token stands before it, so a text that is read to its end, blanks and another
text are read as the two texts, the second one moved along. Spelled lexemes with blanks between them
are therefore read back, and blanks put in where no token extends over the place move the tokens
behind it and change none.
-/
namespace ComplexCalculator
open Text

variable {n : Nat} {cs us vs w : List Char} {s s' : Stream} {l : Lexeme}

namespace Stream

def shift (d : Nat) : Stream → Stream
  | .token k rest => .token ⟨k.lexeme, k.position + d⟩ (rest.shift d)
  | .ending p => .ending (p + d)
  | .stray c p => .stray c (p + d)

@[simp] theorem unplaced_shift (d : Nat) (s : Stream) : (s.shift d).unplaced = s.unplaced := by
  induction s with
  | token k rest ih => simp only [shift, unplaced, Token.unplaced, ih]
  | ending p => rfl
  | stray c p => rfl

def words (s : Stream) : List Token := s.tokens.filter (·.lexeme ≠ .ending)

theorem words_token {k : Token} (hk : k.lexeme ≠ .ending) (rest : Stream) :
    (Stream.token k rest).words = k :: rest.words := by
  rw [words, tokens, List.filter_cons_of_pos (by simpa using hk), words]

end Stream

theorem Cuts.shift (h : Cuts n cs s) (d : Nat) : Cuts (n + d) cs (s.shift d) := by
  induction h with
  | @ending n bs hb =>
    rw [Stream.shift, Nat.add_right_comm]
    exact .ending hb
  | @stray n bs c cs hb hc =>
    rw [Stream.shift, Nat.add_right_comm]
    exact .stray hb hc
  | @token n bs l ls rest s hb hl hs ih =>
    have hrest : Cuts (n + d + bs.length + ls.length) rest (s.shift d) := by
      convert ih using 1
      omega
    have hcuts := Cuts.token hb hl hrest
    rw [Nat.add_right_comm] at hcuts
    exact hcuts

theorem Cuts.blanks (hw : ∀ c ∈ w, isBlank c = true) (h : Cuts (n + w.length) cs s) :
    Cuts n (w ++ cs) s := by
  have hall {bs : List Char} (hb : ∀ c ∈ bs, isBlank c = true) :
      ∀ c ∈ w ++ bs, isBlank c = true :=
    List.forall_mem_append.2 ⟨hw, hb⟩
  generalize hm : n + w.length = m at h
  cases h with
  | @ending _ bs hb =>
    have hcuts := Cuts.ending (n := n) (hall hb)
    rwa [List.length_append, ← Nat.add_assoc, hm] at hcuts
  | @stray _ bs c cs hb hc =>
    have hcuts : Cuts n (w ++ bs ++ c :: cs) _ := .stray (hall hb) hc
    rwa [List.length_append, ← Nat.add_assoc, hm, List.append_assoc] at hcuts
  | @token _ bs l ls rest s hb hl hs =>
    have hplace : m + bs.length = n + (w ++ bs).length := by
      rw [List.length_append, ← Nat.add_assoc, hm]
    rw [hplace] at hs ⊢
    rw [← List.append_assoc]
    exact .token (hall hb) hl hs

theorem Cuts.append_blank (h : Cuts n us s) (hs : s.stray? = none)
    (hne : w ≠ []) (hw : ∀ c ∈ w, isBlank c = true)
    (h' : Cuts (n + us.length + w.length) vs s') :
    Cuts n (us ++ (w ++ vs)) (s'.prepend s.words) := by
  induction h with
  | ending hb => exact .blanks hb (.blanks hw h')
  | stray hb hc => cases hs
  | @token n bs l ls rest s hb hl hcuts ih =>
    obtain ⟨d, ds, rfl⟩ := List.exists_cons_of_ne_nil hne
    have hd := isStop_of_isBlank (hw d List.mem_cons_self)
    have hrest := ih hs (by simpa [Nat.add_assoc] using h')
    have hne : l ≠ .ending := by
      rintro rfl
      exact hl.isRead
    rw [Stream.words_token hne, Stream.prepend_cons, List.append_assoc, List.append_assoc]
    exact .token hb (hl.append_stop hd (ds ++ vs)) hrest

/-- No token of the stream begins in front of the place in the text and ends behind it. -/
def Stream.IsClearOf (s : Stream) (n : Nat) (cs : List Char) (place : Nat) : Prop :=
  ∀ k ∈ s.tokens, ∀ us ls rest, cs = us ++ (ls ++ rest) → k.position = n + us.length →
    Munches k.lexeme ls rest → us.length + ls.length ≤ place ∨ place ≤ us.length

theorem Munches.insert {ls us vs : List Char} (h : Munches l ls (us ++ vs))
    (hw : ∀ c ∈ w, isBlank c = true) : Munches l ls (us ++ (w ++ vs)) := by
  cases w with
  | nil => exact h
  | cons d ds =>
    exact h.of_append.append_stop (isStop_of_isBlank (hw d List.mem_cons_self)) (ds ++ vs)

theorem Cuts.insert_front (h : Cuts n (us ++ vs) s) (hus : ∀ c ∈ us, isBlank c = true)
    (hw : ∀ c ∈ w, isBlank c = true) : Cuts n (us ++ (w ++ vs)) (s.shift w.length) := by
  have hvs : Cuts (n + us.length) vs (Cursor.mk (n + us.length) vs).stream := cuts_iff.2 rfl
  have hs : (Cursor.mk (n + us.length) vs).stream = s :=
    (Cuts.blanks hus hvs).stream_eq.symm.trans h.stream_eq
  exact .blanks hus (.blanks hw (hs ▸ hvs.shift w.length))

theorem Cuts.insert (h : Cuts n cs s) (hcs : cs = us ++ vs) (hw : ∀ c ∈ w, isBlank c = true)
    (hclear : s.IsClearOf n cs us.length) :
    ∃ s', Cuts n (us ++ (w ++ vs)) s' ∧ s'.unplaced = s.unplaced := by
  induction h generalizing us with
  | ending hb =>
    subst hcs
    obtain ⟨hus, hvs⟩ := List.forall_mem_append.1 hb
    refine ⟨_, .ending ?_, rfl⟩
    exact List.forall_mem_append.2 ⟨hus, List.forall_mem_append.2 ⟨hw, hvs⟩⟩
  | @stray n bs c cs hb hc =>
    by_cases hus : ∀ c ∈ us, isBlank c = true
    · exact ⟨_, (hcs ▸ Cuts.stray hb hc).insert_front hus hw, Stream.unplaced_shift _ _⟩
    -- The place is behind the stray character: what follows that does not count.
    obtain ⟨as, rfl, has⟩ | ⟨as, rfl, -⟩ := List.append_eq_append_iff.1 hcs
    · cases as with
      | nil => exact absurd (by simpa using hb) hus
      | cons a as =>
        obtain ⟨rfl, -⟩ := List.cons.inj has
        rw [List.append_assoc]
        exact ⟨_, .stray hb hc, rfl⟩
    · exact absurd (List.forall_mem_append.1 hb).1 hus
  | @token n bs l ls rest s hb hl hs ih =>
    by_cases hus : ∀ c ∈ us, isBlank c = true
    · exact ⟨_, (hcs ▸ Cuts.token hb hl hs).insert_front hus hw, Stream.unplaced_shift _ _⟩
    have hbs : bs <+: us ++ vs := ⟨ls ++ rest, hcs⟩
    obtain hle | hle := hclear _ List.mem_cons_self bs ls rest rfl rfl hl
    · -- The place is behind the token, which ends before the blanks as it did.
      have hls : bs ++ ls <+: us ++ vs := ⟨rest, by rw [← hcs, List.append_assoc]⟩
      obtain ⟨as, rfl⟩ : bs ++ ls <+: us :=
        List.prefix_of_prefix_length_le hls (List.prefix_append _ _) (by simpa using hle)
      obtain rfl : rest = as ++ vs := by simpa using hcs
      have hrest : s.IsClearOf (n + bs.length + ls.length) (as ++ vs) as.length := by
        intro k hk xs ks r hxs hk' hm
        have hplace := hclear k (List.mem_cons_of_mem _ hk) (bs ++ ls ++ xs) ks r
          (by simp [hxs]) (by simp [hk', Nat.add_assoc]) hm
        simp only [List.length_append] at hplace
        omega
      obtain ⟨s', hcuts, hs'⟩ := ih rfl hrest
      rw [List.append_assoc, List.append_assoc]
      exact ⟨_, .token hb (hl.insert hw) hcuts, by simp only [Stream.unplaced, hs']⟩
    · have hfront : us <+: bs :=
        List.prefix_of_prefix_length_le (List.prefix_append _ _) hbs hle
      exact absurd (fun c hc => hb c (hfront.subset hc)) hus

/-- The text spells the lexeme: any run of digits of its value spells a number. -/
def Lexeme.IsSpelling (text : String) : Lexeme → Prop
  | .number x => text.toList ≠ [] ∧ (∀ c ∈ text.toList, c.isDigit = true) ∧
      Binary64.ofNat (Nat.ofDigitChars 10 text.toList 0) = x
  | .name letters => text = letters
  | .mark m => text = m.spelling
  | .ending => False

theorem Munches.isSpelling {ls rest : List Char} (h : Munches l ls rest) :
    l.IsSpelling (String.ofList ls) := by
  cases h with
  | digits hn hd hr =>
    rw [Lexeme.IsSpelling, String.toList_ofList]
    exact ⟨hn, hd, rfl⟩
  | letters hn ha hr => rfl
  | greek hg => rfl
  | mark hm => exact String.ofList_toList

theorem Lexeme.IsRead.exists_spelling (h : l.IsRead) : ∃ text, l.IsSpelling text := by
  obtain ⟨ls, hls⟩ := h.munches
  exact ⟨_, hls.isSpelling⟩

theorem Lexeme.IsSpelling.munches {text : String} (h : l.IsSpelling text) (hl : l.IsRead) :
    Munches l text.toList [] := by
  obtain ⟨ls, hls⟩ := hl.munches
  have hspelling := hls.isSpelling
  cases l with
  | number x =>
    obtain ⟨hn, hd, rfl⟩ := h
    exact .digits hn hd nofun
  | name name =>
    obtain rfl : text = String.ofList ls := Eq.trans h hspelling.symm
    rwa [String.toList_ofList]
  | mark m =>
    obtain rfl : text = String.ofList ls := Eq.trans h hspelling.symm
    rwa [String.toList_ofList]
  | ending => exact hl.elim

structure IsGap (text : String) : Prop where
  ne_nil : text.toList ≠ []
  isBlank : ∀ c ∈ text.toList, Text.isBlank c = true

/-- The text is made of spellings of the lexemes with a gap between any two of them. -/
inductive Joins : List Lexeme → String → Prop
  | nil : Joins [] ""
  | singleton {l text} (h : l.IsSpelling text) : Joins [l] text
  | cons {l m ls text gap other} (h : l.IsSpelling text) (hg : IsGap gap)
      (hj : Joins (m :: ls) other) : Joins (l :: m :: ls) (text ++ gap ++ other)

theorem exists_joins {ls : List Lexeme} (h : ∀ l ∈ ls, l.IsRead) : ∃ text, Joins ls text := by
  induction ls with
  | nil => exact ⟨"", .nil⟩
  | cons l ls ih =>
    obtain ⟨hl, hls⟩ := List.forall_mem_cons.1 h
    obtain ⟨text, htext⟩ := hl.exists_spelling
    obtain ⟨other, hother⟩ := ih hls
    cases ls with
    | nil => exact ⟨text, .singleton htext⟩
    | cons m ls =>
      have hgap : IsGap " " := ⟨by decide, List.forall_mem_singleton.2 rfl⟩
      exact ⟨_, .cons htext hgap hother⟩

theorem Joins.lexemes? {ls : List Lexeme} {text : String} (h : Joins ls text)
    (hls : ∀ l ∈ ls, l.IsRead) : ComplexCalculator.lexemes? text.toList = some ls := by
  induction h with
  | nil => exact lexemes?_nil
  | @singleton l text h =>
    have hl := h.munches (hls l List.mem_cons_self)
    have hread := hl.lexemes?_append
    rwa [List.append_nil, lexemes?_nil] at hread
  | @cons l m ls text gap other h hg hj ih =>
    obtain ⟨hl, hls⟩ := List.forall_mem_cons.1 hls
    obtain ⟨d, ds, hgap⟩ := List.exists_cons_of_ne_nil hg.ne_nil
    have hd := isStop_of_isBlank (hg.isBlank d (by simp [hgap]))
    have hmunch := (h.munches hl).append_stop hd (ds ++ other.toList)
    rw [String.toList_append, String.toList_append, List.append_assoc, hgap, List.cons_append]
    rw [List.nil_append] at hmunch
    rw [hmunch.lexemes?_append, ← List.cons_append, ← hgap, lexemes?_blanks hg.isBlank, ih hls,
      Option.map_some]

end ComplexCalculator
