import ComplexCalculator.Proofs.Token.Partition
import ComplexCalculator.Proofs.Number.Literal

/-!
# Going on with a text

A text can be cut in front of any of its tokens and gone on with a blank: the blank ends the last
slice, so the tokens before the cut stay what they are. Every lexeme that can be read at all is
spelled by a slice, and so every list of such lexemes is what some text goes on with.
-/
namespace ComplexCalculator
open Text

def IsStop (d : Char) : Prop :=
  d.isDigit = false ∧ d.isAlpha = false ∧ d ≠ '=' ∧ d ≠ '>'

instance : DecidablePred IsStop := fun _ => inferInstanceAs (Decidable (_ ∧ _ ∧ _ ∧ _))

theorem isStop_of_isBlank {d : Char} (hd : isBlank d = true) : IsStop d := by
  refine ⟨?_, ?_, ?_, ?_⟩
  · exact Bool.eq_false_iff.2 fun h => by cases hd.symm.trans (not_isBlank_of_isDigit h)
  · exact Bool.eq_false_iff.2 fun h => by cases hd.symm.trans (not_isBlank_of_isAlpha h)
  · rintro rfl
    exact absurd hd (by decide)
  · rintro rfl
    exact absurd hd (by decide)

theorem prefix_of_prefix_append {w xs ds : List Char} {d : Char} (hx : xs ≠ [])
    (hw : d ∉ w.tail) (h : w <+: xs ++ d :: ds) : w <+: xs := by
  rcases Nat.lt_or_ge xs.length w.length with hlt | hle
  · have hd : xs ++ [d] <+: w :=
      List.prefix_of_prefix_length_le ⟨ds, by simp⟩ h (by simpa using hlt)
    obtain ⟨r, rfl⟩ := hd
    refine absurd ?_ hw
    rw [List.append_assoc, List.tail_append_of_ne_nil hx]
    simp
  · exact List.prefix_of_prefix_length_le h (List.prefix_append _ _) hle

theorem Mark.mem_tail_spelling (m : Mark) : ∀ c ∈ m.spelling.toList.tail, c = '=' ∨ c = '>' := by
  cases m <;> simp [spelling]

theorem IsStop.not_mem_tail_spelling {d : Char} (hd : IsStop d) (m : Mark) :
    d ∉ m.spelling.toList.tail := by
  obtain ⟨-, -, he, hg⟩ := hd
  exact fun hm => (m.mem_tail_spelling d hm).elim he hg

theorem Munches.append_stop {l : Lexeme} {ls us : List Char} (h : Munches l ls us) {d : Char}
    (hd : IsStop d) (ds : List Char) : Munches l ls (us ++ d :: ds) := by
  -- A run that ends where the text ended may not go on with the character.
  have hhead {p : Char → Bool} (hp : p d = false) (hus : ∀ c ∈ us.head?, p c = false) :
      ∀ c ∈ (us ++ d :: ds).head?, p c = false := by
    cases us with
    | nil =>
      rintro c ⟨⟩
      exact hp
    | cons u us => exact hus
  have hn := h.ne_nil
  cases h with
  | digits hn hall hr => exact .digits hn hall (hhead hd.1 hr)
  | letters hn hall hr => exact .letters hn hall (hhead hd.2.1 hr)
  | greek hg => exact .greek hg
  | mark hm =>
    refine .mark fun k hk => hm k ?_
    rw [← List.append_assoc] at hk
    exact prefix_of_prefix_append (by simp [hn]) (hd.not_mem_tail_spelling k) hk

theorem Munches.isRead {l : Lexeme} {ls rest : List Char} (h : Munches l ls rest) : l.IsRead := by
  cases h with
  | digits hn hd hr => exact ⟨_, rfl⟩
  | letters hn ha hr => exact .inl ⟨by simpa using hn, by simpa using ha⟩
  | greek hg => exact .inr ⟨_, hg, String.toList_ofList⟩
  | mark hm => trivial

theorem Lexeme.IsRead.munches {l : Lexeme} (h : l.IsRead) : ∃ ls, Munches l ls [] := by
  cases l with
  | number x =>
    obtain ⟨n, rfl⟩ := h
    have hd := Number.isDigitsOf_repr n
    exact ⟨n.repr.toList, hd.value ▸ .digits hd.ne_nil hd.isDigit nofun⟩
  | name text =>
    rcases h with ⟨hn, ha⟩ | ⟨c, hg, hc⟩
    · refine ⟨text.toList, ?_⟩
      have hm : Munches (.name (String.ofList text.toList)) text.toList [] := .letters hn ha nofun
      rwa [String.ofList_toList] at hm
    · refine ⟨[c], ?_⟩
      rw [← String.ofList_toList (s := text), hc]
      exact .greek hg
  | mark m =>
    refine ⟨m.spelling.toList, .mark fun k hk => ?_⟩
    rw [List.append_nil] at hk
    simpa only [String.length_toList] using hk.length_le
  | ending => exact h.elim

namespace Stream

def prepend (ks : List Token) (s : Stream) : Stream := ks.foldr .token s

theorem prepend_cons (k : Token) (ks : List Token) (s : Stream) :
    prepend (k :: ks) s = .token k (prepend ks s) := rfl

@[simp] theorem tokens_prepend (ks : List Token) (s : Stream) :
    (prepend ks s).tokens = ks ++ s.tokens := by
  induction ks with
  | nil => rfl
  | cons k ks ih => exact congrArg (k :: ·) ih

@[simp] theorem stray?_prepend (ks : List Token) (s : Stream) :
    (prepend ks s).stray? = s.stray? := by
  induction ks with
  | nil => rfl
  | cons k ks ih => exact ih

theorem stray?_of_lexemes? {s : Stream} {ls : List Lexeme} (h : s.lexemes? = some ls) :
    s.stray? = none := by
  induction s generalizing ls with
  | token k rest ih =>
    obtain ⟨r, hr, -⟩ := Option.map_eq_some_iff.1 h
    exact ih hr
  | ending n => rfl
  | stray c n => cases h

theorem exists_prepend {s : Stream} {ks rest : List Token} {k : Token}
    (h : s.tokens = ks ++ k :: rest) : ∃ s', s = prepend ks s' := by
  induction ks generalizing s with
  | nil => exact ⟨s, rfl⟩
  | cons k' ks ih =>
    cases s with
    | token k'' s =>
      obtain ⟨rfl, hs⟩ := List.cons.inj h
      obtain ⟨s', rfl⟩ := ih hs
      exact ⟨s', rfl⟩
    | ending n => simp [tokens] at h
    | stray c n => simp [tokens] at h

end Stream

theorem Cuts.cut {n : Nat} {cs : List Char} {ks : List Token} {s : Stream}
    (h : Cuts n cs (s.prepend ks)) :
    ∃ us, us <+: cs ∧ ∀ d ds s', isBlank d = true → Cuts (n + us.length) (d :: ds) s' →
      Cuts n (us ++ d :: ds) (s'.prepend ks) := by
  induction ks generalizing n cs with
  | nil => exact ⟨[], List.nil_prefix, fun d ds s' _ hs => hs⟩
  | cons k ks ih =>
    rw [Stream.prepend_cons] at h
    cases h with
    | @token _ bs l ls rest _ hb hl hs =>
      obtain ⟨us, ⟨r, rfl⟩, hcut⟩ := ih hs
      refine ⟨bs ++ (ls ++ us), ⟨r, by simp⟩, fun d ds s' hd hs' => ?_⟩
      have hplace : n + (bs ++ (ls ++ us)).length = n + bs.length + ls.length + us.length := by
        simp only [List.length_append, Nat.add_assoc]
      have hrest := hcut d ds s' hd (hplace ▸ hs')
      rw [Stream.prepend_cons, List.append_assoc, List.append_assoc]
      exact .token hb (hl.of_append.append_stop (isStop_of_isBlank hd) ds) hrest

theorem Cuts.isRead {n : Nat} {cs : List Char} {ks : List Token} {s : Stream}
    (h : Cuts n cs (s.prepend ks)) : ∀ k ∈ ks, k.lexeme.IsRead := by
  induction ks generalizing n cs with
  | nil => exact List.forall_mem_nil _
  | cons k ks ih =>
    rw [Stream.prepend_cons] at h
    cases h with
    | token hb hl hs => exact List.forall_mem_cons.2 ⟨hl.isRead, ih hs⟩

theorem exists_cuts {ls : List Lexeme} (h : ∀ l ∈ ls, l.IsRead) (n : Nat) :
    ∃ ds s, Cuts n (' ' :: ds) s ∧ s.lexemes? = some ls := by
  induction ls generalizing n with
  | nil => exact ⟨[], _, .ending (List.forall_mem_singleton.2 rfl), rfl⟩
  | cons l ls ih =>
    obtain ⟨hl, hls⟩ := List.forall_mem_cons.1 h
    obtain ⟨w, hw⟩ := hl.munches
    obtain ⟨ds, s, hs, hlexemes⟩ := ih hls (n + 1 + w.length)
    refine ⟨w ++ ' ' :: ds, _, .token (List.forall_mem_singleton.2 rfl)
      (hw.append_stop (by decide) ds) hs, ?_⟩
    rw [Stream.lexemes?, hlexemes, Option.map_some]

variable {text : String} {ks rest : List Token} {k : Token}

theorem exists_cuts_prepend (h : (Stream.ofString text).tokens = ks ++ k :: rest) :
    ∃ s : Stream, Cuts 0 text.toList (s.prepend ks) := by
  obtain ⟨s, hs⟩ := Stream.exists_prepend h
  exact ⟨s, hs ▸ cuts_ofString text⟩

theorem isRead_of_tokens (h : (Stream.ofString text).tokens = ks ++ k :: rest) :
    ∀ k ∈ ks, k.lexeme.IsRead := by
  obtain ⟨s, hcuts⟩ := exists_cuts_prepend h
  exact hcuts.isRead

theorem eq_nil_of_ending (h : (Stream.ofString text).tokens = ks ++ k :: rest)
    (hk : k.lexeme = .ending) : rest = [] := by
  cases rest with
  | nil => rfl
  | cons k' rest =>
    rw [List.append_cons] at h
    have hread := isRead_of_tokens h k (List.mem_append_right _ List.mem_cons_self)
    rw [hk] at hread
    exact hread.elim

theorem exists_continuation (h : (Stream.ofString text).tokens = ks ++ k :: rest)
    {ls : List Lexeme} (hls : ∀ l ∈ ls, l.IsRead) :
    ∃ other, ∃ s : Stream, Stream.ofString other = s.prepend ks ∧ s.lexemes? = some ls := by
  obtain ⟨s, hcuts⟩ := exists_cuts_prepend h
  obtain ⟨us, -, hcut⟩ := hcuts.cut
  obtain ⟨ds, s, hs, hlexemes⟩ := exists_cuts hls (0 + us.length)
  refine ⟨String.ofList (us ++ ' ' :: ds), s, ?_, hlexemes⟩
  rw [Stream.ofString, Cursor.start, String.toList_ofList]
  exact (hcut ' ' ds s rfl hs).stream_eq

end ComplexCalculator
