import ComplexCalculator.Proofs.Token.Continuation
import ComplexCalculator.Proofs.Expr.Spelling

/-!
# Texts side by side

A text that is read to its end keeps its lexemes before a character that no lexeme goes on with, so
its lexemes and those of what follows are put together there. In the other direction a text can be
taken apart at any mark: what stands before the mark and what stands behind it have the lexemes
before and behind it.
-/
namespace ComplexCalculator
open Text

variable {cs us : List Char} {ls ls' : List Lexeme} {d : Char} {m : Mark}

theorem Munches.lexemes?_append {l : Lexeme} {w rest : List Char} (h : Munches l w rest) :
    lexemes? (w ++ rest) = (lexemes? rest).map (l :: ·) := by
  rw [lexemes?_of_read h.read?, List.drop_left]

theorem cuts_of_lexemes? (h : lexemes? cs = some ls) :
    ∃ s, Cuts 0 cs s ∧ s.lexemes? = some ls :=
  ⟨(Cursor.mk 0 cs).stream, cuts_iff.2 rfl, h⟩

theorem Cuts.lexemes?_append {n : Nat} {s : Stream} (h : Cuts n us s) (hs : s.lexemes? = some ls)
    (hd : IsStop d) (ds : List Char) :
    lexemes? (us ++ d :: ds) = (lexemes? (d :: ds)).map (ls ++ ·) := by
  induction h generalizing ls with
  | ending hb =>
    cases hs
    rw [lexemes?_blanks hb]
    exact (congrFun Option.map_id _).symm
  | stray hb hc => cases hs
  | @token n bs l w rest s hb hl hcuts ih =>
    obtain ⟨r, hr, rfl⟩ := Option.map_eq_some_iff.1 hs
    rw [List.append_assoc, List.append_assoc, lexemes?_blanks hb,
      (hl.append_stop hd ds).lexemes?_append, ih hr, Option.map_map]
    rfl

theorem lexemes?_append (h : lexemes? us = some ls) (hd : IsStop d) (ds : List Char) :
    lexemes? (us ++ d :: ds) = (lexemes? (d :: ds)).map (ls ++ ·) := by
  obtain ⟨s, hcuts, hs⟩ := cuts_of_lexemes? h
  exact hcuts.lexemes?_append hs hd ds

def grouped (text : String) : String := "(" ++ text ++ ")"

theorem toList_grouped (text : String) :
    (grouped text).toList = '(' :: (text.toList ++ [')']) := by
  simp [grouped]

theorem isSeam_grouped (text : String) (cs : List Char) : IsSeam ((grouped text).toList ++ cs) := by
  rw [toList_grouped, List.cons_append]
  exact isSeam_cons (by decide) _

theorem spells_grouped {text : String} (h : lexemes? text.toList = some ls) :
    Spells (grouped text) (bracketed true ls) := by
  intro cs rest _ hc
  have hgroup := lexemes?_bracketed hc fun r hr => by
    rw [lexemes?_append h (by decide), hr, Option.map_some]
  simpa [toList_grouped] using hgroup

theorem lexemes?_append_grouped {text : String} {rest : List Lexeme} (h : lexemes? us = some ls)
    (ht : lexemes? text.toList = some ls') (hs : IsSeam cs) (hc : lexemes? cs = some rest) :
    lexemes? (us ++ ((grouped text).toList ++ cs)) = some (ls ++ (bracketed true ls' ++ rest)) := by
  have hgroup := spells_grouped ht cs rest hs hc
  rw [toList_grouped, List.cons_append] at hgroup ⊢
  rw [lexemes?_append h (by decide), hgroup, Option.map_some]

theorem Cuts.split {n : Nat} {s : Stream} (h : Cuts n cs s)
    (hs : s.lexemes? = some (ls ++ .mark m :: ls')) :
    ∃ us vs, cs = us ++ (m.spelling.toList ++ vs) ∧ ComplexCalculator.lexemes? us = some ls ∧
      ComplexCalculator.lexemes? vs = some ls' := by
  induction h generalizing ls with
  | ending hb => simp [Stream.lexemes?] at hs
  | stray hb hc => cases hs
  | @token n bs l w rest s hb hl hcuts ih =>
    obtain ⟨r, hr, hls⟩ := Option.map_eq_some_iff.1 hs
    cases ls with
    | nil =>
      obtain ⟨rfl, rfl⟩ := List.cons.inj hls
      cases hl with
      | mark hm =>
        refine ⟨bs, rest, rfl, ?_, ?_⟩
        · rw [← List.append_nil bs, lexemes?_blanks hb, lexemes?_nil]
        · rw [← hr, ← hcuts.stream_eq, Cursor.lexemes?_eq]
    | cons l' ls =>
      obtain ⟨rfl, rfl⟩ := List.cons.inj hls
      obtain ⟨us, vs, rfl, hus, hvs⟩ := ih hr
      refine ⟨bs ++ (w ++ us), vs, by simp, ?_, hvs⟩
      rw [lexemes?_blanks hb, hl.of_append.lexemes?_append, hus, Option.map_some]

theorem lexemes?_split (h : lexemes? cs = some (ls ++ .mark m :: ls')) :
    ∃ us vs, cs = us ++ (m.spelling.toList ++ vs) ∧ lexemes? us = some ls ∧
      lexemes? vs = some ls' := by
  obtain ⟨s, hcuts, hs⟩ := cuts_of_lexemes? h
  exact hcuts.split hs

theorem isBlank_of_lexemes?_nil (h : lexemes? cs = some []) : ∀ c ∈ cs, isBlank c = true := by
  obtain ⟨s, hcuts, hs⟩ := cuts_of_lexemes? h
  cases hcuts with
  | ending hb => exact hb
  | stray hb hc => cases hs
  | token hb hl hcuts =>
    obtain ⟨r, hr, hls⟩ := Option.map_eq_some_iff.1 hs
    cases hls

end ComplexCalculator
