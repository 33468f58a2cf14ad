import ComplexCalculator.Proofs.Token.Separation
import ComplexCalculator.Proofs.Parse.Failures

/-!
# Spacing

What a text is read to depends on its lexemes, and the places of errors on nothing else than the
places of tokens. So blanks between texts keep their tokens apart, blanks between spelled lexemes
are all it takes to have them read back, and more blanks between the tokens of a text neither change
its tree nor the error that it is refused with, but for the position.
-/
namespace ComplexCalculator
open Text

variable {text other : String} {l : Lexeme} {v : Vocabulary}

def Lexeme.IsProduced (l : Lexeme) : Prop :=
  l ≠ .ending ∧ ∃ text, ∃ k ∈ (Stream.ofString text).tokens, k.lexeme = l

theorem Lexeme.IsProduced.isRead (h : l.IsProduced) : l.IsRead := by
  obtain ⟨hl, text, k, hk, rfl⟩ := h
  obtain ⟨_, _, _, -, -, hm⟩ := (isTokenOf_of_mem hk hl).spelled
  exact hm.isRead

theorem ofString_append_gap {gap : String} (h : (Stream.ofString text).stray? = none)
    (hg : IsGap gap) :
    Stream.ofString (text ++ gap ++ other) =
      ((Stream.ofString other).shift (text.length + gap.length)).prepend
        (Stream.ofString text).words := by
  have hother := (cuts_ofString other).shift (text.length + gap.length)
  rw [← Nat.add_assoc, ← String.length_toList, ← String.length_toList] at hother
  have hcuts := (cuts_ofString text).append_blank h hg.ne_nil hg.isBlank hother
  rw [← List.append_assoc, ← String.toList_append, ← String.toList_append] at hcuts
  exact hcuts.stream_eq

/-- No token of the two texts side by side begins in the first one and ends in the second one. -/
def SplitsNoToken (text other : String) : Prop :=
  (Stream.ofString (text ++ other)).IsClearOf 0 (text ++ other).toList text.length

theorem unplaced_insert {gap : String} (hg : ∀ c ∈ gap.toList, isBlank c = true)
    (h : SplitsNoToken text other) :
    (Stream.ofString (text ++ gap ++ other)).unplaced =
      (Stream.ofString (text ++ other)).unplaced := by
  rw [SplitsNoToken, ← String.length_toList] at h
  obtain ⟨s, hcuts, hs⟩ := (cuts_ofString (text ++ other)).insert String.toList_append hg h
  rw [← List.append_assoc, ← String.toList_append, ← String.toList_append] at hcuts
  rw [← hs]
  exact congrArg Stream.unplaced hcuts.stream_eq

namespace Parse

theorem parse_congr_unplaced
    (h : (Stream.ofString text).unplaced = (Stream.ofString other).unplaced) :
    (parse v text).mapError ParseError.unplaced = (parse v other).mapError ParseError.unplaced := by
  have hrun := run_unplaced v .start (Stream.ofString text)
  rw [h, run_unplaced] at hrun
  exact hrun.symm

/-- Blanks separate. A text that is read to its end keeps its tokens in front of blanks, and what
follows them is read as it is alone. Spelled lexemes with blanks between them are read back. And
blanks between the tokens of a text change no lexeme, so they change neither the tree nor the error,
but for its position. -/
theorem blanks_separate_texts :
    (∀ A B gap : String, (Stream.ofString A).stray? = none → IsGap gap →
      Stream.ofString (A ++ gap ++ B) =
        ((Stream.ofString B).shift (A.length + gap.length)).prepend (Stream.ofString A).words) ∧
    (∀ ls : List Lexeme, (∀ l ∈ ls, l.IsProduced) →
      (∃ text, Joins ls text) ∧
      ∀ text, Joins ls text →
        (Stream.ofString text).tokens.map Token.lexeme = ls ++ [.ending]) ∧
    ∀ A B gap : String, IsGap gap → SplitsNoToken A B →
      (Stream.ofString (A ++ gap ++ B)).unplaced = (Stream.ofString (A ++ B)).unplaced ∧
      ∀ v, (parse v (A ++ gap ++ B)).mapError ParseError.unplaced =
        (parse v (A ++ B)).mapError ParseError.unplaced := by
  refine ⟨fun A B gap hA hg => ofString_append_gap hA hg, fun ls hls => ?_,
    fun A B gap hg hsplit => ?_⟩
  · have hread : ∀ l ∈ ls, l.IsRead := fun l hl => (hls l hl).isRead
    exact ⟨exists_joins hread, fun text hj => Stream.map_lexeme_tokens (hj.lexemes? hread)⟩
  · have hunplaced := unplaced_insert hg.isBlank hsplit
    exact ⟨hunplaced, fun v => parse_congr_unplaced hunplaced⟩

theorem blanks_separate_texts_minus :
    let gap := "\u2003"
    (Stream.ofString "x-").stray? = none ∧ IsGap gap ∧
      Stream.ofString ("x-" ++ gap ++ ">1") =
        ((Stream.ofString ">1").shift 3).prepend (Stream.ofString "x-").words ∧
      Joins [.name "x", .mark .minus] ("x" ++ gap ++ "-") ∧
      (Stream.ofString ("x" ++ gap ++ "-")).tokens.map Token.lexeme =
        [.name "x", .mark .minus, .ending] ∧
      SplitsNoToken "x" "->1" ∧
      (Stream.ofString ("x" ++ gap ++ "->1")).unplaced =
        (Stream.ofString ("x" ++ "->1")).unplaced := by
  intro gap
  have hstray : (Stream.ofString "x-").stray? = none := by decide +kernel
  have hgap : IsGap gap :=
    ⟨by decide, List.all_eq_true.1 (by decide : gap.toList.all isBlank = true)⟩
  have hx : (Lexeme.name "x").IsSpelling "x" := rfl
  have hminus : (Lexeme.mark .minus).IsSpelling "-" := rfl
  have hjoins : Joins [.name "x", .mark .minus] ("x" ++ gap ++ "-") :=
    .cons hx hgap (.singleton hminus)
  have htokens : (Stream.ofString "x-").tokens =
      [⟨.name "x", 0⟩, ⟨.mark .minus, 1⟩, ⟨.ending, 2⟩] := by
    decide +kernel
  have hproduced : ∀ l ∈ [Lexeme.name "x", .mark .minus], l.IsProduced :=
    List.forall_mem_cons.2 ⟨⟨nofun, "x-", ⟨.name "x", 0⟩, by simp [htokens], rfl⟩,
      List.forall_mem_singleton.2 ⟨nofun, "x-", ⟨.mark .minus, 1⟩, by simp [htokens], rfl⟩⟩
  have hsplit : SplitsNoToken "x" "->1" := by
    intro k hk us ls rest _ hplace hm
    have htokens : (Stream.ofString ("x" ++ "->1")).tokens =
        [⟨.name "x", 0⟩, ⟨.mark .arrow, 1⟩, ⟨.number 1, 3⟩, ⟨.ending, 4⟩] := by
      decide +kernel
    have hlength : "x".length = 1 := by decide
    rw [hlength]
    rw [htokens] at hk
    rcases List.mem_cons.1 hk with rfl | hk
    · rw [hm.eq_toList, String.length_toList, hlength]
      exact .inl (by simpa using hplace.symm)
    · have hbehind : ∀ q ∈ [Token.mk (.mark .arrow) 1, ⟨.number 1, 3⟩, ⟨.ending, 4⟩],
          1 ≤ q.position := by
        simp
      have hposition := hbehind k hk
      omega
  have hthree : "x-".length + gap.length = 3 := by decide
  obtain ⟨happend, hspelled, hinsert⟩ := blanks_separate_texts
  exact ⟨hstray, hgap, hthree ▸ happend "x-" ">1" gap hstray hgap, hjoins,
    (hspelled _ hproduced).2 _ hjoins, hsplit, (hinsert _ _ _ hgap hsplit).1⟩

end Parse
end ComplexCalculator
