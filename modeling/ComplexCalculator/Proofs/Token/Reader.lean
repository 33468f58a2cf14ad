import ComplexCalculator.Proofs.Token.Continuation

/-!
# Going through a text

A reader stands at a cursor and is called for one token after the other. A call skips blanks and
takes a slice, or it stops in front of the end or of a stray character; a reader that has stopped
stays as it is, whatever else is asked of it. Every slice takes characters, so the calls come to a
stop, and up to there they show the tokens of the stream.
-/
namespace ComplexCalculator
open Text

def Cursor.StandsIn (c : Cursor) (cs : List Char) : Prop :=
  ∃ us, us.length = c.position ∧ cs = us ++ c.rest

theorem Cursor.StandsIn.position_le {c : Cursor} {cs : List Char} (h : c.StandsIn cs) :
    c.position ≤ cs.length := by
  obtain ⟨us, hus, rfl⟩ := h
  rw [List.length_append, hus]
  exact Nat.le_add_right _ _

namespace Reader

variable {r r' : Reader} {a : Advance} {c : Char} {cs : List Char} {text : String} {n : Nat}

inductive Calls (r : Reader) : Advance → Reader → Prop
  | token {bs l ls rest} (hr : r.cursor.rest = bs ++ (ls ++ rest))
      (hb : ∀ c ∈ bs, isBlank c = true) (hl : Munches l ls rest) :
      Calls r .token ⟨⟨l, r.cursor.position + bs.length⟩,
        ⟨r.cursor.position + bs.length + ls.length, rest⟩⟩
  | ending (hb : ∀ c ∈ r.cursor.rest, isBlank c = true) :
      Calls r .ending ⟨⟨.ending, r.cursor.position + r.cursor.rest.length⟩,
        ⟨r.cursor.position + r.cursor.rest.length, []⟩⟩
  | stray {bs c rest} (hr : r.cursor.rest = bs ++ c :: rest) (hb : ∀ c ∈ bs, isBlank c = true)
      (hc : isStray c = true) :
      Calls r (.stray c) ⟨r.current, ⟨r.cursor.position + bs.length, c :: rest⟩⟩

theorem next_calls (r : Reader) : Calls r r.next.1 r.next.2 := by
  obtain ⟨k, n, cs⟩ := r
  have hblank : ∀ c ∈ cs.takeWhile isBlank, isBlank c = true :=
    List.all_eq_true.1 List.all_takeWhile
  have hsplit : cs = cs.takeWhile isBlank ++ cs.dropWhile isBlank :=
    List.takeWhile_append_dropWhile.symm
  have hskip : (Cursor.mk n cs).skipBlanks =
      ⟨n + (cs.takeWhile isBlank).length, cs.dropWhile isBlank⟩ := by
    rw [← Cursor.skipBlanks_rest ⟨n, cs⟩]
    rfl
  cases hread : Lexeme.read? (cs.dropWhile isBlank) with
  | some q =>
    obtain ⟨l, m⟩ := q
    obtain ⟨ls, rest, hls, rfl, hl⟩ := munches_of_read? hread
    rw [hls] at hread
    have hnext : next ⟨k, n, cs⟩ = (.token, ⟨⟨l, n + (cs.takeWhile isBlank).length⟩,
        ⟨n + (cs.takeWhile isBlank).length + ls.length, rest⟩⟩) := by
      simp only [next, Cursor.scan, hskip, hread, Cursor.advance, hls, List.drop_left]
    rw [hnext]
    exact .token (hls ▸ hsplit) hblank hl
  | none =>
    cases hrest : cs.dropWhile isBlank with
    | nil =>
      have hcs : cs = cs.takeWhile isBlank := by
        rw [hrest, List.append_nil] at hsplit
        exact hsplit
      have hnext : next ⟨k, n, cs⟩ =
          (.ending, ⟨⟨.ending, n + cs.length⟩, ⟨n + cs.length, []⟩⟩) := by
        simp only [next, Cursor.scan, hskip, hrest, Lexeme.read?_nil, ← hcs]
      rw [hnext]
      exact .ending (hcs ▸ hblank)
    | cons c rest =>
      have hc : isBlank c = false := by
        have hhead := head?_dropWhile (p := isBlank) cs c
        rw [hrest] at hhead
        exact hhead rfl
      rw [hrest] at hread
      have hnext : next ⟨k, n, cs⟩ =
          (.stray c, ⟨k, ⟨n + (cs.takeWhile isBlank).length, c :: rest⟩⟩) := by
        simp only [next, Cursor.scan, hskip, hrest, hread]
      rw [hnext]
      exact .stray (hrest ▸ hsplit) hblank ((Lexeme.read?_eq_none_iff hc).1 hread)

theorem Calls.standsIn (h : Calls r a r') (hr : r.cursor.StandsIn cs) :
    r'.cursor.StandsIn cs := by
  obtain ⟨us, hus, rfl⟩ := hr
  cases h with
  | @token bs l ls rest hrest hb hl =>
    refine ⟨us ++ bs ++ ls, by simp [hus, Nat.add_assoc], ?_⟩
    rw [hrest]
    simp
  | ending hb => exact ⟨us ++ r.cursor.rest, by simp [hus], by simp⟩
  | @stray bs c rest hrest hb hc =>
    refine ⟨us ++ bs, by simp [hus], ?_⟩
    rw [hrest]
    simp

theorem Calls.position_le (h : Calls r a r') : r.cursor.position ≤ r'.cursor.position := by
  cases h with
  | token hr hb hl =>
    rw [Nat.add_assoc]
    exact Nat.le_add_right _ _
  | ending hb => exact Nat.le_add_right _ _
  | stray hr hb hc => exact Nat.le_add_right _ _

theorem Calls.position_lt (h : Calls r .token r') : r.cursor.position < r'.cursor.position := by
  cases h with
  | token hr hb hl =>
    have hpos := List.length_pos_of_ne_nil hl.ne_nil
    dsimp only
    omega

theorem Calls.munches (h : Calls r .token r') (hr : r.cursor.StandsIn cs) :
    r.cursor.position ≤ r'.current.position ∧
      Munches r'.current.lexeme ((cs.take r'.cursor.position).drop r'.current.position)
        (cs.drop r'.cursor.position) := by
  obtain ⟨us, hus, rfl⟩ := hr
  cases h with
  | @token bs l ls rest hrest hb hl =>
    refine ⟨Nat.le_add_right _ _, ?_⟩
    have hbefore : (us ++ bs).length = r.cursor.position + bs.length := by simp [hus]
    have htext : us ++ r.cursor.rest = us ++ bs ++ (ls ++ rest) := by rw [hrest]; simp
    dsimp only
    rw [htext, ← hbefore, List.take_length_add_append, List.drop_left, List.take_left,
      List.drop_length_add_append, List.drop_left]
    exact hl

theorem Calls.current_of_ending (h : Calls r .ending r') :
    r'.current = ⟨.ending, r'.cursor.position⟩ := by
  cases h
  rfl

theorem Calls.position_of_ending (h : Calls r .ending r') (hr : r.cursor.StandsIn cs) :
    r'.cursor.position = cs.length := by
  obtain ⟨us, hus, rfl⟩ := hr
  cases h
  rw [List.length_append, hus]

theorem Calls.current_of_stray (h : Calls r (.stray c) r') : r'.current = r.current := by
  cases h
  rfl

theorem Calls.isStray (h : Calls r (.stray c) r') (hr : r.cursor.StandsIn cs) :
    cs[r'.cursor.position]? = some c ∧ isStray c = true := by
  have hr' := h.standsIn hr
  cases h with
  | stray _ hb hc =>
    obtain ⟨us, hus, rfl⟩ := hr'
    refine ⟨?_, hc⟩
    rw [← hus]
    simp

theorem Calls.ending_again (h : Calls r .ending r') : r'.next = (.ending, r') := by
  cases h
  rfl

theorem Calls.stray_again (h : Calls r (.stray c) r') : r'.next = (.stray c, r') := by
  cases h with
  | @stray bs _ rest hr hb hc =>
    have hblank : isBlank c = false := (isStray_eq_true_iff.1 hc).1
    have hread : Lexeme.read? (c :: rest) = none := (Lexeme.read?_eq_none_iff hblank).2 hc
    have hskip (p : Nat) : (Cursor.mk p (c :: rest)).skipBlanks = ⟨p, c :: rest⟩ := by
      simp [Cursor.skipBlanks, Cursor.advance, hblank]
    simp only [next, Cursor.scan, hskip, hread]

theorem Calls.stream_of_token (h : Calls r .token r') :
    r.cursor.stream = .token r'.current r'.cursor.stream := by
  cases h with
  | token hr hb hl =>
    have hcuts := Cuts.token (n := r.cursor.position) hb hl (cuts_iff.2 rfl)
    rw [← hr] at hcuts
    exact hcuts.stream_eq

theorem Calls.stream_of_ending (h : Calls r .ending r') :
    r.cursor.stream = .ending r'.cursor.position := by
  cases h with
  | ending hb => exact (Cuts.ending hb).stream_eq

theorem Calls.stream_of_stray (h : Calls r (.stray c) r') :
    r.cursor.stream = .stray c r'.cursor.position := by
  cases h with
  | @stray bs _ rest hr hb hc =>
    have hcuts : Cuts r.cursor.position (bs ++ c :: rest) _ := .stray hb hc
    rw [← hr] at hcuts
    exact hcuts.stream_eq

def after (text : String) : Nat → Reader
  | 0 => start text
  | n + 1 => (after text n).next.2

def answer (text : String) (n : Nat) : Advance := (after text n).next.1

theorem after_calls (text : String) (n : Nat) :
    Calls (after text n) (answer text n) (after text (n + 1)) :=
  next_calls _

theorem after_standsIn (text : String) (n : Nat) : (after text n).cursor.StandsIn text.toList := by
  induction n with
  | zero => exact ⟨[], rfl, rfl⟩
  | succ n ih => exact (after_calls text n).standsIn ih

theorem after_of_next (h : (after text n).next = (a, after text n)) {m : Nat} (hm : n ≤ m) :
    answer text m = a ∧ after text (m + 1) = after text n := by
  have hafter : after text m = after text n := by
    induction m, hm using Nat.le_induction with
    | base => rfl
    | succ m _ ih => rw [after, ih, h]
  rw [answer, after, hafter, h]
  exact ⟨rfl, rfl⟩

theorem countP_le_position (text : String) (n : Nat) :
    (List.range n).countP (fun m => answer text m = .token) ≤ (after text n).cursor.position := by
  induction n with
  | zero => exact Nat.zero_le _
  | succ n ih =>
    have hcalls := after_calls text n
    rw [List.range_succ, List.countP_append, List.countP_singleton]
    by_cases ha : answer text n = .token
    · rw [ha] at hcalls
      have hlt := hcalls.position_lt
      simp only [ha, decide_true, if_true]
      omega
    · have hle := hcalls.position_le
      simp only [ha, decide_false, Bool.false_eq_true, if_false]
      omega

theorem countP_le_length (text : String) (n : Nat) :
    (List.range n).countP (fun m => answer text m = .token) ≤ text.length :=
  (countP_le_position text n).trans
    (String.length_toList ▸ (after_standsIn text n).position_le)

theorem exists_stop (text : String) :
    ∃ k ≤ text.length, (∀ m < k, answer text m = .token) ∧ answer text k ≠ .token := by
  have hstop : ∃ k, answer text k ≠ .token := by
    by_contra hall
    push Not at hall
    have hcount := countP_le_length text (text.length + 1)
    simp only [hall, decide_true, List.countP_true, List.length_range] at hcount
    omega
  refine ⟨Nat.find hstop, ?_, fun m hm => ?_, Nat.find_spec hstop⟩
  · have hcount := countP_le_length text (Nat.find hstop)
    have htokens : ∀ m ∈ List.range (Nat.find hstop), decide (answer text m = .token) = true := by
      intro m hm
      simpa using Nat.find_min hstop (List.mem_range.1 hm)
    rwa [List.countP_eq_length.2 htokens, List.length_range] at hcount
  · simpa using Nat.find_min hstop hm

def shown (text : String) (n : Nat) : List Token :=
  (List.range n).map fun m => (after text (m + 1)).current

theorem ofString_eq_prepend (h : ∀ m < n, answer text m = .token) :
    Stream.ofString text = .prepend (shown text n) (after text n).cursor.stream := by
  induction n with
  | zero => rfl
  | succ n ih =>
    have hcalls := after_calls text n
    rw [h n (Nat.lt_succ_self n)] at hcalls
    rw [ih fun m hm => h m (Nat.lt_succ_of_lt hm), hcalls.stream_of_token, shown, shown,
      List.range_succ, List.map_append, Stream.prepend, Stream.prepend, List.foldr_append]
    rfl

theorem tokens_eq_shown (h : ∀ m < n, answer text m = .token) (hn : answer text n ≠ .token) :
    (Stream.ofString text).tokens =
      shown text n ++ if answer text n = .ending then [(after text (n + 1)).current] else [] := by
  have hcalls := after_calls text n
  rw [ofString_eq_prepend h, Stream.tokens_prepend]
  cases ha : answer text n with
  | token => exact absurd ha hn
  | ending =>
    rw [ha] at hcalls
    rw [hcalls.stream_of_ending, if_pos rfl, hcalls.current_of_ending]
    rfl
  | stray c =>
    rw [ha] at hcalls
    rw [hcalls.stream_of_stray, if_neg Advance.noConfusion]
    rfl

/-- Every call moves the reader of a text forward, or it leaves it for good at the end or at a stray
character. It moves at most once for each character, so going through the text ends. -/
theorem reader_goes_through_text (text : String) :
    (∀ n, let r := after text n
      let r' := after text (n + 1)
      r.cursor.position ≤ r'.cursor.position ∧ r'.cursor.position ≤ text.length ∧
      match answer text n with
      | .token =>
        r.cursor.position < r'.cursor.position ∧ r.cursor.position ≤ r'.current.position ∧
          Munches r'.current.lexeme
            ((text.toList.take r'.cursor.position).drop r'.current.position)
            (text.toList.drop r'.cursor.position)
      | .ending =>
        r'.cursor.position = text.length ∧ r'.current = ⟨.ending, text.length⟩ ∧
          ∀ m > n, answer text m = .ending ∧ after text (m + 1) = r'
      | .stray c =>
        text.toList[r'.cursor.position]? = some c ∧ isStray c = true ∧ r'.current = r.current ∧
          ∀ m > n, answer text m = .stray c ∧ after text (m + 1) = r') ∧
    (∀ n, (List.range n).countP (fun m => answer text m = .token) ≤ text.length) ∧
    ∃ k ≤ text.length, (∀ m < k, answer text m = .token) ∧ answer text k ≠ .token ∧
      (Stream.ofString text).tokens =
        shown text k ++ if answer text k = .ending then [(after text (k + 1)).current] else [] := by
  refine ⟨fun n => ?_, countP_le_length text, ?_⟩
  · have hcalls := after_calls text n
    have hstands := after_standsIn text n
    have hstands' := after_standsIn text (n + 1)
    have hle := hstands'.position_le
    rw [String.length_toList] at hle
    refine ⟨hcalls.position_le, hle, ?_⟩
    cases ha : answer text n with
    | token =>
      rw [ha] at hcalls
      exact ⟨hcalls.position_lt, hcalls.munches hstands⟩
    | ending =>
      rw [ha] at hcalls
      have hposition := hcalls.position_of_ending hstands
      rw [String.length_toList] at hposition
      exact ⟨hposition, hposition ▸ hcalls.current_of_ending,
        fun m hm => after_of_next hcalls.ending_again hm⟩
    | stray c =>
      rw [ha] at hcalls
      obtain ⟨hchar, hstray⟩ := hcalls.isStray hstands
      exact ⟨hchar, hstray, hcalls.current_of_stray,
        fun m hm => after_of_next hcalls.stray_again hm⟩
  · obtain ⟨k, hk, htokens, hstop⟩ := exists_stop text
    exact ⟨k, hk, htokens, hstop, tokens_eq_shown htokens hstop⟩

end Reader
end ComplexCalculator
