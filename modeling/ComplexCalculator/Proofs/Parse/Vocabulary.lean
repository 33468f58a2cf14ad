import ComplexCalculator.Parse.Machine

/-!
# What reading asks of a vocabulary

The machine asks what the names of a text mean, each when it comes to it, and of the answer it only
uses whether the name is a function, and which one, and in strict reading whether it is unknown. So
vocabularies that tell a text's names apart alike read it alike, down to the error.
-/
namespace ComplexCalculator

/-- Two vocabularies whose answers about a name make no difference to the machine. -/
structure Vocabulary.Concur (v w : Vocabulary) (name : String) : Prop where
  function : ∀ f, v.meaning name = .function f ↔ w.meaning name = .function f
  unknown : v.isStrict = true → (v.meaning name = .unknown ↔ w.meaning name = .unknown)

theorem Vocabulary.concur_of_meaning {v w : Vocabulary} {name : String}
    (h : v.meaning name = w.meaning name) : v.Concur w name where
  function f := by rw [h]
  unknown _ := by rw [h]

namespace Parse

variable {v w : Vocabulary} {k : Token}

theorem begin_congr (hs : v.isStrict = w.isStrict)
    (h : ∀ name, k.lexeme = .name name → v.Concur w name) (stack : List Frame) :
    begin v stack k = begin w stack k := by
  unfold begin
  cases hk : k.lexeme with
  | name name =>
    obtain ⟨hf, hu⟩ := h name hk
    cases hv : v.meaning name with
    | function f => simp only [hv, (hf f).1 hv]
    | constant =>
      cases hw : w.meaning name with
      | function f => cases hv.symm.trans ((hf f).2 hw)
      | constant => simp only [hv, hw]
      | unknown =>
        cases hi : v.isStrict with
        | false => simp [hv, hw, ← hs, hi]
        | true => cases hv.symm.trans ((hu hi).2 hw)
    | unknown =>
      cases hw : w.meaning name with
      | function f => cases hv.symm.trans ((hf f).2 hw)
      | constant =>
        cases hi : v.isStrict with
        | false => simp [hv, hw]
        | true => cases hw.symm.trans ((hu hi).1 hv)
      | unknown => simp only [hv, hw, hs]
  | mark m => cases m <;> rfl
  | number x => rfl
  | ending => rfl

theorem beginArguments_congr (hs : v.isStrict = w.isStrict)
    (h : ∀ name, k.lexeme = .name name → v.Concur w name) (stack : List Frame) (c : Pending) :
    beginArguments v stack c k = beginArguments w stack c k := by
  rw [beginArguments, beginArguments, begin_congr hs h]

theorem resume_congr (hs : v.isStrict = w.isStrict)
    (h : ∀ name, k.lexeme = .name name → v.Concur w name) (stack : List Frame) (g : Grade)
    (t : Expr) : resume v k stack g t = resume w k stack g t := by
  induction stack generalizing g t with
  | nil => rw [resume, resume]
  | cons f fs ih =>
    cases f <;> rw [resume, resume] <;> simp only [ih, beginArguments_congr hs h]

theorem step_congr (hs : v.isStrict = w.isStrict)
    (h : ∀ name, k.lexeme = .name name → v.Concur w name) (s : State) :
    step v s k = step w s k := by
  unfold step
  simp only [begin_congr hs h, beginArguments_congr hs h, resume_congr hs h]

theorem run_congr (hs : v.isStrict = w.isStrict) {s : Stream}
    (h : ∀ k ∈ s.tokens, ∀ name, k.lexeme = .name name → v.Concur w name) (a : State) :
    run v a s = run w a s := by
  induction s generalizing a with
  | token k rest ih =>
    obtain ⟨hk, hrest⟩ := List.forall_mem_cons.1 h
    simp only [run, step_congr hs hk, ih hrest]
  | ending n =>
    simp only [run, step_congr (k := ⟨.ending, n⟩) hs nofun]
  | stray c n => rfl

end Parse

theorem parse_congr {v w : Vocabulary} (hs : v.isStrict = w.isStrict) {text : String}
    (h : ∀ k ∈ (Stream.ofString text).tokens, ∀ name, k.lexeme = .name name → v.Concur w name) :
    parse v text = parse w text :=
  Parse.run_congr hs h .start

end ComplexCalculator
