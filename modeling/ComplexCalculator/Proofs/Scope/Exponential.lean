import ComplexCalculator.Scope.Standard
import ComplexCalculator.Proofs.Parse.BareCall

/-!
# Powers of Euler's number

A power whose base is Euler's number goes through the exponential, and so does a call of the
function that the standard scope binds to `exp`. They come there on different ways: the one is a
power of a symbol, the other a call with one argument. Which partial function the exponential is
plays no part in this, so evaluation is described with any function in its place.
-/
namespace ComplexCalculator

def Number.powerWith (exponential : Number → Option Number) (a b : Number) : Number :=
  if a.isReal && a.re == euler then orNaN (exponential b) else orNaN (power? a b)

def Operator.applyWith (exponential : Number → Option Number) :
    Operator → Number → Number → Number
  | .pow, a, b => a.powerWith exponential b
  | op, a, b => op.apply a b

mutual
def Expr.evaluateWith (exponential : Number → Option Number) (c : Context) : Expr → Traced Number
  | .number v => ⟨v, []⟩
  | .symbol name => c.symbol name
  | .negate t =>
    let a := t.evaluateWith exponential c
    ⟨-a.value, a.events⟩
  | .factorial t =>
    let a := t.evaluateWith exponential c
    ⟨a.value.factorial c.policy, a.events⟩
  | .binary op l r =>
    let a := l.evaluateWith exponential c
    let b := r.evaluateWith exponential c
    ⟨op.applyWith exponential a.value b.value, a.events ++ b.events⟩
  | .define name t =>
    let a := c.symbol name
    let b := t.evaluateWith exponential c
    ⟨if a.value.equals b.value then Number.one else Number.zero, a.events ++ b.events⟩
  | .call _ callee ts =>
    let as := Expr.evaluateAllWith exponential c ts
    match callee with
    | some f =>
      let r := f.invokeWith exponential c as.value
      ⟨r.value, as.events ++ r.events⟩
    | none => ⟨Number.nan, as.events⟩

def Expr.evaluateAllWith (exponential : Number → Option Number) (c : Context) :
    List Expr → Traced (List Number)
  | [] => ⟨[], []⟩
  | t :: ts =>
    let a := t.evaluateWith exponential c
    let as := Expr.evaluateAllWith exponential c ts
    ⟨a.value :: as.value, a.events ++ as.events⟩

def Function.invokeWith (exponential : Number → Option Number) (c : Context)
    (arguments : List Number) : Function → Traced Number
  | .native n f => (Function.native n f).invoke c arguments
  | .custom n parameters body =>
    if arguments.length = parameters.length then
      body.evaluateWith exponential (c.bind parameters arguments)
    else (Function.custom n parameters body).invoke c arguments
end

theorem Operator.applyWith_exp? (op : Operator) : op.applyWith Number.exp? = op.apply := by
  cases op <;> rfl

mutual
theorem Expr.evaluateWith_exp? (c : Context) :
    ∀ t : Expr, t.evaluateWith Number.exp? c = t.evaluate c
  | .number v => by rw [Expr.evaluateWith, Expr.evaluate]
  | .symbol name => by rw [Expr.evaluateWith, Expr.evaluate]
  | .negate t => by rw [Expr.evaluateWith, Expr.evaluate, Expr.evaluateWith_exp? c t]
  | .factorial t => by rw [Expr.evaluateWith, Expr.evaluate, Expr.evaluateWith_exp? c t]
  | .binary op l r => by
    rw [Expr.evaluateWith, Expr.evaluate, Expr.evaluateWith_exp? c l, Expr.evaluateWith_exp? c r,
      Operator.applyWith_exp?]
  | .define name t => by rw [Expr.evaluateWith, Expr.evaluate, Expr.evaluateWith_exp? c t]
  | .call name none ts => by
    rw [Expr.evaluateWith, Expr.evaluate, Expr.evaluateAllWith_exp? c ts]
  | .call name (some f) ts => by
    rw [Expr.evaluateWith, Expr.evaluate, Expr.evaluateAllWith_exp? c ts]
    simp only [Function.invokeWith_exp? c _ f]

theorem Expr.evaluateAllWith_exp? (c : Context) :
    ∀ ts : List Expr, Expr.evaluateAllWith Number.exp? c ts = Expr.evaluateAll c ts
  | [] => by rw [Expr.evaluateAllWith, Expr.evaluateAll]
  | t :: ts => by
    rw [Expr.evaluateAllWith, Expr.evaluateAll, Expr.evaluateWith_exp? c t,
      Expr.evaluateAllWith_exp? c ts]

theorem Function.invokeWith_exp? (c : Context) (arguments : List Number) :
    ∀ f : Function, f.invokeWith Number.exp? c arguments = f.invoke c arguments
  | .native n f => by rw [Function.invokeWith]
  | .custom n parameters body => by
    rw [Function.invokeWith, Expr.evaluateWith_exp? _ body]
    split
    · rename_i hl
      rw [Function.invoke, if_pos hl]
    · rfl
end

namespace Parse
open Text

variable {v : Vocabulary} {name T : String} {f : Function} {t : Expr}

theorem parse_power_grouped (hn : IsName name) (hm : v.meaning name = .constant)
    (hT : parse v T = .ok t) :
    parse v (name ++ "^" ++ grouped T) = .ok (.binary .pow (.symbol name) t) := by
  obtain ⟨ls, hs, hb⟩ := composes_grouped hT
  have hbase : Builds v .number [.name name] (.symbol name) := by
    intro rest _
    refine .symbol ?_
    rw [Vocabulary.Admits, hm]
    trivial
  have hpower : lexemes? ('^' :: (grouped T).toList) = some (.mark .power :: ls) :=
    lexemes?_cons_mark (m := .power) rfl hs.lexemes?
  have hlexemes := spells_name hn _ _ (isSeam_cons (by decide) _) hpower
  have hd := (builds_power hbase (hb.loosen (by decide))).loosen (Nat.zero_le _) []
    (quiet_nil .relation)
  rw [List.append_nil] at hd
  refine parse_iff_derives.2 ⟨_, ?_, hd⟩
  simpa [ofString_lexemes?] using hlexemes

theorem exists_argument_lexemes (hT : parse v T = .ok t) (name : String) (f : Function) :
    ∃ ls, lexemes? T.toList = some ls ∧
      Derives v (.arguments ⟨name, f, none, []⟩) ls (.call name (some f) [t]) [] := by
  obtain ⟨ls, hls, hd⟩ := parse_iff_derives.1 hT
  exact ⟨ls, hls, .last hd nofun⟩

theorem parse_call_grouped (hn : IsName name) (hf : v.meaning name = .function f)
    (hT : parse v T = .ok t) :
    parse v (name ++ grouped T) = .ok (.call name (some f) [t]) := by
  obtain ⟨ls, hls, ha⟩ := exists_argument_lexemes hT name f
  rw [← List.append_nil ls] at ha
  exact ((begins_name hf).calls ha nofun).parse_grouped (spells_name hn).lexemes? hls

theorem parse_call_bare (hn : IsName name) (hf : v.meaning name = .function f)
    (hT : parse v T = .ok t)
    (hfront : ∀ c ∈ (T.toList.dropWhile isBlank).head?, c ≠ '(' ∧ c ≠ '^') :
    parse v (name ++ " " ++ T) = .ok (.call name (some f) [t]) := by
  obtain ⟨ls, hls, ha⟩ := exists_argument_lexemes hT name f
  have hmark {m : Mark} (hm : ls.head? = some (.mark m)) :
      ∀ c ∈ m.spelling.toList.head?, c ≠ '(' ∧ c ≠ '^' := by
    obtain ⟨r, rfl⟩ := List.head?_eq_some_iff.1 hm
    rwa [← head?_dropWhile_of_mark hls]
  have hopening : ls.head? ≠ some (.mark .opening) := fun hm => (hmark hm '(' rfl).1 rfl
  have hpower : ls.head? ≠ some (.mark .power) := fun hm => (hmark hm '^' rfl).2 rfl
  have hd := begins_name hf ls _ [] hpower (.bare hopening ha)
  refine parse_iff_derives.2 ⟨_, ?_, hd.loosen (Nat.zero_le _) (quiet_nil _)⟩
  rw [ofString_lexemes?, lexemes?_append_blank (spells_name hn).lexemes?, hls, Option.map_some]

end Parse

section
variable (exponential : Number → Option Number) {c : Context}

theorem Expr.evaluateWith_power {name : String} {a : Number} (hc : c.constant? name = some a)
    (hre : (a.re == Number.euler) = true) (him : (a.im == 0) = true) (t : Expr) :
    let r := t.evaluateWith exponential c
    (Expr.binary .pow (.symbol name) t).evaluateWith exponential c =
      ⟨Number.orNaN (exponential r.value), r.events⟩ := by
  have hbase : c.symbol name = ⟨a, []⟩ := by simp only [Context.symbol, hc]
  have hreal : (a.isReal && a.re == Number.euler) = true := Bool.and_eq_true_iff.2 ⟨him, hre⟩
  simp only [Expr.evaluateWith, hbase, Operator.applyWith, Number.powerWith, hreal, if_true,
    List.nil_append]

theorem Function.invoke_unary (n : Nat) (f : Number → Option Number) (x : Number) :
    (Function.native n (.unary f)).invoke c [x] = ⟨Number.orNaN (f x), []⟩ := by
  have hl : [x].length = (Native.unary f).arity := rfl
  rw [Function.invoke, if_pos hl]
  rfl

theorem Expr.evaluateWith_call (name : String) (n : Nat) (t : Expr) :
    let r := t.evaluateWith exponential c
    (Expr.call name (some (.native n (.unary exponential))) [t]).evaluateWith exponential c =
      ⟨Number.orNaN (exponential r.value), r.events⟩ := by
  simp only [Expr.evaluateWith, Expr.evaluateAllWith, Function.invokeWith, Function.invoke_unary,
    List.append_nil]

end

theorem Store.meaning_of_constant? {s : Store} {i : Nat} {name : String} {a : Number}
    (h : s.constant? i name = some a) : s.meaning i name = .constant := by
  unfold Store.constant? at h
  unfold Store.meaning
  cases hl : s.lookup? i name with
  | none => rw [hl] at h; cases h
  | some d =>
    cases d with
    | constant cell => rfl
    | function f => rw [hl] at h; cases h

/-- In a scope where `e` is Euler's number and `exp` is a function of one number, let a text be read
to a tree. Then the power `e^` and the call `exp` of the text in brackets are read, and so is the
call without brackets, as the same tree, when the text begins neither with a bracket nor with a
power. If the exponential is that function, the power and the call have the same value and the same
reports: those of the text, and the value of the function there or NaN where it has none. -/
theorem euler_power_is_exponential (exponential : Number → Option Number) (s : Store) (i : Nat)
    {a : Number} (he : s.constant? i "e" = some a) (hre : (a.re == Number.euler) = true)
    (him : (a.im == 0) = true) {n : Nat}
    (hexp : s.lookup? i "exp" = some (.function (.native n (.unary exponential)))) {T : String}
    {t : Expr} (hT : parse (s.vocabulary i) T = .ok t) :
    ∃ power call,
      parse (s.vocabulary i) ("e^" ++ grouped T) = .ok power ∧
      parse (s.vocabulary i) ("exp" ++ grouped T) = .ok call ∧
      ((∀ c ∈ (T.toList.dropWhile Text.isBlank).head?, c ≠ '(' ∧ c ≠ '^') →
        parse (s.vocabulary i) ("exp " ++ T) = .ok call) ∧
      (let r := t.evaluateWith exponential (s.context i)
       let value := Number.orNaN (exponential r.value)
       power.evaluateWith exponential (s.context i) = ⟨value, r.events⟩ ∧
       call.evaluateWith exponential (s.context i) = ⟨value, r.events⟩) ∧
      (exponential = Number.exp? →
        let r := t.evaluate (s.context i)
        let value := Number.orNaN (Number.exp? r.value)
        power.evaluate (s.context i) = ⟨value, r.events⟩ ∧
        call.evaluate (s.context i) = ⟨value, r.events⟩) := by
  have hname : IsName "e" := isName_of_all (by decide) (by decide)
  have hname' : IsName "exp" := isName_of_all (by decide) (by decide)
  have hconstant : (s.vocabulary i).meaning "e" = .constant := Store.meaning_of_constant? he
  have hfunction : (s.vocabulary i).meaning "exp" = .function (.native n (.unary exponential)) :=
    Store.meaning_eq_function_iff.2 hexp
  have hc : (s.context i).constant? "e" = some a := he
  have hpower := Expr.evaluateWith_power exponential hc hre him t
  have hcall := Expr.evaluateWith_call exponential (c := s.context i) "exp" n t
  have hspelled : "e^" = "e" ++ "^" := by decide
  rw [hspelled]
  refine ⟨_, _, Parse.parse_power_grouped hname hconstant hT,
    Parse.parse_call_grouped hname' hfunction hT, fun hfront => ?_, ⟨hpower, hcall⟩, ?_⟩
  · have hspelled' : "exp " = "exp" ++ " " := by decide
    rw [hspelled']
    exact Parse.parse_call_bare hname' hfunction hT hfront
  · rintro rfl
    rw [Expr.evaluateWith_exp?, Expr.evaluateWith_exp?] at hpower hcall
    exact ⟨hpower, hcall⟩

theorem euler_power_is_exponential_nested :
    let s := Store.standard none
    let f := Function.native 6 (.unary Number.exp?)
    parse (s.vocabulary 0) "exp x" = .ok (.call "exp" (some f) [.symbol "x"]) ∧
      ∃ power call, parse (s.vocabulary 0) "e^(exp x)" = .ok power ∧
        parse (s.vocabulary 0) "exp(exp x)" = .ok call ∧
        parse (s.vocabulary 0) "exp exp x" = .ok call ∧
        power.evaluate (s.context 0) = call.evaluate (s.context 0) := by
  intro s f
  have hs : Stream.ofString "exp x" =
      .token ⟨.name "exp", 0⟩ (.token ⟨.name "x", 4⟩ (.ending 5)) := by
    decide +kernel
  have hT : parse (s.vocabulary 0) "exp x" = .ok (.call "exp" (some f) [.symbol "x"]) := by
    simp only [parse, hs]
    rfl
  obtain ⟨he, hre⟩ : s.constant? 0 "e" = some (.ofReal Number.euler) ∧
      (Number.euler == Number.euler) = true := by
    decide +kernel
  obtain ⟨power, call, hpower, hcall, hbare, -, hsame⟩ :=
    euler_power_is_exponential Number.exp? s 0 he hre (Number.isReal_ofReal _) rfl hT
  obtain ⟨hvalue, hvalue'⟩ := hsame rfl
  exact ⟨hT, power, call, hpower, hcall, hbare (by simp [Text.isBlank]), hvalue.trans hvalue'.symm⟩

end ComplexCalculator
