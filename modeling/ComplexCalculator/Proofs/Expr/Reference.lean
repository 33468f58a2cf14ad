import ComplexCalculator.Proofs.Expr.Names

/-!
# Calls by number

A tree can also be evaluated knowing of the functions that it calls nothing but their numbers: each
call looks its function up in a list of all functions. Such an evaluation need not come to an end,
so it is given a limit for the calls of custom functions that are active at once. When the functions
of the list call only functions before them, no more calls are ever active at once than there are
custom functions, and the evaluation gives what plain evaluation gives.
-/
namespace ComplexCalculator

/-- What calls by number give to arguments, as far as they come to an end. -/
abbrev Dispatch := Nat → Context → List Number → Option (Traced Number)

mutual
def Expr.evaluateBy (d : Dispatch) (c : Context) : Expr → Option (Traced Number)
  | .number v => some ⟨v, []⟩
  | .symbol name => some (c.symbol name)
  | .negate t => do
    let a ← t.evaluateBy d c
    some ⟨-a.value, a.events⟩
  | .factorial t => do
    let a ← t.evaluateBy d c
    some ⟨a.value.factorial c.policy, a.events⟩
  | .binary op l r => do
    let a ← l.evaluateBy d c
    let b ← r.evaluateBy d c
    some ⟨op.apply a.value b.value, a.events ++ b.events⟩
  | .define name t => do
    let a := c.symbol name
    let b ← t.evaluateBy d c
    some ⟨if a.value.equals b.value then Number.one else Number.zero, a.events ++ b.events⟩
  | .call _ callee ts => do
    let as ← Expr.evaluateAllBy d c ts
    match callee with
    | some f =>
      let r ← d f.serial c as.value
      some ⟨r.value, as.events ++ r.events⟩
    | none => some ⟨Number.nan, as.events⟩

def Expr.evaluateAllBy (d : Dispatch) (c : Context) : List Expr → Option (Traced (List Number))
  | [] => some ⟨[], []⟩
  | t :: ts => do
    let a ← t.evaluateBy d c
    let as ← Expr.evaluateAllBy d c ts
    some ⟨a.value :: as.value, a.events ++ as.events⟩
end

namespace Function

def isCustom : Function → Bool
  | .native _ _ => false
  | .custom _ _ _ => true

def invokeBy (d : Dispatch) (c : Context) (arguments : List Number) :
    Function → Option (Traced Number)
  | .custom n parameters body =>
    if arguments.length = parameters.length then body.evaluateBy d (c.bind parameters arguments)
    else some ((Function.custom n parameters body).invoke c arguments)
  | f => some (f.invoke c arguments)

/-- Calls of the functions of a list, of which no more than so many custom ones may be active at
once. -/
def dispatch (fs : List Function) : Nat → Dispatch
  | 0, n, c, arguments =>
    fs[n]?.bind fun f => if f.isCustom then none else some (f.invoke c arguments)
  | limit + 1, n, c, arguments => fs[n]?.bind (·.invokeBy (dispatch fs limit) c arguments)

end Function

def Dispatch.Carries (d : Dispatch) (c : Context) (calls : List (String × Option Function)) :
    Prop :=
  ∀ e ∈ calls, ∀ f, e.2 = some f → ∀ arguments, d f.serial c arguments = some (f.invoke c arguments)

theorem Dispatch.Carries.mono {d : Dispatch} {c : Context} {es es' : List (String × Option Function)}
    (h : d.Carries c es) (hs : ∀ e ∈ es', e ∈ es) : d.Carries c es' :=
  fun e he => h e (hs e he)

mutual
theorem Expr.evaluateBy_eq {d : Dispatch} {c : Context} :
    ∀ {t : Expr}, d.Carries c t.calls → t.evaluateBy d c = some (t.evaluate c)
  | .number v, _ => by rw [Expr.evaluateBy, Expr.evaluate]
  | .symbol name, _ => by rw [Expr.evaluateBy, Expr.evaluate]
  | .negate t, h => by
    rw [Expr.calls] at h
    rw [Expr.evaluateBy, Expr.evaluate, Expr.evaluateBy_eq h]
    rfl
  | .factorial t, h => by
    rw [Expr.calls] at h
    rw [Expr.evaluateBy, Expr.evaluate, Expr.evaluateBy_eq h]
    rfl
  | .binary op l r, h => by
    rw [Expr.calls] at h
    rw [Expr.evaluateBy, Expr.evaluate,
      Expr.evaluateBy_eq (h.mono fun _ => List.mem_append_left _),
      Expr.evaluateBy_eq (h.mono fun _ => List.mem_append_right _)]
    rfl
  | .define name t, h => by
    rw [Expr.calls] at h
    rw [Expr.evaluateBy, Expr.evaluate, Expr.evaluateBy_eq h]
    rfl
  | .call name none ts, h => by
    rw [Expr.calls] at h
    rw [Expr.evaluateBy, Expr.evaluate,
      Expr.evaluateAllBy_eq (h.mono fun _ => List.mem_cons_of_mem _)]
    rfl
  | .call name (some f) ts, h => by
    rw [Expr.calls] at h
    rw [Expr.evaluateBy, Expr.evaluate,
      Expr.evaluateAllBy_eq (h.mono fun _ => List.mem_cons_of_mem _)]
    simp only [Option.bind_eq_bind, Option.bind_some, h _ List.mem_cons_self f rfl]

theorem Expr.evaluateAllBy_eq {d : Dispatch} {c : Context} :
    ∀ {ts : List Expr}, d.Carries c (Expr.callsAll ts) →
      Expr.evaluateAllBy d c ts = some (Expr.evaluateAll c ts)
  | [], _ => by rw [Expr.evaluateAllBy, Expr.evaluateAll]
  | t :: ts, h => by
    rw [Expr.callsAll] at h
    rw [Expr.evaluateAllBy, Expr.evaluateAll,
      Expr.evaluateBy_eq (h.mono fun _ => List.mem_append_left _),
      Expr.evaluateAllBy_eq (h.mono fun _ => List.mem_append_right _)]
    rfl
end

/-- Every call holds a function, which stands in a list at the place of its number. -/
def Expr.RefersTo (t : Expr) (fs : List Function) : Prop :=
  ∀ e ∈ t.calls, ∃ f, e.2 = some f ∧ fs[f.serial]? = some f

theorem Expr.RefersTo.getElem? {t : Expr} {fs : List Function} (h : t.RefersTo fs)
    {e : String × Option Function} (he : e ∈ t.calls) {f : Function} (hf : e.2 = some f) :
    fs[f.serial]? = some f := by
  obtain ⟨g, hg, hgs⟩ := h e he
  obtain rfl := Option.some.inj (hf.symm.trans hg)
  exact hgs

theorem Expr.RefersTo.append {t : Expr} {fs : List Function} (h : t.RefersTo fs)
    (gs : List Function) : t.RefersTo (fs ++ gs) := by
  intro e he
  obtain ⟨f, hf, hfs⟩ := h e he
  exact ⟨f, hf, List.getElem?_append_left (List.getElem?_eq_some_iff.1 hfs).1 ▸ hfs⟩

namespace Function

/-- Every function stands at the place of its number, and a body calls only functions before its
own. -/
structure Ordered (fs : List Function) : Prop where
  serial : ∀ (n : Nat) (f : Function), fs[n]? = some f → f.serial = n
  body : ∀ (n m : Nat) (parameters : List String) (body : Expr),
    fs[n]? = some (.custom m parameters body) → body.RefersTo (fs.take n)

theorem eq_or_last {fs : List Function} {f g : Function} {n : Nat}
    (h : (fs ++ [f])[n]? = some g) : fs[n]? = some g ∨ n = fs.length ∧ f = g := by
  rcases Nat.lt_or_ge n fs.length with hn | hn
  · rw [List.getElem?_append_left hn] at h
    exact .inl h
  · rw [List.getElem?_append_right hn, List.getElem?_singleton] at h
    split at h
    · rename_i hzero
      exact .inr ⟨Nat.le_antisymm (Nat.le_of_sub_eq_zero hzero) hn, Option.some.inj h⟩
    · cases h

theorem Ordered.append {fs : List Function} (h : Ordered fs) {f : Function}
    (hs : f.serial = fs.length)
    (hb : ∀ m parameters body, f = .custom m parameters body → body.RefersTo fs) :
    Ordered (fs ++ [f]) where
  serial n g hg := by
    rcases eq_or_last hg with hg | ⟨rfl, rfl⟩
    · exact h.serial n g hg
    · exact hs
  body n m parameters body hg := by
    rcases eq_or_last hg with hg | ⟨rfl, rfl⟩
    · rw [List.take_append_of_le_length (Nat.le_of_lt (List.getElem?_eq_some_iff.1 hg).1)]
      exact h.body n m parameters body hg
    · rw [List.take_left]
      exact hb m parameters body rfl

def Calls (fs : List Function) (n m : Nat) : Prop :=
  ∃ k parameters body, fs[n]? = some (.custom k parameters body) ∧
    ∃ e ∈ body.calls, ∃ f, e.2 = some f ∧ f.serial = m

theorem Ordered.lt_of_calls {fs : List Function} (h : Ordered fs) {n m : Nat}
    (hc : Relation.TransGen (Calls fs) n m) : m < n := by
  have step : ∀ {a b}, Calls fs a b → b < a := by
    rintro a b ⟨k, parameters, body, ha, e, he, f, hf, rfl⟩
    have hplace := (h.body a k parameters body ha).getElem? he hf
    have hlt := (List.getElem?_eq_some_iff.1 hplace).1
    exact Nat.lt_of_lt_of_le hlt (List.length_take_le _ _)
  induction hc with
  | single hab => exact step hab
  | tail _ hbc ih => exact Nat.lt_trans (step hbc) ih

theorem Ordered.dispatch_eq {fs : List Function} (h : Ordered fs) {limit n : Nat} {f : Function}
    (hf : fs[n]? = some f) (hl : (fs.take (n + 1)).countP isCustom ≤ limit) (c : Context)
    (arguments : List Number) : dispatch fs limit n c arguments = some (f.invoke c arguments) := by
  induction limit generalizing n f c arguments with
  | zero =>
    have hmem : f ∈ fs.take (n + 1) := by
      rw [List.take_add_one, hf]
      simp
    have hn : f.isCustom = false := by
      simpa using List.countP_eq_zero.1 (Nat.le_zero.1 hl) f hmem
    simp [dispatch, hf, hn]
  | succ limit ih =>
    rw [dispatch, hf, Option.bind_some]
    cases f with
    | native m f => rfl
    | custom m parameters body =>
      rw [invokeBy]
      split
      · rename_i hlength
        rw [invoke, if_pos hlength]
        refine Expr.evaluateBy_eq fun e he g hg arguments => ?_
        have hplace := (h.body n m parameters body hf).getElem? he hg
        -- The functions up to the called one are all before the calling one, which is custom.
        have hlt : g.serial < n :=
          Nat.lt_of_lt_of_le (List.getElem?_eq_some_iff.1 hplace).1 (List.length_take_le _ _)
        have hle : (fs.take (g.serial + 1)).countP isCustom ≤ (fs.take n).countP isCustom :=
          (List.take_sublist_take_left hlt).countP_le
        have hcount : (fs.take (n + 1)).countP isCustom = (fs.take n).countP isCustom + 1 := by
          rw [List.take_add_one, hf]
          simp [isCustom]
        have hgf : fs[g.serial]? = some g := by rwa [List.getElem?_take_of_lt hlt] at hplace
        exact ih hgf (by omega) _ arguments
      · rfl

/-- A tree whose calls refer to ordered functions is evaluated by number within as many active calls
as there are custom functions. -/
theorem Ordered.evaluateBy_eq {fs : List Function} (h : Ordered fs) {t : Expr}
    (ht : t.RefersTo fs) (c : Context) :
    t.evaluateBy (dispatch fs (fs.countP isCustom)) c = some (t.evaluate c) := by
  refine Expr.evaluateBy_eq fun e he f hf arguments => ?_
  exact h.dispatch_eq (ht.getElem? he hf) (List.take_sublist _ _).countP_le c arguments

theorem dispatch_self_call {fs : List Function} {n m : Nat} {name : String} {f : Function}
    (hn : fs[n]? = some (.custom m [] (.call name (some f) []))) (hf : f.serial = n) (limit : Nat)
    (c : Context) : dispatch fs limit n c [] = none := by
  induction limit generalizing c with
  | zero => simp [dispatch, hn, isCustom]
  | succ limit ih => simp [dispatch, hn, invokeBy, Expr.evaluateBy, Expr.evaluateAllBy, hf, ih]

end Function
end ComplexCalculator
