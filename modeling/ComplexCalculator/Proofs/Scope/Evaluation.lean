import ComplexCalculator.Proofs.Scope.Maps

/-!
# Evaluation inside of a store

A call of a user's function can be carried out in the store: a scope is made inside of the caller's,
the parameters are defined there one after the other, and the body is evaluated in it. This gives
the values and the reports of plain evaluation, and it leaves all that has been there as it is: the
new scopes and cells lie behind the old ones.
-/
namespace ComplexCalculator

def parameterChanges (parameters : List String) (arguments : List Number) : List Change :=
  (parameters.zip arguments).map fun p => .constant p.1 p.2

/-- The scope of a call, which is the newest one. -/
def Store.enter (s : Store) (i : Nat) (parameters : List String) (arguments : List Number) :
    Store :=
  (s.change i (.child none)).changeAll s.scopes.size (parameterChanges parameters arguments)

mutual
def Expr.evaluateIn (s : Store) (i : Nat) : Expr → Traced Number × Store
  | .number v => (⟨v, []⟩, s)
  | .symbol name => ((s.context i).symbol name, s)
  | .negate t =>
    let a := t.evaluateIn s i
    (⟨-a.1.value, a.1.events⟩, a.2)
  | .factorial t =>
    let a := t.evaluateIn s i
    (⟨a.1.value.factorial (s.context i).policy, a.1.events⟩, a.2)
  | .binary op l r =>
    let a := l.evaluateIn s i
    let b := r.evaluateIn a.2 i
    (⟨op.apply a.1.value b.1.value, a.1.events ++ b.1.events⟩, b.2)
  | .define name t =>
    let a := (s.context i).symbol name
    let b := t.evaluateIn s i
    (⟨if a.value.equals b.1.value then Number.one else Number.zero, a.events ++ b.1.events⟩, b.2)
  | .call _ callee ts =>
    let as := Expr.evaluateAllIn s i ts
    match callee with
    | some f =>
      let r := f.invokeIn as.2 i as.1.value
      (⟨r.1.value, as.1.events ++ r.1.events⟩, r.2)
    | none => (⟨Number.nan, as.1.events⟩, as.2)

def Expr.evaluateAllIn (s : Store) (i : Nat) : List Expr → Traced (List Number) × Store
  | [] => (⟨[], []⟩, s)
  | t :: ts =>
    let a := t.evaluateIn s i
    let as := Expr.evaluateAllIn a.2 i ts
    (⟨a.1.value :: as.1.value, a.1.events ++ as.1.events⟩, as.2)

def Function.invokeIn (s : Store) (i : Nat) (arguments : List Number) :
    Function → Traced Number × Store
  | .native n f => ((Function.native n f).invoke (s.context i) arguments, s)
  | .custom n parameters body =>
    if arguments.length = parameters.length then
      body.evaluateIn (s.enter i parameters arguments) s.scopes.size
    else ((Function.custom n parameters body).invoke (s.context i) arguments, s)
end

namespace Maps

theorem changeAll_constants (m : Maps) (n : Nat) (ps : List (String × Number)) :
    m.changeAll n (ps.map fun p => .constant p.1 p.2) =
      { m with get? := fun j name =>
          if n = j then ((ps.reverse.lookup name).map .constant).or (m.get? j name)
          else m.get? j name } := by
  induction ps generalizing m with
  | nil => simp [changeAll]
  | cons p ps ih =>
    obtain ⟨a, value⟩ := p
    have hstep : m.changeAll n (((a, value) :: ps).map fun p => .constant p.1 p.2) =
        (m.set n a (some (.constant value))).changeAll n (ps.map fun p => .constant p.1 p.2) := rfl
    rw [hstep, ih]
    simp only [set, mk.injEq, true_and, and_true]
    funext j name
    by_cases hj : n = j
    · simp only [hj, if_pos, true_and, List.reverse_cons, List.lookup_append, List.lookup_cons,
        List.lookup_nil]
      by_cases hname : name = a
      · cases ps.reverse.lookup name <;> simp [hname]
      · have hbeq : (name == a) = false := beq_eq_false_iff_ne.2 hname
        cases ps.reverse.lookup name <;> simp [hbeq, Ne.symm hname]
    · simp [hj]

end Maps

theorem findSome?_congr {α β : Type} {f g : α → Option β} {l : List α}
    (h : ∀ a ∈ l, f a = g a) : l.findSome? f = l.findSome? g := by
  induction l with
  | nil => rfl
  | cons a l ih =>
    obtain ⟨ha, hl⟩ := List.forall_mem_cons.1 h
    rw [List.findSome?_cons, List.findSome?_cons, ha, ih hl]

namespace Store

theorem Sound.lt_of_mem_chain {s : Store} (h : s.Sound) {i n : Nat} (hi : i < n) {j : Nat}
    (hj : j ∈ s.chain i) : j < n := by
  rcases List.mem_cons.1 hj with rfl | hj
  · exact hi
  · exact Nat.lt_trans (h.outer i j hj) hi

theorem local?_fresh (s : Store) {n : Nat} (hn : s.scopes.size ≤ n) (name : String) :
    s.local? n name = none := by
  simp [local?, bindings, Array.getElem?_eq_none hn]

theorem maps_enter {s : Store} (h : s.Sound) {i : Nat} (hi : i < s.scopes.size)
    (parameters : List String) (arguments : List Number) :
    (s.enter i parameters arguments).maps =
      { s.maps.change i (.child none) with
        get? := fun j name =>
          if s.scopes.size = j then
            (((parameters.zip arguments).reverse.lookup name).map .constant).or (s.maps.get? j name)
          else s.maps.get? j name } := by
  have hn : s.scopes.size < (s.change i (.child none)).scopes.size := by simp [change, child]
  rw [enter, parameterChanges, maps_changeAll (h.change hi _) hn, maps_change h hi,
    Maps.changeAll_constants]
  rfl

theorem maps_chain_enter {s : Store} (h : s.Sound) {i : Nat} (hi : i < s.scopes.size)
    (parameters : List String) (arguments : List Number) :
    (s.enter i parameters arguments).maps.chain s.scopes.size = s.scopes.size :: s.chain i := by
  rw [maps_enter h hi]
  exact congrArg (_ :: ·) (if_pos rfl)

theorem maps_lookup?_enter {s : Store} (h : s.Sound) {i : Nat} (hi : i < s.scopes.size)
    (parameters : List String) (arguments : List Number) (name : String) :
    (s.enter i parameters arguments).maps.lookup? s.scopes.size name =
      (((parameters.zip arguments).reverse.lookup name).map .constant).or
        (s.maps.lookup? i name) := by
  have hout : (s.chain i).findSome? (fun j => (s.enter i parameters arguments).maps.get? j name) =
      s.maps.lookup? i name := by
    refine findSome?_congr fun j hj => ?_
    rw [maps_enter h hi]
    exact if_neg (Nat.ne_of_gt (h.lt_of_mem_chain hi hj))
  have hin : (s.enter i parameters arguments).maps.get? s.scopes.size name =
      ((parameters.zip arguments).reverse.lookup name).map .constant := by
    have hnone : s.maps.get? s.scopes.size name = none :=
      congrArg (Option.map s.entry) (local?_fresh s (Nat.le_refl _) name)
    rw [maps_enter h hi]
    exact (if_pos rfl).trans (by rw [hnone, Option.or_none])
  rw [Maps.lookup?, maps_chain_enter h hi, List.findSome?_cons, hin, hout]
  cases (parameters.zip arguments).reverse.lookup name <;> rfl

theorem settings_enter {s : Store} (h : s.Sound) {i : Nat} (hi : i < s.scopes.size)
    (parameters : List String) (arguments : List Number) :
    (s.enter i parameters arguments).settings s.scopes.size = s.settings i := by
  have hout : (s.chain i).findSome? (s.enter i parameters arguments).maps.settings? =
      (s.chain i).findSome? s.maps.settings? := by
    refine findSome?_congr fun j hj => ?_
    rw [maps_enter h hi]
    exact if_neg (Nat.ne_of_lt (h.lt_of_mem_chain hi hj))
  have hin : (s.enter i parameters arguments).maps.settings? s.scopes.size = none := by
    rw [maps_enter h hi]
    exact if_pos rfl
  rw [← maps_settings, ← maps_settings, Maps.settings, maps_chain_enter h hi, List.findSome?_cons,
    hin, hout]
  rfl

theorem context_enter {s : Store} (h : s.Sound) {i : Nat} (hi : i < s.scopes.size)
    (parameters : List String) (arguments : List Number) :
    (s.enter i parameters arguments).context s.scopes.size =
      (s.context i).bind parameters arguments := by
  simp only [context, Context.bind, settings_enter h hi, Context.mk.injEq, and_true]
  funext name
  rw [← maps_constant?, ← maps_constant?, Maps.constant?, maps_lookup?_enter h hi]
  cases (parameters.zip arguments).reverse.lookup name <;> rfl

structure Extends (s s' : Store) : Prop where
  evolves : s.Evolves s'
  scopes : ∀ j < s.scopes.size, s'.scopes[j]? = s.scopes[j]?
  cells : ∀ cell < s.cells.size, s'.cells[cell]? = s.cells[cell]?
  functions : s'.functions = s.functions

theorem Evolves.trans {s s' s'' : Store} (h : s.Evolves s') (h' : s'.Evolves s'') :
    s.Evolves s'' := by
  induction h' with
  | refl => exact h
  | change h' hi c ih => exact ih.change hi c

theorem Evolves.scopes_size {s s' : Store} (h : s.Evolves s') : s.scopes.size ≤ s'.scopes.size := by
  induction h with
  | refl => exact Nat.le_refl _
  | change h hi c ih => exact Nat.le_trans ih (scopes_size_change _ _ c)

theorem Evolves.cells_size {s s' : Store} (h : s.Evolves s') : s.cells.size ≤ s'.cells.size := by
  induction h with
  | refl => exact Nat.le_refl _
  | change h hi c ih => exact Nat.le_trans ih (cells_size_change _ _ c)

namespace Extends
variable {s s' s'' : Store}

theorem refl (s : Store) : s.Extends s := ⟨.refl, fun _ _ => rfl, fun _ _ => rfl, rfl⟩

theorem trans (h : s.Extends s') (h' : s'.Extends s'') : s.Extends s'' where
  evolves := h.evolves.trans h'.evolves
  scopes j hj :=
    (h'.scopes j (Nat.lt_of_lt_of_le hj h.evolves.scopes_size)).trans (h.scopes j hj)
  cells cell hc :=
    (h'.cells cell (Nat.lt_of_lt_of_le hc h.evolves.cells_size)).trans (h.cells cell hc)
  functions := h'.functions.trans h.functions

theorem child (h : s.Extends s') {i : Nat} (hi : i < s'.scopes.size) (settings : Option Settings) :
    s.Extends (s'.change i (.child settings)) where
  evolves := h.evolves.change hi _
  scopes j hj := by
    have hne : j ≠ s'.scopes.size := Nat.ne_of_lt (Nat.lt_of_lt_of_le hj h.evolves.scopes_size)
    rw [← h.scopes j hj, change, Store.child, Array.getElem?_push, if_neg hne]
  cells := h.cells
  functions := h.functions

theorem constant (h : s.Extends s') {n : Nat} (hn : s.scopes.size ≤ n) (hn' : n < s'.scopes.size)
    (name : String) (value : Number) : s.Extends (s'.change n (.constant name value)) where
  evolves := h.evolves.change hn' _
  scopes j hj := by
    obtain ⟨f, hf⟩ := s'.scopes_change n (c := .constant name value) rfl
    have hne : n ≠ j := Nat.ne_of_gt (Nat.lt_of_lt_of_le hj hn)
    rw [hf, ← h.scopes j hj, update, Array.getElem?_modify, if_neg hne]
  cells cell hc := by
    rw [← h.cells cell hc]
    obtain ⟨old, hold, he⟩ | ⟨-, he⟩ := s'.defineConstant_eq n name value
    · have hne : old ≠ cell := by
        rintro rfl
        have hbefore := h.evolves.bound_before (d := .constant old) hc hold
        rw [local?_fresh s hn] at hbefore
        cases hbefore
      rw [change, he]
      exact Array.getElem?_setIfInBounds_ne hne
    · have hne : cell ≠ s'.cells.size := Nat.ne_of_lt (Nat.lt_of_lt_of_le hc h.evolves.cells_size)
      rw [change, he]
      exact Array.getElem?_push.trans (if_neg hne)
  functions := (s'.functions_defineConstant n name value).trans h.functions

theorem constants (h : s.Extends s') {n : Nat} (hn : s.scopes.size ≤ n) (hn' : n < s'.scopes.size)
    (ps : List (String × Number)) :
    s.Extends (s'.changeAll n (ps.map fun p => .constant p.1 p.2)) := by
  induction ps generalizing s' with
  | nil => exact h
  | cons p ps ih =>
    exact ih (h.constant hn hn' p.1 p.2) (Nat.lt_of_lt_of_le hn' (s'.scopes_size_change n _))

theorem enter (s : Store) {i : Nat} (hi : i < s.scopes.size) (parameters : List String)
    (arguments : List Number) : s.Extends (s.enter i parameters arguments) :=
  ((refl s).child hi none).constants (Nat.le_refl _) (by simp [change, Store.child]) _

theorem chain_eq (h : s.Extends s') {j : Nat} (hj : j < s.scopes.size) :
    s'.chain j = s.chain j := by
  rw [chain, chain, h.scopes j hj]

theorem local?_eq (h : s.Extends s') {j : Nat} (hj : j < s.scopes.size) (name : String) :
    s'.local? j name = s.local? j name := by
  rw [local?, local?, bindings, bindings, h.scopes j hj]

theorem lookup?_eq (h : s.Extends s') (hs : s.Sound) {i : Nat} (hi : i < s.scopes.size)
    (name : String) : s'.lookup? i name = s.lookup? i name := by
  rw [lookup?, lookup?, h.chain_eq hi]
  exact findSome?_congr fun j hj => h.local?_eq (hs.lt_of_mem_chain hi hj) name

theorem constant?_eq (h : s.Extends s') (hs : s.Sound) {i : Nat} (hi : i < s.scopes.size)
    (name : String) : s'.constant? i name = s.constant? i name := by
  rw [constant?, constant?, h.lookup?_eq hs hi]
  cases hl : s.lookup? i name with
  | none => rfl
  | some d =>
    cases d with
    | function f => rfl
    | constant cell =>
      obtain ⟨j, -, hj⟩ := List.exists_of_findSome?_eq_some hl
      have hc : cell < s.cells.size := hs.made j name _ hj
      simp only [read, h.cells cell hc]

theorem settings_eq (h : s.Extends s') (hs : s.Sound) {i : Nat} (hi : i < s.scopes.size) :
    s'.settings i = s.settings i := by
  rw [settings, settings, h.chain_eq hi]
  refine congrArg (Option.getD · _) (findSome?_congr fun j hj => ?_)
  rw [h.scopes j (hs.lt_of_mem_chain hi hj)]

theorem context_eq (h : s.Extends s') (hs : s.Sound) {i : Nat} (hi : i < s.scopes.size) :
    s'.context i = s.context i := by
  rw [context, context, h.settings_eq hs hi, funext (h.constant?_eq hs hi)]

theorem sound (h : s.Extends s') (hs : s.Sound) : s'.Sound := h.evolves.sound hs

theorem lt_size (h : s.Extends s') {i : Nat} (hi : i < s.scopes.size) : i < s'.scopes.size :=
  Nat.lt_of_lt_of_le hi h.evolves.scopes_size

end Extends

end Store

mutual
/-- Evaluation in a store gives what plain evaluation gives, and leaves what has been there. -/
theorem Expr.evaluateIn_eq {s : Store} (hs : s.Sound) {i : Nat} (hi : i < s.scopes.size) :
    ∀ t : Expr, (t.evaluateIn s i).1 = t.evaluate (s.context i) ∧ s.Extends (t.evaluateIn s i).2
  | .number v => ⟨rfl, .refl s⟩
  | .symbol name => ⟨rfl, .refl s⟩
  | .negate t => by
    obtain ⟨ht, he⟩ := Expr.evaluateIn_eq hs hi t
    simp only [Expr.evaluateIn, Expr.evaluate, ht]
    exact ⟨trivial, he⟩
  | .factorial t => by
    obtain ⟨ht, he⟩ := Expr.evaluateIn_eq hs hi t
    simp only [Expr.evaluateIn, Expr.evaluate, ht]
    exact ⟨trivial, he⟩
  | .binary op l r => by
    obtain ⟨hl, he⟩ := Expr.evaluateIn_eq hs hi l
    obtain ⟨hr, he'⟩ := Expr.evaluateIn_eq (he.sound hs) (he.lt_size hi) r
    rw [he.context_eq hs hi] at hr
    simp only [Expr.evaluateIn, Expr.evaluate, hl, hr]
    exact ⟨trivial, he.trans he'⟩
  | .define name t => by
    obtain ⟨ht, he⟩ := Expr.evaluateIn_eq hs hi t
    simp only [Expr.evaluateIn, Expr.evaluate, ht]
    exact ⟨trivial, he⟩
  | .call name none ts => by
    obtain ⟨hts, he⟩ := Expr.evaluateAllIn_eq hs hi ts
    simp only [Expr.evaluateIn, Expr.evaluate, hts]
    exact ⟨trivial, he⟩
  | .call name (some f) ts => by
    obtain ⟨hts, he⟩ := Expr.evaluateAllIn_eq hs hi ts
    obtain ⟨hf, he'⟩ := Function.invokeIn_eq (he.sound hs) (he.lt_size hi)
      (Expr.evaluateAll (s.context i) ts).value f
    rw [he.context_eq hs hi] at hf
    simp only [Expr.evaluateIn, Expr.evaluate, hts, hf]
    exact ⟨trivial, he.trans he'⟩

theorem Expr.evaluateAllIn_eq {s : Store} (hs : s.Sound) {i : Nat} (hi : i < s.scopes.size) :
    ∀ ts : List Expr, (Expr.evaluateAllIn s i ts).1 = Expr.evaluateAll (s.context i) ts ∧
      s.Extends (Expr.evaluateAllIn s i ts).2
  | [] => ⟨rfl, .refl s⟩
  | t :: ts => by
    obtain ⟨ht, he⟩ := Expr.evaluateIn_eq hs hi t
    obtain ⟨hts, he'⟩ := Expr.evaluateAllIn_eq (he.sound hs) (he.lt_size hi) ts
    rw [he.context_eq hs hi] at hts
    simp only [Expr.evaluateAllIn, Expr.evaluateAll, ht, hts]
    exact ⟨trivial, he.trans he'⟩

theorem Function.invokeIn_eq {s : Store} (hs : s.Sound) {i : Nat} (hi : i < s.scopes.size)
    (arguments : List Number) :
    ∀ f : Function, (f.invokeIn s i arguments).1 = f.invoke (s.context i) arguments ∧
      s.Extends (f.invokeIn s i arguments).2
  | .native n f => ⟨rfl, .refl s⟩
  | .custom n parameters body => by
    have he : s.Extends (s.enter i parameters arguments) := .enter s hi parameters arguments
    have hn : s.scopes.size < (s.enter i parameters arguments).scopes.size := by
      have hmaps := congrArg Maps.size (Store.maps_enter hs hi parameters arguments)
      exact Nat.lt_of_lt_of_eq (Nat.lt_succ_self _) hmaps.symm
    -- The new scope is the last one of the entered store, where the body's own calls go on.
    obtain ⟨hb, he'⟩ := Expr.evaluateIn_eq (he.sound hs) hn body
    rw [Store.context_enter hs hi] at hb
    simp only [Function.invokeIn, Function.invoke]
    split
    · exact ⟨hb, he.trans he'⟩
    · exact ⟨rfl, .refl s⟩
end

end ComplexCalculator
