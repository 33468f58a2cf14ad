import ComplexCalculator.Settings.Admission
import ComplexCalculator.Proofs.Number.Numeral

/-!
# What is admitted

Settings are refused exactly when some field is given a value that its reader refuses. Then there is
one refusal for each such field, in the order of the fields, with the reader's reason. Settings that
are admitted are admitted again when they are given as values, or as texts in an environment; and a
field may be left out where it has its standard value. A whole number may be spelled by any run of
digits behind a sign or none, with spaces at the ends.
-/
namespace ComplexCalculator
open Text

theorem Text.dropWhile_append_of_head {p : Char → Bool} {bs cs : List Char}
    (hb : ∀ c ∈ bs, p c = true) (hc : ∀ c ∈ cs.head?, p c = false) :
    (bs ++ cs).dropWhile p = cs := by
  rw [List.dropWhile_append_of_pos hb]
  cases cs with
  | nil => rfl
  | cons c cs => exact List.dropWhile_cons_of_neg (by simp [hc c rfl])

theorem Text.strip_append {p : Char → Bool} {bs ms bs' : List Char} (hb : ∀ c ∈ bs, p c = true)
    (hm : ∀ c ∈ ms, p c = false) (hb' : ∀ c ∈ bs', p c = true) :
    strip p (bs ++ (ms ++ bs')) = ms := by
  cases ms with
  | nil =>
    have hall : (bs ++ bs').dropWhile p = [] :=
      List.dropWhile_eq_nil_iff.2 (List.forall_mem_append.2 ⟨hb, hb'⟩)
    rw [strip, List.nil_append, hall]
    rfl
  | cons m ms =>
    have hfront : ∀ c ∈ (m :: ms ++ bs').head?, p c = false := by
      rintro c ⟨⟩
      exact hm m List.mem_cons_self
    have hback : ∀ c ∈ (m :: ms).reverse.head?, p c = false := fun c hc =>
      hm c (List.mem_reverse.1 (List.mem_of_mem_head? hc))
    have hends : ∀ c ∈ bs'.reverse, p c = true := fun c hc => hb' c (List.mem_reverse.1 hc)
    rw [strip, dropWhile_append_of_head hb hfront, List.reverse_append,
      dropWhile_append_of_head hends hback, List.reverse_reverse]

namespace RawValue
variable {ds : List Char} {n : Nat}

theorem skipZeros_digits (hd : ∀ c ∈ ds, c.isDigit = true) :
    skipZeros '0' ds = some (ComplexCalculator.dropLeadingZeros ('0' :: ds)) := by
  induction ds with
  | nil => rfl
  | cons c ds ih =>
    obtain ⟨hc, hds⟩ := List.forall_mem_cons.1 hd
    by_cases hzero : c = '0'
    · subst hzero
      exact ih hds
    · have hunderscore : c ≠ '_' := by
        rintro rfl
        cases hc
      simp [skipZeros, ComplexCalculator.dropLeadingZeros, hzero, hunderscore, hc]

theorem dropLeadingZeros?_digits (hn : ds ≠ []) (hd : ∀ c ∈ ds, c.isDigit = true) :
    dropLeadingZeros? ds = some (ComplexCalculator.dropLeadingZeros ds) := by
  cases ds with
  | nil => exact absurd rfl hn
  | cons c ds =>
    obtain ⟨hc, hds⟩ := List.forall_mem_cons.1 hd
    by_cases hzero : c = '0'
    · subst hzero
      exact skipZeros_digits hds
    · simp [dropLeadingZeros?, ComplexCalculator.dropLeadingZeros, hzero, hc]

theorem dropPointZeros_digits (hd : ∀ c ∈ ds, c.isDigit = true) : dropPointZeros ds = ds := by
  have hpoint : ds.dropWhile (· != '.') = [] :=
    List.dropWhile_eq_nil_iff.2 (Decimal.ne_of_isDigit hd rfl)
  rw [dropPointZeros, hpoint]

theorem dropUnderscores_digits (hd : ∀ c ∈ ds, c.isDigit = true) : dropUnderscores ds = ds := by
  have hfilter : ds.filter (· != '_') = ds :=
    List.filter_eq_self.2 (Decimal.ne_of_isDigit hd rfl)
  rw [dropUnderscores, hfilter, ite_self]

theorem plain_digits (isNegative : Bool) (hn : ds ≠ []) (hd : ∀ c ∈ ds, c.isDigit = true)
    (hlength : ds.length + (if isNegative then 1 else 0) ≤ longest) :
    plain isNegative ds =
      .ok (if isNegative then -Nat.ofDigitChars 10 ds 0 else Nat.ofDigitChars 10 ds 0) := by
  have hrun : ds.takeWhile Char.isDigit = ds := List.takeWhile_eq_self_iff.2 hd
  simp only [plain, hrun]
  rw [if_neg (Nat.not_lt.2 hlength), if_pos ⟨trivial, hn⟩]

theorem splitSign_digits (hd : ∀ c ∈ ds, c.isDigit = true) : splitSign ds = (false, ds) := by
  unfold splitSign
  split
  · cases hd '-' List.mem_cons_self
  · cases hd '+' List.mem_cons_self
  · rfl

theorem splitSign_append {sign : List Char} (hsign : sign ∈ [[], ['+'], ['-']])
    (hd : ∀ c ∈ ds, c.isDigit = true) : splitSign (sign ++ ds) = (sign == ['-'], ds) := by
  simp only [List.mem_cons, List.not_mem_nil, or_false] at hsign
  rcases hsign with rfl | rfl | rfl
  · exact splitSign_digits hd
  · rfl
  · rfl

theorem isSpace_signed {sign : List Char} (hsign : sign ∈ [[], ['+'], ['-']])
    (hd : ∀ c ∈ ds, c.isDigit = true) : ∀ c ∈ sign ++ ds, isSpace c = false := by
  have hsigns : ∀ sign ∈ [[], ['+'], ['-']], sign.all (!isSpace ·) = true := by decide
  refine List.forall_mem_append.2 ⟨fun c hc => ?_, fun c hc => ?_⟩
  · simpa using List.all_eq_true.1 (hsigns sign hsign) c hc
  · rw [isSpace, not_isBlank_of_isDigit (hd c hc), Bool.false_and]

/-- Neither zeros in front of the digits nor spaces around them count, only how long the number is
when it is written without them. -/
theorem wholeText_digits {bs sign bs' : List Char} (h : IsRunOf ds n)
    (hsign : sign ∈ [[], ['+'], ['-']]) (hb : ∀ c ∈ bs, isSpace c = true)
    (hb' : ∀ c ∈ bs', isSpace c = true)
    (hlength : n.repr.length + (if sign == ['-'] then 1 else 0) ≤ longest) :
    wholeText (String.ofList (bs ++ (sign ++ ds ++ bs'))) =
      .ok (if sign == ['-'] then -n else n) := by
  have hrepr : ComplexCalculator.dropLeadingZeros ds = Nat.toDigits 10 n := by
    rw [← h.repr_toList, Nat.toList_repr]
  rw [← String.length_toList, Nat.toList_repr] at hlength
  have hdigits := Decimal.isDigit_toDigits n
  rw [wholeText, String.toList_ofList, strip_append hb (isSpace_signed hsign h.isDigit) hb',
    splitSign_append hsign h.isDigit]
  simp only [dropLeadingZeros?_digits h.ne_nil h.isDigit, hrepr]
  rw [dropPointZeros_digits hdigits, dropUnderscores_digits hdigits,
    plain_digits _ Nat.toDigits_ne_nil hdigits hlength, Nat.ofDigitChars_ten_toDigits]

theorem wholeText_repr (h : n.repr.length ≤ longest) : wholeText n.repr = .ok n := by
  have hrun : IsRunOf n.repr.toList n := by
    rw [Nat.toList_repr]
    exact ⟨Nat.toDigits_ne_nil, Decimal.isDigit_toDigits n, Nat.ofDigitChars_ten_toDigits⟩
  have hread : wholeText (String.ofList ([] ++ ([] ++ n.repr.toList ++ []))) = .ok n :=
    wholeText_digits hrun List.mem_cons_self (List.forall_mem_nil _) (List.forall_mem_nil _) h
  rwa [List.nil_append, List.nil_append, List.append_nil, String.ofList_toList] at hread

end RawValue

/-- The reader of a field refuses a value. -/
def Field.Refuses : Field → RawValue → Reason → Prop
  | .unresolved, raw, e => raw.fallback = .error e
  | .factorial, raw, e => raw.policy = .error e
  | .isStrict, raw, e => raw.truth = .error e
  | .precision, raw, e => raw.precision = .error e

def Field.all : List Field := [.unresolved, .factorial, .isStrict, .precision]

theorem Field.mem_all (f : Field) : f ∈ all := by
  cases f <;> decide

namespace Settings
variable {α : Type} {usual a : α} {read : RawValue → Except Reason α} {f : Field}
  {given : String → Option RawValue} {r : Refusal} {rs : List Refusal} {s : Settings}

theorem field_eq_error_iff : field usual read f given = .error r ↔
    r.field = f ∧ ∃ raw, given f.label = some raw ∧ read raw = .error r.reason := by
  obtain ⟨g, e⟩ := r
  unfold field
  cases given f.label with
  | none => simp
  | some raw => cases hread : read raw <;> simp [hread, eq_comm]

theorem field_eq_ok_iff : field usual read f given = .ok a ↔
    given f.label = none ∧ a = usual ∨ ∃ raw, given f.label = some raw ∧ read raw = .ok a := by
  unfold field
  cases given f.label with
  | none => simp [eq_comm]
  | some raw => cases hread : read raw <;> simp [hread]

theorem refusal?_eq_some_iff {x : Except Refusal α} : refusal? x = some r ↔ x = .error r := by
  cases x <;> simp [refusal?]

theorem ofGiven_eq_ok_iff : ofGiven given = .ok s ↔
    field standard.unresolved RawValue.fallback .unresolved given = .ok s.unresolved ∧
    field standard.factorial RawValue.policy .factorial given = .ok s.factorial ∧
    field standard.isStrict RawValue.truth .isStrict given = .ok s.isStrict ∧
    field standard.digits RawValue.precision .precision given = .ok s.digits := by
  obtain ⟨unresolved, factorial, isStrict, precision, hpos, hle⟩ := s
  simp only [ofGiven]
  split
  · rename_i u f s p hu hf hs hp
    rw [hu, hf, hs, hp]
    simp [digits, Subtype.ext_iff]
  · rename_i hall
    refine ⟨nofun, fun ⟨hu, hf, hs, hp⟩ => ?_⟩
    exact absurd hp (hall _ _ _ _ hu hf hs)

def refusalOf (given : String → Option RawValue) : Field → Option Refusal
  | .unresolved => refusal? (field standard.unresolved RawValue.fallback .unresolved given)
  | .factorial => refusal? (field standard.factorial RawValue.policy .factorial given)
  | .isStrict => refusal? (field standard.isStrict RawValue.truth .isStrict given)
  | .precision => refusal? (field standard.digits RawValue.precision .precision given)

theorem refusalOf_eq_some_iff : refusalOf given f = some r ↔
    r.field = f ∧ ∃ raw, given f.label = some raw ∧ f.Refuses raw r.reason := by
  cases f with
  | _ => exact refusal?_eq_some_iff.trans field_eq_error_iff

theorem exists_ok_of_refusal? {x : Except Refusal α} (h : refusal? x = none) :
    ∃ a, x = .ok a := by
  cases x with
  | ok a => exact ⟨a, rfl⟩
  | error r => cases h

theorem ofGiven_eq_error_iff : ofGiven given = .error rs ↔
    rs = Field.all.filterMap (refusalOf given) ∧ rs ≠ [] := by
  have hlist : Field.all.filterMap (refusalOf given) =
      [refusalOf given .unresolved, refusalOf given .factorial, refusalOf given .isStrict,
        refusalOf given .precision].filterMap id := by
    change _ = (Field.all.map (refusalOf given)).filterMap id
    rw [List.filterMap_map, Function.id_comp]
  rw [hlist]
  simp only [ofGiven, refusalOf]
  split
  · rename_i hu hf hs hp
    simp [hu, hf, hs, hp, refusal?]
  · rename_i hall
    rw [Except.error.injEq, eq_comm (a := rs), iff_self_and]
    rintro rfl hnil
    simp only [List.filterMap_eq_nil_iff, List.forall_mem_cons, id] at hnil
    obtain ⟨hu, hf, hs, hp, -⟩ := hnil
    obtain ⟨u, hu⟩ := exists_ok_of_refusal? hu
    obtain ⟨f, hf⟩ := exists_ok_of_refusal? hf
    obtain ⟨s, hs⟩ := exists_ok_of_refusal? hs
    obtain ⟨p, hp⟩ := exists_ok_of_refusal? hp
    exact hall u f s p hu hf hs hp

theorem map_field_filterMap (fs : List Field) :
    ((fs.filterMap (refusalOf given)).map Refusal.field).Sublist fs := by
  induction fs with
  | nil => exact .slnil
  | cons f fs ih =>
    cases hr : refusalOf given f with
    | none =>
      rw [List.filterMap_cons_none hr]
      exact ih.cons f
    | some r =>
      rw [List.filterMap_cons_some hr, List.map_cons, (refusalOf_eq_some_iff.1 hr).1]
      exact ih.cons_cons f

/-- Every refusal names a field that is given a value its reader refuses, and its reason is the
reader's. No such field is passed over, and none comes twice or out of order. -/
theorem refusals_name_fields (h : ofGiven given = .error rs) :
    (rs.map Refusal.field).Sublist Field.all ∧
      ∀ r, r ∈ rs ↔ ∃ raw, given r.field.label = some raw ∧ r.field.Refuses raw r.reason := by
  obtain ⟨rfl, -⟩ := ofGiven_eq_error_iff.1 h
  refine ⟨map_field_filterMap _, fun r => ?_⟩
  rw [List.mem_filterMap]
  constructor
  · rintro ⟨f, -, hf⟩
    obtain ⟨rfl, hraw⟩ := refusalOf_eq_some_iff.1 hf
    exact hraw
  · intro hraw
    exact ⟨r.field, Field.mem_all _, refusalOf_eq_some_iff.2 ⟨rfl, hraw⟩⟩

theorem ofGiven_refuses_iff : (∃ rs, ofGiven given = .error rs) ↔
    ∃ (f : Field) (raw : RawValue) (e : Reason), given f.label = some raw ∧ f.Refuses raw e := by
  constructor
  · rintro ⟨rs, h⟩
    obtain ⟨r, hr⟩ := List.exists_mem_of_ne_nil rs (ofGiven_eq_error_iff.1 h).2
    obtain ⟨raw, hraw, hrefuses⟩ := ((refusals_name_fields h).2 r).1 hr
    exact ⟨r.field, raw, r.reason, hraw, hrefuses⟩
  · rintro ⟨f, raw, e, hraw, hrefuses⟩
    refine ⟨_, ofGiven_eq_error_iff.2 ⟨rfl, List.ne_nil_of_mem (a := ⟨f, e⟩) ?_⟩⟩
    exact List.mem_filterMap.2
      ⟨f, Field.mem_all f, refusalOf_eq_some_iff.2 ⟨rfl, raw, hraw, hrefuses⟩⟩

/-- A field's value, as a value and as a text. -/
def spellings (s : Settings) : Field → List RawValue
  | .unresolved => [.text s.unresolved.label]
  | .factorial => [.text s.factorial.label]
  | .isStrict => [.boolean s.isStrict, .text (if s.isStrict then "true" else "false")]
  | .precision => [.integer s.precision, .text s.precision.repr]

theorem precision_of_whole {raw : RawValue} {n : Nat} (hpos : 1 ≤ n) (hle : n ≤ 17)
    (h : raw.whole = .ok n) : raw.precision = .ok ⟨n, hpos, hle⟩ := by
  have hlow : ¬(n : Int) < 1 := by omega
  have hhigh : ¬17 < (n : Int) := by omega
  simp [RawValue.precision, h, hlow, hhigh]

theorem fallback_spellings (s : Settings) :
    ∀ raw ∈ s.spellings .unresolved, raw.fallback = .ok s.unresolved := by
  simp only [spellings, List.mem_singleton, forall_eq]
  cases s.unresolved <;> rfl

theorem policy_spellings (s : Settings) :
    ∀ raw ∈ s.spellings .factorial, raw.policy = .ok s.factorial := by
  simp only [spellings, List.mem_singleton, forall_eq]
  cases s.factorial <;> rfl

theorem truth_spellings (s : Settings) :
    ∀ raw ∈ s.spellings .isStrict, raw.truth = .ok s.isStrict := by
  cases hs : s.isStrict <;> simp only [spellings, hs] <;> decide +kernel

theorem precision_spellings (s : Settings) :
    ∀ raw ∈ s.spellings .precision, raw.precision = .ok s.digits := by
  have hlength : s.precision.repr.length ≤ RawValue.longest := by
    rw [← String.length_toList, Nat.toList_repr]
    have htwo := (Nat.length_toDigits_le_iff (b := 10) (by decide) (by decide)).2
      (Nat.lt_of_le_of_lt s.precision_le (by decide : 17 < 10 ^ 2))
    exact htwo.trans (by decide)
  intro raw hraw
  refine precision_of_whole s.precision_pos s.precision_le ?_
  simp only [spellings, List.mem_cons, List.not_mem_nil, or_false] at hraw
  rcases hraw with rfl | rfl
  · rfl
  · exact RawValue.wholeText_repr hlength

theorem spellings_ne_nil (s : Settings) (f : Field) : s.spellings f ≠ [] := by
  cases f <;> exact List.cons_ne_nil _ _

theorem field_of_spelled {f : Field} {a usual : α} {s : Settings}
    (hread : ∀ raw ∈ s.spellings f, read raw = .ok a)
    (hstandard : ∀ raw ∈ standard.spellings f, read raw = .ok usual)
    (h : (∃ raw ∈ s.spellings f, given f.label = some raw) ∨
      given f.label = none ∧ s.spellings f = standard.spellings f) :
    field usual read f given = .ok a := by
  rw [field_eq_ok_iff]
  rcases h with ⟨raw, hraw, hgiven⟩ | ⟨hgiven, heq⟩
  · exact .inr ⟨raw, hgiven, hread raw hraw⟩
  · -- one text cannot be read to two values
    obtain ⟨raw, hraw⟩ := List.exists_mem_of_ne_nil _ (s.spellings_ne_nil f)
    have hsame := (hread raw hraw).symm.trans (hstandard raw (heq ▸ hraw))
    exact .inl ⟨hgiven, Except.ok.inj hsame⟩

/-- Settings are admitted again, whichever way their values are spelled and with any of the standard
ones left out. -/
theorem ofGiven_of_spelled (s : Settings)
    (h : ∀ f : Field, (∃ raw ∈ s.spellings f, given f.label = some raw) ∨
      given f.label = none ∧ s.spellings f = standard.spellings f) :
    ofGiven given = .ok s :=
  ofGiven_eq_ok_iff.2
    ⟨field_of_spelled s.fallback_spellings (fallback_spellings _) (h .unresolved),
      field_of_spelled s.policy_spellings (policy_spellings _) (h .factorial),
      field_of_spelled s.truth_spellings (truth_spellings _) (h .isStrict),
      field_of_spelled s.precision_spellings (precision_spellings _) (h .precision)⟩

/-- An environment can hold any settings, with blanks around the texts. -/
theorem ofEnvironment_of_spelled (s : Settings) {texts : String → Option String}
    (h : ∀ f : Field, (∃ t word, RawValue.text word ∈ s.spellings f ∧
        strip isBlank t.toList = word.toList ∧ texts (variableName f.label) = some t) ∨
      texts (variableName f.label) = none ∧ s.spellings f = standard.spellings f) :
    ofEnvironment texts = .ok s := by
  refine ofGiven_of_spelled s fun f => ?_
  rcases h f with ⟨t, word, hword, hstrip, ht⟩ | ⟨ht, heq⟩
  · refine .inl ⟨_, hword, ?_⟩
    rw [ht, Option.map_some, hstrip, String.ofList_toList]
  · exact .inr ⟨by rw [ht, Option.map_none], heq⟩

theorem ofGiven_nothing : ofGiven (fun _ => none) = .ok .standard :=
  ofGiven_of_spelled .standard fun _ => .inr ⟨rfl, rfl⟩

end Settings
end ComplexCalculator
