import Mathlib
import ComplexCalculator.Decimal.Layout

/-!
# Decimal texts read back

A decimal text is digits with at most one point among them, and behind the letter `e` an exponent of
a sign and digits. Such a text is read as a rational number. Whatever window a layout has, the text
it gives to a decimal is read to the number that the digits and the place of the point stand for.
-/
namespace ComplexCalculator.Decimal

def value (d : Decimal) : ℚ := Nat.ofDigitChars 10 d.digits 0 * 10 ^ (d.point - d.digits.length)

structure HasDigits (d : Decimal) : Prop where
  ne_nil : d.digits ≠ []
  isDigit : ∀ c ∈ d.digits, c.isDigit = true

def readPositional (cs : List Char) : ℚ :=
  let fraction := (cs.dropWhile (· != '.')).tail
  Nat.ofDigitChars 10 (cs.takeWhile (· != '.') ++ fraction) 0 * 10 ^ (-fraction.length : ℤ)

def readExponent : List Char → ℤ
  | '-' :: ds => -Nat.ofDigitChars 10 ds 0
  | '+' :: ds => Nat.ofDigitChars 10 ds 0
  | _ => 0

def read (cs : List Char) : ℚ :=
  readPositional (cs.takeWhile (· != 'e')) * 10 ^ readExponent (cs.dropWhile (· != 'e')).tail

variable {cs ds : List Char} {c : Char} {d : Decimal}

theorem ne_of_isDigit {s : Char} (h : ∀ c ∈ ds, c.isDigit = true) (hs : s.isDigit = false) :
    ∀ c ∈ ds, (c != s) = true := by
  intro c hc
  rw [bne_iff_ne]
  rintro rfl
  rw [h c hc] at hs
  cases hs

theorem isDigit_zeros (n : Nat) : ∀ c ∈ zeros n, c.isDigit = true := by
  intro c hc
  rw [List.eq_of_mem_replicate hc]
  rfl

theorem ofDigitChars_zeros (n a : Nat) : Nat.ofDigitChars 10 (zeros n) a = a * 10 ^ n := by
  rw [zeros, Nat.ofDigitChars_replicate_zero, Nat.mul_comm]

theorem ofDigitChars_append_zeros (ds : List Char) (n : Nat) :
    Nat.ofDigitChars 10 (ds ++ zeros n) 0 = Nat.ofDigitChars 10 ds 0 * 10 ^ n := by
  rw [Nat.ofDigitChars_append, ofDigitChars_zeros]

theorem ofDigitChars_zeros_append (n : Nat) (ds : List Char) :
    Nat.ofDigitChars 10 (zeros n ++ ds) 0 = Nat.ofDigitChars 10 ds 0 := by
  rw [Nat.ofDigitChars_append, ofDigitChars_zeros, Nat.zero_mul]

theorem ofDigitChars_exponentDigits (n : Nat) :
    Nat.ofDigitChars 10 (exponentDigits n) 0 = n := by
  unfold exponentDigits
  split
  · exact (ofDigitChars_zeros_append 1 _).trans Nat.ofDigitChars_ten_toDigits
  · exact Nat.ofDigitChars_ten_toDigits

theorem isDigit_toDigits (n : Nat) : ∀ c ∈ Nat.toDigits 10 n, c.isDigit = true :=
  fun _ hc => Nat.isDigit_of_mem_toDigits (by decide) (by decide) hc

theorem isDigit_exponentDigits (n : Nat) : ∀ c ∈ exponentDigits n, c.isDigit = true := by
  unfold exponentDigits
  split
  · exact List.forall_mem_cons.2 ⟨rfl, isDigit_toDigits n⟩
  · exact isDigit_toDigits n

inductive Plain : List Char → ℚ → Prop
  | whole {ds : List Char} (hne : ds ≠ []) (hds : ∀ c ∈ ds, c.isDigit = true) :
      Plain ds (Nat.ofDigitChars 10 ds 0)
  | pointed {ds fs : List Char} (hne : ds ≠ []) (hds : ∀ c ∈ ds, c.isDigit = true)
      (hfs : ∀ c ∈ fs, c.isDigit = true) :
      Plain (ds ++ '.' :: fs) (Nat.ofDigitChars 10 (ds ++ fs) 0 * 10 ^ (-fs.length : ℤ))

variable {q r : ℚ}

theorem Plain.congr (h : Plain cs q) (hq : q = r) : Plain cs r := hq ▸ h

theorem Plain.mem (h : Plain cs q) (hc : c ∈ cs) : c.isDigit = true ∨ c = '.' := by
  cases h with
  | whole hne hds => exact .inl (hds c hc)
  | pointed hne hds hfs =>
    rcases List.mem_append.1 hc with hc | hc
    · exact .inl (hds c hc)
    · rcases List.mem_cons.1 hc with hc | hc
      · exact .inr hc
      · exact .inl (hfs c hc)

theorem Plain.head (h : Plain cs q) : ∃ c rest, cs = c :: rest ∧ c.isDigit = true := by
  cases h with
  | whole hne hds =>
    obtain ⟨c, rest, rfl⟩ := List.exists_cons_of_ne_nil hne
    exact ⟨c, rest, rfl, hds c List.mem_cons_self⟩
  | pointed hne hds hfs =>
    obtain ⟨c, rest, rfl⟩ := List.exists_cons_of_ne_nil hne
    exact ⟨c, _, rfl, hds c List.mem_cons_self⟩

theorem Plain.ne_e (h : Plain cs q) : ∀ c ∈ cs, (c != 'e') = true := by
  intro c hc
  rcases h.mem hc with hc | rfl
  · rw [bne_iff_ne]
    rintro rfl
    cases hc
  · rfl

theorem Plain.readPositional_eq (h : Plain cs q) : readPositional cs = q := by
  cases h with
  | whole hne hds =>
    have hpoint := ne_of_isDigit (s := '.') hds rfl
    simp [readPositional, List.takeWhile_eq_self_iff.2 hpoint, List.dropWhile_eq_nil_iff.2 hpoint]
  | pointed hne hds hfs =>
    have hpoint := ne_of_isDigit (s := '.') hds rfl
    simp [readPositional, List.takeWhile_append_of_pos hpoint, List.dropWhile_append_of_pos hpoint]

theorem Plain.read_eq (h : Plain cs q) : read cs = q := by
  simp only [read, List.takeWhile_eq_self_iff.2 h.ne_e, List.dropWhile_eq_nil_iff.2 h.ne_e,
    List.tail_nil, readExponent, zpow_zero, mul_one, h.readPositional_eq]

def exponentText (e : ℤ) : List Char := (if e < 0 then '-' else '+') :: exponentDigits e.natAbs

theorem readExponent_exponentText (e : ℤ) : readExponent (exponentText e) = e := by
  unfold exponentText
  split
  · simp only [readExponent, ofDigitChars_exponentDigits]
    omega
  · simp only [readExponent, ofDigitChars_exponentDigits]
    omega

theorem Plain.read_exponent (h : Plain cs q) (e : ℤ) :
    read (cs ++ 'e' :: exponentText e) = q * 10 ^ e := by
  simp [read, List.takeWhile_append_of_pos h.ne_e, List.dropWhile_append_of_pos h.ne_e,
    h.readPositional_eq, readExponent_exponentText]

theorem plain_shifted (hne : ds ≠ []) (hds : ∀ c ∈ ds, c.isDigit = true) (n : Nat)
    (pointed : Bool) :
    Plain (ds ++ zeros n ++ if pointed then ['.', '0'] else [])
      (Nat.ofDigitChars 10 ds 0 * 10 ^ (n : ℤ)) := by
  have hne' : ds ++ zeros n ≠ [] := fun h => hne (List.append_eq_nil_iff.1 h).1
  have hall : ∀ c ∈ ds ++ zeros n, c.isDigit = true :=
    List.forall_mem_append.2 ⟨hds, isDigit_zeros n⟩
  cases pointed with
  | false =>
    rw [if_neg Bool.false_ne_true, List.append_nil]
    refine (Plain.whole hne' hall).congr ?_
    rw [ofDigitChars_append_zeros]
    push_cast
    rw [zpow_natCast]
  | true =>
    -- the zero behind the point is one more digit and one more place
    have hzero : Nat.ofDigitChars 10 (ds ++ zeros n ++ ['0']) 0 =
        Nat.ofDigitChars 10 ds 0 * 10 ^ n * 10 := by
      rw [← ofDigitChars_append_zeros]
      exact ofDigitChars_append_zeros (ds ++ zeros n) 1
    refine (Plain.pointed hne' hall (isDigit_zeros 1)).congr ?_
    rw [show zeros 1 = ['0'] from rfl, hzero]
    push_cast
    simp [mul_assoc]

theorem plain_unit {fs : List Char} (hc : c.isDigit = true) (hfs : ∀ c ∈ fs, c.isDigit = true) :
    Plain (c :: '.' :: fs) (Nat.ofDigitChars 10 (c :: fs) 0 * 10 ^ (-fs.length : ℤ)) :=
  .pointed (List.cons_ne_nil c []) (List.forall_mem_singleton.2 hc) hfs

theorem positional_plain (pointed : Bool) (h : d.HasDigits) :
    Plain (positional pointed d) d.value := by
  unfold positional
  dsimp only
  split
  · -- the point stands before all digits
    have hfs : ∀ c ∈ zeros (-d.point).toNat ++ d.digits, c.isDigit = true :=
      List.forall_mem_append.2 ⟨isDigit_zeros _, h.isDigit⟩
    have hdigits : Nat.ofDigitChars 10 ('0' :: (zeros (-d.point).toNat ++ d.digits)) 0 =
        Nat.ofDigitChars 10 d.digits 0 :=
      (ofDigitChars_zeros_append 1 _).trans (ofDigitChars_zeros_append _ _)
    refine (plain_unit rfl hfs).congr ?_
    rw [hdigits, List.length_append, zeros, List.length_replicate, value]
    congr 2
    omega
  · split
    · -- the point stands behind all digits
      refine (plain_shifted h.ne_nil h.isDigit _ pointed).congr ?_
      rw [value]
      congr 2
      omega
    · have htake : d.digits.take d.point.toNat ≠ [] := by
        rw [ne_eq, List.take_eq_nil_iff, not_or]
        exact ⟨by omega, h.ne_nil⟩
      refine (Plain.pointed htake (fun c hc => h.isDigit c (List.mem_of_mem_take hc))
        (fun c hc => h.isDigit c (List.mem_of_mem_drop hc))).congr ?_
      rw [List.take_append_drop, List.length_drop, value]
      congr 2
      omega

theorem scientific_eq (h : d.HasDigits) :
    ∃ cs q, Plain cs q ∧ scientific d = cs ++ 'e' :: exponentText d.exponent ∧
      d.value = q * 10 ^ d.exponent := by
  obtain ⟨hne, hds⟩ := h
  obtain ⟨ds, point⟩ := d
  cases ds with
  | nil => exact absurd rfl hne
  | cons c ds =>
    obtain ⟨hc, hds⟩ := List.forall_mem_cons.1 hds
    cases ds with
    | nil =>
      refine ⟨[c], _, .whole hne (List.forall_mem_singleton.2 hc), rfl, ?_⟩
      simp [value, exponent]
    | cons c' ds =>
      refine ⟨c :: '.' :: c' :: ds, _, plain_unit hc hds, rfl, ?_⟩
      rw [value, exponent, mul_assoc, ← zpow_add₀ (by norm_num), List.length_cons]
      congr 2
      push_cast
      ring

theorem write_cases (layout : Layout) (h : d.HasDigits) :
    Plain (write layout d) d.value ∨
      ∃ cs q e, Plain cs q ∧ write layout d = cs ++ 'e' :: exponentText e ∧
        d.value = q * 10 ^ e := by
  unfold write
  split
  · exact .inl (positional_plain layout.pointed h)
  · obtain ⟨cs, q, hplain, hcs, hq⟩ := scientific_eq h
    exact .inr ⟨cs, q, d.exponent, hplain, hcs, hq⟩

/-- Whatever the layout, the text is read to the number. -/
theorem read_write (layout : Layout) (h : d.HasDigits) : read (write layout d) = d.value := by
  obtain hplain | ⟨cs, q, e, hplain, hcs, hq⟩ := write_cases layout h
  · exact hplain.read_eq
  · rw [hcs, hplain.read_exponent, hq]

theorem head_write (layout : Layout) (h : d.HasDigits) :
    ∃ c rest, write layout d = c :: rest ∧ c.isDigit = true := by
  obtain hplain | ⟨cs, q, e, hplain, hcs, -⟩ := write_cases layout h
  · exact hplain.head
  · obtain ⟨c, rest, hrest, hc⟩ := hplain.head
    exact ⟨c, _, hcs.trans (congrArg (· ++ _) hrest), hc⟩

theorem mem_write {layout : Layout} (h : d.HasDigits) (hc : c ∈ write layout d) :
    c.isDigit = true ∨ c ∈ ['.', 'e', '+', '-'] := by
  obtain hplain | ⟨cs, q, e, hplain, hcs, -⟩ := write_cases layout h
  · exact (hplain.mem hc).imp_right fun hpoint => by simp [hpoint]
  · rw [hcs, List.mem_append, List.mem_cons, exponentText, List.mem_cons] at hc
    rcases hc with hc | rfl | hsign | hc
    · exact (hplain.mem hc).imp_right fun hpoint => by simp [hpoint]
    · simp
    · right
      split at hsign <;> simp [hsign]
    · exact .inl (isDigit_exponentDigits _ c hc)

theorem exists_zeros (ds : List Char) : ∃ n, ds = dropTrailingZeros ds ++ zeros n := by
  have hzeros : ds.rtakeWhile (· == '0') = zeros (ds.rtakeWhile (· == '0')).length :=
    List.eq_replicate_iff.2 ⟨rfl, fun c hc => by simpa using List.mem_rtakeWhile_imp hc⟩
  refine ⟨(ds.rtakeWhile (· == '0')).length, ?_⟩
  rw [← hzeros]
  exact List.rdropWhile_append_rtakeWhile.symm

theorem ofScaled_digits (n : Nat) (k : ℤ) :
    ∃ j, Nat.toDigits 10 n = (ofScaled n k).digits ++ zeros j := by
  obtain ⟨c, cs, hcs⟩ := List.exists_cons_of_ne_nil (Nat.toDigits_ne_nil (b := 10) (n := n))
  obtain ⟨j, hj⟩ := exists_zeros cs
  refine ⟨j, ?_⟩
  rw [hcs]
  nth_rewrite 1 [hj]
  simp only [ofScaled, hcs, List.head?_cons, Option.toList_some, List.tail_cons, List.cons_append,
    List.nil_append]

theorem ofScaled_hasDigits (n : Nat) (k : ℤ) : (ofScaled n k).HasDigits where
  ne_nil := by
    obtain ⟨c, cs, hcs⟩ := List.exists_cons_of_ne_nil (Nat.toDigits_ne_nil (b := 10) (n := n))
    simp [ofScaled, hcs]
  isDigit := fun c hc => by
    obtain ⟨j, hj⟩ := ofScaled_digits n k
    exact isDigit_toDigits n c (hj ▸ List.mem_append_left _ hc)

theorem value_ofScaled (n : Nat) (k : ℤ) : (ofScaled n k).value = n * 10 ^ k := by
  obtain ⟨j, hj⟩ := ofScaled_digits n k
  have hn : n = Nat.ofDigitChars 10 (ofScaled n k).digits 0 * 10 ^ j := by
    rw [← ofDigitChars_append_zeros, ← hj, Nat.ofDigitChars_ten_toDigits]
  have hpoint : (ofScaled n k).point = (ofScaled n k).digits.length + j + k := by
    have hlength := congrArg List.length hj
    rw [List.length_append, zeros, List.length_replicate] at hlength
    simp only [ofScaled] at hlength ⊢
    omega
  have hexponent : (ofScaled n k).point - (ofScaled n k).digits.length = j + k := by omega
  rw [value, hexponent, zpow_add₀ (by norm_num), zpow_natCast, ← mul_assoc]
  congr 1
  exact_mod_cast hn.symm

end ComplexCalculator.Decimal
