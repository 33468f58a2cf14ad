import ComplexCalculator.Proofs.Decimal.Shortest

/-!
# Number texts and equality

The text of a part is a minus sign or none and the text of its magnitude: a run of digits, the
digits that stand for infinity, or a shortest decimal. Read as a rational number it lies in the
interval of the magnitude, or beyond all of them, so that it belongs to one magnitude only. The text
of a number shows which of its parts it has, by the letter of the imaginary unit and by blanks, and
so the texts of two numbers are the same exactly when the numbers are equal.
-/
namespace ComplexCalculator.Number
open Binary64 Decimal

variable {x y : Float} {m n : Nat} {e : ℤ} {c : Char}

def magnitudeText : Magnitude → List Char
  | .nan => []
  | .infinite => overflowDigits
  | .finite m e =>
    match natural? (.finite m e) with
    | some n => Nat.toDigits 10 n
    | none => write shortestLayout (shortest m e)

theorem read_toDigits (n : Nat) : Decimal.read (Nat.toDigits 10 n) = n := by
  rw [(Plain.whole Nat.toDigits_ne_nil (isDigit_toDigits n)).read_eq,
    Nat.ofDigitChars_ten_toDigits]

theorem read_overflowDigits : Decimal.read overflowDigits = 10 ^ 309 := by
  have hdigits : overflowDigits = ['1'] ++ zeros 309 := rfl
  have hone : Nat.ofDigitChars 10 ['1'] 0 = 1 := rfl
  rw [(Plain.whole isDigitsOf_overflow.ne_nil isDigitsOf_overflow.isDigit).read_eq, hdigits,
    ofDigitChars_append_zeros, hone, Nat.one_mul, Nat.cast_pow, Nat.cast_ofNat]

theorem roundsTo_magnitudeText (m : Nat) (e : ℤ) :
    RoundsTo (Decimal.read (magnitudeText (.finite m e))) m e := by
  unfold magnitudeText
  dsimp only
  split
  · rename_i n hn
    rw [read_toDigits, ← natural?_eq_some_iff.1 hn]
    exact roundsTo_self m e
  · rw [read_write _ (shortest_hasDigits m e)]
    exact roundsTo_shortest m e

theorem upperEnd_lt_overflow (h : IsCanonical m e) (he : e ≤ 971) : upperEnd m e < 10 ^ 309 := by
  have hm : (m + 1 : ℚ) ≤ 2 ^ 53 := by exact_mod_cast h.1
  calc upperEnd m e ≤ 2 ^ 55 * 2 ^ (e - 2) :=
        mul_le_mul_of_nonneg_right (by linarith) (zpow_pos two_pos _).le
    _ ≤ 2 ^ 55 * 2 ^ ((969 : ℕ) : ℤ) :=
        mul_le_mul_of_nonneg_left (zpow_le_zpow_right₀ one_le_two (by omega)) (by norm_num)
    _ = 2 * (2 ^ 93) ^ 11 := by rw [zpow_natCast, ← pow_add, ← pow_mul, ← pow_succ']
    _ < 10 * (10 ^ 28) ^ 11 := by gcongr <;> norm_num
    _ = 10 ^ 309 := by rw [← pow_mul, ← pow_succ']

theorem magnitudeText_finite_ne (h : magnitude x = .finite m e) :
    magnitudeText (.finite m e) ≠ overflowDigits := by
  intro heq
  obtain ⟨hcanonical, he⟩ := isCanonical_of_magnitude h
  have hupper := (roundsTo_magnitudeText m e).upper
  rw [heq, read_overflowDigits] at hupper
  exact absurd hupper (not_le_of_gt (upperEnd_lt_overflow hcanonical he))

theorem magnitudeText_injective (hx : x.isNaN = false) (hy : y.isNaN = false)
    (h : magnitudeText (magnitude x) = magnitudeText (magnitude y)) :
    magnitude x = magnitude y := by
  cases hm : magnitude x with
  | nan => exact absurd hm (magnitude_ne_nan hx)
  | infinite =>
    cases hn : magnitude y with
    | nan => exact absurd hn (magnitude_ne_nan hy)
    | infinite => rfl
    | finite n e =>
      rw [hm, hn] at h
      exact absurd h.symm (magnitudeText_finite_ne hn)
  | finite m d =>
    cases hn : magnitude y with
    | nan => exact absurd hn (magnitude_ne_nan hy)
    | infinite =>
      rw [hm, hn] at h
      exact absurd h (magnitudeText_finite_ne hm)
    | finite n e =>
      have hcm := (isCanonical_of_magnitude hm).1
      have hcn := (isCanonical_of_magnitude hn).1
      have hround := roundsTo_magnitudeText m d
      rw [hm, hn] at h
      rw [h] at hround
      obtain ⟨rfl, rfl⟩ := eq_of_scaled_eq hcm hcn
        (eq_of_roundsTo hcm hcn hround (roundsTo_magnitudeText n e))
      rfl

theorem head_magnitudeText (hx : x.isNaN = false) :
    ∃ c rest, magnitudeText (magnitude x) = c :: rest ∧ c.isDigit = true := by
  cases hm : magnitude x with
  | nan => exact absurd hm (magnitude_ne_nan hx)
  | infinite => exact ⟨'1', _, rfl, rfl⟩
  | finite m e =>
    unfold magnitudeText
    dsimp only
    split
    · rename_i n hn
      exact (Plain.whole Nat.toDigits_ne_nil (isDigit_toDigits n)).head
    · exact head_write _ (shortest_hasDigits m e)

theorem mem_magnitudeText {g : Magnitude} (hc : c ∈ magnitudeText g) :
    c.isDigit = true ∨ c ∈ ['.', 'e', '+', '-'] := by
  cases g with
  | nan => cases hc
  | infinite => exact .inl (isDigitsOf_overflow.isDigit c hc)
  | finite m e =>
    unfold magnitudeText at hc
    dsimp only at hc
    split at hc
    · exact .inl (isDigit_toDigits _ c hc)
    · exact mem_write (shortest_hasDigits m e) hc

def minus (x : Float) : List Char := if x < 0 then ['-'] else []

theorem signed_toList (h : isNegative x = decide (x < 0)) (cs : List Char) :
    (signed x cs).toList = minus x ++ cs := by
  unfold signed minus
  rw [h]
  by_cases hx : x < 0 <;> simp [hx]

theorem exactPart_eq (hx : x.isNaN = false) :
    (exactPart x).toList = minus x ++ magnitudeText (magnitude x) := by
  by_cases hzero : magnitude x = .finite 0 (-1074)
  · have hlt := not_lt_zero_of_magnitude hzero
    simp [exactPart, hzero, natural?_zero, minus, hlt, magnitudeText]
  have hsign := isNegative_eq hx hzero
  unfold exactPart
  cases hm : magnitude x with
  | nan => exact absurd hm (magnitude_ne_nan hx)
  | infinite => exact signed_toList hsign _
  | finite m e =>
    cases hn : natural? (.finite m e) with
    | none =>
      simp only [magnitudeText, hn, Decimal.text, hm]
      exact signed_toList hsign _
    | some n =>
      have hne : n ≠ 0 := by
        rintro rfl
        have hvalue : (m : ℚ) * 2 ^ e = (0 : ℕ) * 2 ^ (-1074 : ℤ) := by
          rw [natural?_eq_some_iff.1 hn, Nat.cast_zero, zero_mul]
        obtain ⟨rfl, rfl⟩ :=
          eq_of_scaled_eq (isCanonical_of_magnitude hm).1 isCanonical_zero hvalue
        exact hzero hm
      by_cases hlt : x < 0 <;> simp [magnitudeText, hn, hsign, hlt, hne, minus]

theorem minus_eq_iff : minus x = minus y ↔ (x < 0 ↔ y < 0) := by
  unfold minus
  by_cases hx : x < 0 <;> by_cases hy : y < 0 <;> simp [hx, hy]

theorem minus_append_inj {s t : List Char} (hs : ∃ c rest, s = c :: rest ∧ c.isDigit = true)
    (ht : ∃ c rest, t = c :: rest ∧ c.isDigit = true) (h : minus x ++ s = minus y ++ t) :
    minus x = minus y ∧ s = t := by
  obtain ⟨c, rest, rfl, hc⟩ := hs
  obtain ⟨c', rest', rfl, hc'⟩ := ht
  unfold minus at h ⊢
  split_ifs at h ⊢
  · exact ⟨rfl, List.append_cancel_left h⟩
  · rw [← (List.cons.inj h).1] at hc'
    cases hc'
  · rw [(List.cons.inj h).1] at hc
    cases hc
  · exact ⟨rfl, h⟩

theorem exactPart_eq_iff (hx : x.isNaN = false) (hy : y.isNaN = false) :
    exactPart x = exactPart y ↔ (x == y) = true := by
  rw [beq_iff hx hy, ← String.toList_inj, exactPart_eq hx, exactPart_eq hy]
  constructor
  · intro h
    obtain ⟨hminus, htext⟩ := minus_append_inj (head_magnitudeText hx) (head_magnitudeText hy) h
    exact ⟨minus_eq_iff.1 hminus, magnitudeText_injective hx hy htext⟩
  · rintro ⟨hsign, hmagnitude⟩
    rw [minus_eq_iff.2 hsign, hmagnitude]

theorem exactPart_ne_nil (hx : x.isNaN = false) : (exactPart x).toList ≠ [] := by
  obtain ⟨c, rest, htext, -⟩ := head_magnitudeText hx
  rw [exactPart_eq hx, htext]
  exact List.append_ne_nil_of_right_ne_nil _ (List.cons_ne_nil _ _)

theorem mem_exactPart (hx : x.isNaN = false) (hc : c ∈ (exactPart x).toList) :
    c.isDigit = true ∨ c ∈ ['.', 'e', '+', '-'] := by
  rw [exactPart_eq hx, List.mem_append] at hc
  rcases hc with hc | hc
  · unfold minus at hc
    split at hc
    · exact .inr (by simp [List.mem_singleton.1 hc])
    · cases hc
  · exact mem_magnitudeText hc

theorem not_mem_exactPart (hx : x.isNaN = false) (hdigit : c.isDigit = false)
    (hc : c ∉ ['.', 'e', '+', '-']) : c ∉ (exactPart x).toList := by
  intro hmem
  rcases mem_exactPart hx hmem with h | h
  · cases hdigit.symm.trans h
  · exact hc h

theorem blank_not_mem_exactPart (hx : x.isNaN = false) : ' ' ∉ (exactPart x).toList :=
  not_mem_exactPart hx rfl (by decide)

def leading (x : Float) : List Char :=
  if x != 0 then (exactPart x).toList ++ [' ', '+', ' '] else []

def coefficient (y : Float) : List Char := if y != 1 then (exactPart y).toList else []

theorem text_of_real {z : Number} (hz : z.isNaN = false) (h : (z.im == 0) = true) :
    z.text none = exactPart z.re := by
  simp only [Number.text, hz, h, Bool.false_eq_true, if_false, if_true, part]

theorem text_of_not_real {z : Number} (hz : z.isNaN = false) (h : (z.im == 0) = false) :
    (z.text none).toList = leading z.re ++ (coefficient z.im ++ ['i']) := by
  simp only [Number.text, hz, h, Bool.false_eq_true, if_false, part, leading, coefficient]
  split <;> split <;> simp

theorem blank_not_mem_coefficient (hx : x.isNaN = false) : ' ' ∉ coefficient x := by
  unfold coefficient
  split
  · exact blank_not_mem_exactPart hx
  · exact List.not_mem_nil

theorem beq_of_not_bne (h : ¬(x != y) = true) : (x == y) = true := by
  simpa [bne] using h

theorem coefficient_injective (hx : x.isNaN = false) (hy : y.isNaN = false)
    (h : coefficient x = coefficient y) : (x == y) = true := by
  unfold coefficient at h
  split_ifs at h with hx1 hy1 hy1
  · exact (exactPart_eq_iff hx hy).1 (String.toList_inj.1 h)
  · exact absurd h (exactPart_ne_nil hx)
  · exact absurd h.symm (exactPart_ne_nil hy)
  · exact beq_of_beq hx hy (z := 1) rfl (beq_of_not_bne hx1) (beq_of_not_bne hy1)

theorem append_blank_inj {s t s' t' : List Char} (hs : ' ' ∉ s) (ht : ' ' ∉ t)
    (h : s ++ ' ' :: s' = t ++ ' ' :: t') : s = t ∧ s' = t' := by
  have hfirst (r r' : List Char) (hr : ' ' ∉ r) : (r ++ ' ' :: r').takeWhile (· != ' ') = r := by
    rw [List.takeWhile_append_of_pos fun c hc =>
        bne_iff_ne.2 (ne_of_mem_of_not_mem hc hr),
      List.takeWhile_cons_of_neg (by decide), List.append_nil]
  obtain rfl : s = t := by rw [← hfirst s s' hs, h, hfirst t t' ht]
  exact ⟨rfl, (List.cons.inj (List.append_cancel_left h)).2⟩

theorem leading_append_inj {s t : List Char} (hx : x.isNaN = false) (hy : y.isNaN = false)
    (hs : ' ' ∉ s) (ht : ' ' ∉ t) (h : leading x ++ s = leading y ++ t) :
    (x == y) = true ∧ s = t := by
  unfold leading at h
  split_ifs at h with hx0 hy0 hy0
  · rw [List.append_assoc, List.append_assoc] at h
    obtain ⟨htext, hrest⟩ :=
      append_blank_inj (blank_not_mem_exactPart hx) (blank_not_mem_exactPart hy) h
    exact ⟨(exactPart_eq_iff hx hy).1 (String.toList_inj.1 htext), List.append_cancel_left hrest⟩
  · have hblank : ' ' ∈ t := by
      rw [← List.nil_append t, ← h]
      simp
    exact absurd hblank ht
  · have hblank : ' ' ∈ s := by
      rw [← List.nil_append s, h]
      simp
    exact absurd hblank hs
  · exact ⟨beq_of_beq hx hy (z := 0) rfl (beq_of_not_bne hx0) (beq_of_not_bne hy0), h⟩

theorem isNaN_eq_false_iff {z : Number} :
    z.isNaN = false ↔ z.re.isNaN = false ∧ z.im.isNaN = false :=
  Bool.or_eq_false_iff

theorem text_eq_of_equals {a b : Number} (ha : a.isNaN = false) (hb : b.isNaN = false)
    (h : a.equals b = true) : a.text none = b.text none := by
  obtain ⟨har, hai⟩ := isNaN_eq_false_iff.1 ha
  obtain ⟨hbr, hbi⟩ := isNaN_eq_false_iff.1 hb
  obtain ⟨hre, him⟩ := equals_iff.1 h
  have hreal := (exactPart_eq_iff har hbr).2 hre
  have himaginary := (exactPart_eq_iff hai hbi).2 him
  have hzero := beq_congr_left hai hbi (z := 0) rfl him
  simp only [Number.text, ha, hb, Bool.false_eq_true, if_false, part, hreal, himaginary, hzero, bne,
    beq_congr_left har hbr (z := 0) rfl hre, beq_congr_left hai hbi (z := 1) rfl him]

theorem unit_mem_text_iff {z : Number} (hz : z.isNaN = false) :
    'i' ∈ (z.text none).toList ↔ (z.im == 0) = false := by
  cases hreal : z.im == 0 with
  | true =>
    have hunit : 'i' ∉ (exactPart z.re).toList :=
      not_mem_exactPart (isNaN_eq_false_iff.1 hz).1 rfl (by decide)
    rw [text_of_real hz hreal]
    exact ⟨fun h => absurd h hunit, fun h => by cases h⟩
  | false =>
    rw [text_of_not_real hz hreal]
    simp

theorem equals_of_text_eq {a b : Number} (ha : a.isNaN = false) (hb : b.isNaN = false)
    (h : a.text none = b.text none) : a.equals b = true := by
  obtain ⟨har, hai⟩ := isNaN_eq_false_iff.1 ha
  obtain ⟨hbr, hbi⟩ := isNaN_eq_false_iff.1 hb
  have hunit : (a.im == 0) = false ↔ (b.im == 0) = false := by
    rw [← unit_mem_text_iff ha, ← unit_mem_text_iff hb, h]
  rw [equals_iff]
  cases hreal : b.im == 0 with
  | true =>
    have hreal' : (a.im == 0) = true := by
      rw [← Bool.not_eq_false, hunit, hreal]
      exact Bool.false_ne_true.symm
    rw [text_of_real ha hreal', text_of_real hb hreal] at h
    exact ⟨(exactPart_eq_iff har hbr).1 h, beq_of_beq hai hbi (z := 0) rfl hreal' hreal⟩
  | false =>
    have htext := congrArg String.toList h
    rw [text_of_not_real ha (hunit.2 hreal), text_of_not_real hb hreal] at htext
    have hblank {y : Float} (hy : y.isNaN = false) : ' ' ∉ coefficient y ++ ['i'] := by
      rw [List.mem_append, not_or]
      exact ⟨blank_not_mem_coefficient hy, by decide⟩
    obtain ⟨hre, hcoefficient⟩ := leading_append_inj har hbr (hblank hai) (hblank hbi) htext
    exact ⟨hre, coefficient_injective hai hbi (List.append_cancel_right hcoefficient)⟩

/-- Two numbers without NaN have the same text exactly when they are equal as numbers. -/
theorem text_eq_iff_equals (a b : Number) (ha : a.isNaN = false) (hb : b.isNaN = false) :
    a.text none = b.text none ↔ a.equals b = true :=
  ⟨equals_of_text_eq ha hb, text_eq_of_equals ha hb⟩

theorem text_eq_iff_equals_signed_zero :
    (⟨-0, 1 / 10⟩ : Number).text none = (⟨0, 1 / 10⟩ : Number).text none :=
  (text_eq_iff_equals ⟨-0, 1 / 10⟩ ⟨0, 1 / 10⟩ (by decide +kernel) (by decide +kernel)).2
    (by decide +kernel)

end ComplexCalculator.Number
