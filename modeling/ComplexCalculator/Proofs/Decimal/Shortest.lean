import ComplexCalculator.Decimal.Shortest
import ComplexCalculator.Proofs.Binary64.Order
import ComplexCalculator.Proofs.Decimal.Reading

/-!
# The shortest text and its number

Around every number lie the rationals that are rounded to it, from the middle to the neighbour below
to the middle to the one above. Such intervals of two numbers have no point in common, since of two
that touch one has an odd mantissa and does not hold its ends. The shortest decimal is in the
interval of its number, so that its text belongs to no other.
-/
namespace ComplexCalculator.Decimal
open Binary64

variable {m n : Nat} {d e : ℤ} {q : ℚ}

def lowerEnd (m : Nat) (e : ℤ) : ℚ :=
  (4 * m - if m = 2 ^ 52 ∧ -1074 < e then 1 else 2) * 2 ^ (e - 2)

def upperEnd (m : Nat) (e : ℤ) : ℚ := (4 * m + 2) * 2 ^ (e - 2)

/-- A rational number that is rounded to `m * 2 ^ e`, a half going to an even mantissa. -/
structure RoundsTo (q : ℚ) (m : Nat) (e : ℤ) : Prop where
  lower : lowerEnd m e ≤ q
  upper : q ≤ upperEnd m e
  inside : m % 2 = 1 → lowerEnd m e < q ∧ q < upperEnd m e

theorem scaled_eq (m : Nat) (e : ℤ) : (m : ℚ) * 2 ^ e = 4 * m * 2 ^ (e - 2) := by
  rw [zpow_sub₀ two_ne_zero]
  norm_num
  ring

theorem lowerEnd_lt (m : Nat) (e : ℤ) : lowerEnd m e < m * 2 ^ e := by
  have hpow : (0 : ℚ) < 2 ^ (e - 2) := zpow_pos two_pos _
  rw [scaled_eq, lowerEnd]
  refine mul_lt_mul_of_pos_right ?_ hpow
  split <;> linarith

theorem lt_upperEnd (m : Nat) (e : ℤ) : m * 2 ^ e < upperEnd m e := by
  have hpow : (0 : ℚ) < 2 ^ (e - 2) := zpow_pos two_pos _
  rw [scaled_eq, upperEnd]
  refine mul_lt_mul_of_pos_right ?_ hpow
  linarith

theorem roundsTo_self (m : Nat) (e : ℤ) : RoundsTo (m * 2 ^ e) m e where
  lower := (lowerEnd_lt m e).le
  upper := (lt_upperEnd m e).le
  inside := fun _ => ⟨lowerEnd_lt m e, lt_upperEnd m e⟩

theorem upperEnd_le_lowerEnd_of_lt (h : m < n) (e : ℤ) :
    upperEnd m e ≤ lowerEnd n e ∧
      (m % 2 = 0 → n % 2 = 0 → upperEnd m e < lowerEnd n e) := by
  have hpow : (0 : ℚ) < 2 ^ (e - 2) := zpow_pos two_pos _
  have hlower : (4 * n - 2) * 2 ^ (e - 2) ≤ lowerEnd n e := by
    refine mul_le_mul_of_nonneg_right ?_ hpow.le
    split <;> linarith
  constructor
  · have hmn : (m + 1 : ℚ) ≤ n := by exact_mod_cast h
    exact (mul_le_mul_of_nonneg_right (by linarith) hpow.le).trans hlower
  · intro hm hn
    have hmn : (m + 2 : ℚ) ≤ n := by exact_mod_cast show m + 2 ≤ n by omega
    exact (mul_lt_mul_of_pos_right (by linarith) hpow).trans_le hlower

theorem upperEnd_le_lowerEnd_of_exponent_lt (hm : IsCanonical m d) (hn : IsCanonical n e)
    (h : d < e) :
    upperEnd m d ≤ lowerEnd n e ∧ (m % 2 = 0 → upperEnd m d < lowerEnd n e) := by
  have hpow : (0 : ℚ) < 2 ^ (d - 2) := zpow_pos two_pos _
  have he : -1074 < e := Int.lt_of_le_of_lt hm.2.1 h
  have hfirst := hn.2.2 he
  have hunit : (2 : ℚ) * 2 ^ (d - 2) ≤ 2 ^ (e - 2) := by
    rw [← zpow_one_add₀ two_ne_zero]
    exact zpow_le_zpow_right₀ one_le_two (by omega)
  have hmantissa : (2 ^ 54 - 1 : ℚ) ≤ 4 * n - if n = 2 ^ 52 ∧ -1074 < e then 1 else 2 := by
    split
    · rename_i hn'
      rw [hn'.1]
      norm_num
    · rename_i hn'
      have hlt : (2 ^ 52 + 1 : ℚ) ≤ n := by
        exact_mod_cast lt_of_le_of_ne hfirst fun heq => hn' ⟨heq.symm, he⟩
      linarith
  have hlower : (2 ^ 55 - 2) * 2 ^ (d - 2) ≤ lowerEnd n e :=
    calc (2 ^ 55 - 2 : ℚ) * 2 ^ (d - 2) = (2 ^ 54 - 1) * (2 * 2 ^ (d - 2)) := by ring
      _ ≤ (2 ^ 54 - 1) * 2 ^ (e - 2) := mul_le_mul_of_nonneg_left hunit (by norm_num)
      _ ≤ lowerEnd n e := mul_le_mul_of_nonneg_right hmantissa (zpow_pos two_pos _).le
  constructor
  · have hm' : (m + 1 : ℚ) ≤ 2 ^ 53 := by exact_mod_cast hm.1
    exact (mul_le_mul_of_nonneg_right (by linarith) hpow.le).trans hlower
  · intro heven
    have hm' : (m + 2 : ℚ) ≤ 2 ^ 53 := by
      have := hm.1
      exact_mod_cast show m + 2 ≤ 2 ^ 53 by omega
    exact (mul_lt_mul_of_pos_right (by linarith) hpow).trans_le hlower

theorem upperEnd_le_lowerEnd (hm : IsCanonical m d) (hn : IsCanonical n e)
    (h : (m : ℚ) * 2 ^ d < n * 2 ^ e) :
    upperEnd m d ≤ lowerEnd n e ∧
      (m % 2 = 0 → n % 2 = 0 → upperEnd m d < lowerEnd n e) := by
  rcases lt_trichotomy d e with hde | rfl | hde
  · obtain ⟨hle, hlt⟩ := upperEnd_le_lowerEnd_of_exponent_lt hm hn hde
    exact ⟨hle, fun heven _ => hlt heven⟩
  · have hmn := lt_of_mul_lt_mul_right h (zpow_pos two_pos d).le
    exact upperEnd_le_lowerEnd_of_lt (Nat.cast_lt.1 hmn) d
  · exact absurd h (scaled_lt_of_exponent_lt hn hm hde).not_gt

theorem not_roundsTo_of_lt (hm : IsCanonical m d) (hn : IsCanonical n e)
    (h : (m : ℚ) * 2 ^ d < n * 2 ^ e) (hq : RoundsTo q m d) : ¬RoundsTo q n e := by
  intro hq'
  obtain ⟨hle, hlt⟩ := upperEnd_le_lowerEnd hm hn h
  rcases Nat.mod_two_eq_zero_or_one m with hm' | hm'
  · rcases Nat.mod_two_eq_zero_or_one n with hn' | hn'
    · exact absurd (hlt hm' hn') (not_lt_of_ge (hq'.lower.trans hq.upper))
    · exact absurd (hq.upper.trans hle) (not_le_of_gt (hq'.inside hn').1)
  · exact absurd (hle.trans hq'.lower) (not_le_of_gt (hq.inside hm').2)

/-- No rational number is rounded to two numbers. -/
theorem eq_of_roundsTo (hm : IsCanonical m d) (hn : IsCanonical n e) (hq : RoundsTo q m d)
    (hq' : RoundsTo q n e) : (m : ℚ) * 2 ^ d = n * 2 ^ e := by
  rcases lt_trichotomy ((m : ℚ) * 2 ^ d) (n * 2 ^ e) with h | h | h
  · exact absurd hq' (not_roundsTo_of_lt hm hn h hq)
  · exact h
  · exact absurd hq (not_roundsTo_of_lt hn hm h hq')

theorem power10_eq (k : ℤ) : ((power10 k).1 : ℚ) / (power10 k).2 = 10 ^ k := by
  cases k with
  | ofNat k => simp [power10]
  | negSucc k => simp [power10, zpow_negSucc]

theorem power10_den_pos (k : ℤ) : (0 : ℚ) < (power10 k).2 := by
  cases k with
  | ofNat k => simp [power10]
  | negSucc k => simp [power10]

def Interval.Covers (i : Interval) (q : ℚ) : Prop :=
  if i.closed then i.low ≤ q * i.scale ∧ q * i.scale ≤ i.high
  else i.low < q * i.scale ∧ q * i.scale < i.high

theorem Interval.contains_iff (i : Interval) (n : Nat) (k : ℤ) :
    i.contains n k = true ↔ i.Covers (n * 10 ^ k) := by
  have hden := power10_den_pos k
  have hscaled :
      (n : ℚ) * 10 ^ k * i.scale = (n * (power10 k).1 * i.scale : ℕ) / (power10 k).2 := by
    rw [← power10_eq]
    push_cast
    ring
  unfold contains Covers
  rw [hscaled]
  dsimp only
  split
  · rw [Bool.and_eq_true, decide_eq_true_iff, decide_eq_true_iff, le_div_iff₀ hden,
      div_le_iff₀ hden]
    norm_cast
  · rw [Bool.and_eq_true, decide_eq_true_iff, decide_eq_true_iff, lt_div_iff₀ hden,
      div_lt_iff₀ hden]
    norm_cast

theorem roundDiv_eq_or (n d : Nat) : roundDiv n d = n / d ∨ roundDiv n d = n / d + 1 := by
  unfold roundDiv
  dsimp only
  split
  · exact .inl rfl
  · split
    · exact .inr rfl
    · rcases Nat.mod_two_eq_zero_or_one (n / d) with h | h <;> rw [h]
      · exact .inl rfl
      · exact .inr rfl

theorem Interval.contains_of_onGrid? {i : Interval} {k : ℤ} (h : i.onGrid? k = some n) :
    i.contains n k = true := by
  unfold onGrid? at h
  dsimp only at h
  split at h
  · rename_i hfloor
    split at h
    · rename_i hceil
      cases h
      rcases roundDiv_eq_or (i.value * (power10 k).2) (i.scale * (power10 k).1) with hr | hr
      · rwa [hr]
      · rwa [hr]
    · cases h
      exact hfloor
  · split at h
    · rename_i hceil
      cases h
      exact hceil
    · cases h

theorem Interval.search_eq_some {i : Interval} {leading : ℤ} {grids digits : Nat} {d : Decimal}
    (h : i.search leading grids digits = some d) :
    ∃ n k, i.contains n k = true ∧ d = ofScaled n k := by
  induction grids generalizing digits with
  | zero => cases h
  | succ grids ih =>
    simp only [search] at h
    split at h
    · rename_i n hn
      cases h
      exact ⟨n, _, contains_of_onGrid? hn, rfl⟩
    · exact ih h

theorem ratio_one (e : ℤ) : ((ratio 1 e).1 : ℚ) = 2 ^ e * (ratio 1 e).2 := by
  have hden : ((ratio 1 e).2 : ℚ) ≠ 0 := Nat.cast_ne_zero.2 (ratio_den_pos 1 e).ne'
  rw [← div_eq_iff hden, ratio_eq, Nat.cast_one, one_mul]

theorem covers_interval (hm : 0 < m) :
    (interval m e).Covers q ↔
      if m % 2 = 0 then lowerEnd m e ≤ q ∧ q ≤ upperEnd m e
      else lowerEnd m e < q ∧ q < upperEnd m e := by
  have hscale : (0 : ℚ) < (ratio 1 (e - 2)).2 := Nat.cast_pos.2 (ratio_den_pos 1 (e - 2))
  have hbelow : (if m = 2 ^ 52 ∧ -1074 < e then 1 else 2) ≤ 4 * m := by split <;> omega
  have hlow : ((interval m e).low : ℚ) = lowerEnd m e * (ratio 1 (e - 2)).2 := by
    simp only [interval, lowerEnd, Nat.pow_eq]
    rw [Nat.cast_mul, Nat.cast_sub hbelow, ratio_one]
    push_cast
    ring
  have hhigh : ((interval m e).high : ℚ) = upperEnd m e * (ratio 1 (e - 2)).2 := by
    simp only [interval, upperEnd]
    push_cast
    rw [ratio_one]
    ring
  have hclosed : (interval m e).closed = decide (m % 2 = 0) := rfl
  have hunit : (interval m e).scale = (ratio 1 (e - 2)).2 := rfl
  simp only [Interval.Covers, hlow, hhigh, hclosed, hunit, decide_eq_true_iff,
    mul_le_mul_iff_of_pos_right hscale, mul_lt_mul_iff_of_pos_right hscale]

theorem roundsTo_of_covers (hm : 0 < m) (h : (interval m e).Covers q) : RoundsTo q m e := by
  rw [covers_interval hm] at h
  split at h
  · rename_i heven
    exact ⟨h.1, h.2, fun hodd => by omega⟩
  · exact ⟨h.1.le, h.2.le, fun _ => h⟩

theorem exact_eq_ofScaled (m : Nat) (e : ℤ) :
    ∃ (n : Nat) (k : ℤ), (n : ℚ) * 10 ^ k = m * 2 ^ e ∧ exact m e = ofScaled n k := by
  cases e with
  | ofNat k => exact ⟨m * Nat.pow 2 k, 0, by simp, rfl⟩
  | negSucc k =>
    refine ⟨m * Nat.pow 5 (k + 1), .negSucc k, ?_, rfl⟩
    rw [Nat.pow_eq, zpow_negSucc, zpow_negSucc]
    push_cast
    rw [show (10 : ℚ) = 5 * 2 by norm_num, mul_pow]
    field_simp

theorem shortest_eq_ofScaled (m : Nat) (e : ℤ) :
    ∃ (n : Nat) (k : ℤ), RoundsTo (n * 10 ^ k) m e ∧ shortest m e = ofScaled n k := by
  unfold shortest
  dsimp only
  split
  · rename_i hm
    subst hm
    exact ⟨0, 0, by simpa using roundsTo_self 0 e, rfl⟩
  · rename_i hm
    cases hs : (interval m e).search
        (leadingExponent (interval m e).value (interval m e).scale) 17 0 with
    | none =>
      obtain ⟨n, k, hvalue, heq⟩ := exact_eq_ofScaled m e
      exact ⟨n, k, hvalue ▸ roundsTo_self m e, heq⟩
    | some d =>
      obtain ⟨n, k, hcontains, heq⟩ := Interval.search_eq_some hs
      have hcovers := ((interval m e).contains_iff n k).1 hcontains
      exact ⟨n, k, roundsTo_of_covers (Nat.pos_of_ne_zero hm) hcovers, heq⟩

theorem shortest_hasDigits (m : Nat) (e : ℤ) : (shortest m e).HasDigits := by
  obtain ⟨n, k, -, heq⟩ := shortest_eq_ofScaled m e
  rw [heq]
  exact ofScaled_hasDigits n k

theorem roundsTo_shortest (m : Nat) (e : ℤ) : RoundsTo (shortest m e).value m e := by
  obtain ⟨n, k, hround, heq⟩ := shortest_eq_ofScaled m e
  rw [heq, value_ofScaled]
  exact hround

end ComplexCalculator.Decimal
