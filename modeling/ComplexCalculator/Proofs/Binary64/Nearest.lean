import ComplexCalculator.Proofs.Binary64.Order

/-!
# Rounding to the nearest number

A natural number beyond 53 bits lies between two multiples of the unit of its leading 53 bits. Every
binary64 number is a multiple of this unit or smaller than all numbers with these leading bits, so
that the nearest multiple is the nearest number. The result is infinite from the middle between the
largest finite number and `2 ^ 1024` on: there the middle goes up, since the largest finite number
has an odd mantissa.
-/
namespace ComplexCalculator.Binary64
open Float.Model Float.Model.UnpackedFloat

/-- No finite number is closer, and if another one is as close, then the mantissa is even. -/
structure IsNearest (x : Float) (q : ℚ) : Prop where
  isFinite : x.isFinite = true
  closest : ∀ y : Float, y.isFinite = true → |exact x - q| ≤ |exact y - q|
  even_of_tie : ∀ y : Float, y.isFinite = true → exact y ≠ exact x →
    |exact y - q| = |exact x - q| → ∃ m e, magnitude x = .finite m e ∧ m % 2 = 0

variable {x y : Float} {n m d s : Nat} {e j : ℤ} {q r : ℚ}

theorem isNearest_exact (h : x.isFinite = true) : IsNearest x (exact x) where
  isFinite := h
  closest y _ := by
    rw [sub_self, abs_zero]
    exact abs_nonneg _
  even_of_tie y _ hne heq := by
    rw [sub_self, abs_zero, abs_eq_zero, sub_eq_zero] at heq
    exact absurd heq hne

theorem IsNearest.exact_le (hx : IsNearest x q) (hy : IsNearest y r) (h : q < r) :
    exact x ≤ exact y := by
  by_contra hlt
  have hq := hx.closest y hy.isFinite
  have hr := hy.closest x hx.isFinite
  -- the middle of the two is not above the smaller number and not below the larger one
  have hmiddle : exact x + exact y ≤ 2 * q := by
    have := le_abs_self (exact x - q)
    rcases abs_cases (exact y - q) with ⟨habs, -⟩ | ⟨habs, -⟩ <;> linarith
  have hmiddle' : 2 * r ≤ exact x + exact y := by
    have := neg_le_abs (exact y - r)
    rcases abs_cases (exact x - r) with ⟨habs, -⟩ | ⟨habs, -⟩ <;> linarith
  linarith

theorem abs_roundDiv_sub_le (n : Nat) (hd : 0 < d) :
    2 * |(roundDiv n d * d : ℚ) - n| ≤ d := by
  have hupper : (2 * (roundDiv n d * d) : ℚ) ≤ 2 * n + d := by exact_mod_cast roundDiv_mul_le n d
  have hlower : (2 * n : ℚ) ≤ 2 * (roundDiv n d * d) + d := by exact_mod_cast le_roundDiv_mul hd
  rcases abs_cases ((roundDiv n d * d : ℚ) - n) with ⟨h, -⟩ | ⟨h, -⟩ <;> rw [h] <;> linarith

theorem le_abs_multiple_sub (n : Nat) (hd : 0 < d) (hj : j ≠ roundDiv n d) :
    (d : ℚ) ≤ 2 * |(j * d : ℚ) - n| := by
  have hround := abs_roundDiv_sub_le n hd
  have hone : (1 : ℚ) ≤ |(j : ℚ) - roundDiv n d| := by
    exact_mod_cast Int.one_le_abs (sub_ne_zero.2 hj)
  have hapart : (d : ℚ) ≤ |(j * d : ℚ) - roundDiv n d * d| := by
    rw [← sub_mul, abs_mul, Nat.abs_cast]
    exact le_mul_of_one_le_left (Nat.cast_nonneg d) hone
  have htriangle := abs_sub_le (j * d : ℚ) n (roundDiv n d * d)
  rw [abs_sub_comm (n : ℚ)] at htriangle
  linarith

theorem abs_roundDiv_sub_le_of_multiple {k : Nat} (hd : 0 < d) (h : k * d ≤ n) :
    |(roundDiv n d * d : ℚ) - n| ≤ n - k * d := by
  have hle : (k * d : ℚ) ≤ n := by exact_mod_cast h
  by_cases hk : (k : ℤ) = roundDiv n d
  · rw [← Nat.cast_inj.1 hk, abs_sub_comm, abs_of_nonneg (by linarith)]
  · have hround := abs_roundDiv_sub_le n hd
    have hapart := le_abs_multiple_sub n hd hk
    rw [Int.cast_natCast, abs_sub_comm, abs_of_nonneg (by linarith)] at hapart
    linarith

theorem roundDiv_even_of_middle {k : Nat} (hd : 0 < d) (h : 2 * n = 2 * (k * d) + d) :
    roundDiv n d % 2 = 0 := by
  refine roundDiv_even_of_tie ?_
  rw [← Nat.mul_mod_mul_left, h, Nat.mul_left_comm, Nat.mul_add_mod_self_right]
  exact Nat.mod_eq_of_lt (by omega)

theorem roundDiv_even_of_half (hd : 0 < d) (h : 2 * |(roundDiv n d * d : ℚ) - n| = d) :
    roundDiv n d % 2 = 0 := by
  rcases abs_cases ((roundDiv n d * d : ℚ) - n) with ⟨habs, -⟩ | ⟨habs, -⟩ <;> rw [habs] at h
  · have habove : 2 * (roundDiv n d * d) = 2 * n + d := by
      exact_mod_cast show (2 * (roundDiv n d * d) : ℚ) = 2 * n + d by linarith
    obtain ⟨k, hk⟩ : ∃ k, roundDiv n d = k + 1 := by
      refine Nat.exists_eq_add_one_of_ne_zero fun hzero => ?_
      rw [hzero] at habove
      omega
    refine roundDiv_even_of_middle (k := k) hd ?_
    rw [hk, Nat.add_mul] at habove
    omega
  · have hbelow : 2 * n = 2 * (roundDiv n d * d) + d := by
      exact_mod_cast show (2 * n : ℚ) = 2 * (roundDiv n d * d) + d by linarith
    exact roundDiv_even_of_middle hd hbelow

theorem closest_of_multiple_or_below {k : Nat} (hd : 0 < d) (h : k * d ≤ n)
    (hq : (∃ j : ℤ, q = j * d) ∨ q < k * d) (hne : q ≠ roundDiv n d * d) :
    |(roundDiv n d * d : ℚ) - n| ≤ |q - n| ∧
      (|q - n| = |(roundDiv n d * d : ℚ) - n| → roundDiv n d % 2 = 0) := by
  rcases hq with ⟨j, rfl⟩ | hbelow
  · have hj : j ≠ roundDiv n d := by
      rintro rfl
      exact hne rfl
    have hround := abs_roundDiv_sub_le n hd
    have hapart := le_abs_multiple_sub n hd hj
    refine ⟨by linarith, fun heq => roundDiv_even_of_half hd ?_⟩
    rw [heq] at hapart
    linarith
  · have hround := abs_roundDiv_sub_le_of_multiple hd h
    have hfar := neg_le_abs (q - n)
    exact ⟨by linarith, fun heq => by linarith⟩

theorem le_roundDiv_iff {k : Nat} (hd : 0 < d) (hk : k % 2 = 0) :
    k ≤ roundDiv n d ↔ 2 * (k * d) ≤ 2 * n + d := by
  constructor
  · intro h
    have hmul := Nat.mul_le_mul_right d h
    have hround := roundDiv_mul_le n d
    omega
  · intro h
    by_contra hlt
    have hnext : roundDiv n d + 1 ≤ k := Nat.lt_of_not_le hlt
    have hmul := Nat.mul_le_mul_right d hnext
    have hround := le_roundDiv_mul (n := n) hd
    rw [Nat.add_mul] at hmul
    -- only the middle is left, and there the even multiple is the one above
    have heven := roundDiv_even_of_middle (n := n) (k := roundDiv n d) hd (by omega)
    have heq : (roundDiv n d + 1) * d = k * d := by
      rw [Nat.add_mul]
      omega
    have := Nat.eq_of_mul_eq_mul_right hd heq
    omega

/-- The leading 53 bits of the number count multiples of `2 ^ s`. -/
structure HasUnit (n s : Nat) : Prop where
  lower : 2 ^ 52 * 2 ^ s ≤ n
  upper : n < 2 ^ 53 * 2 ^ s

theorem multiple_or_small (hy : y.isFinite = true) (s : Nat) :
    (∃ j : ℤ, exact y = j * (2 ^ s : ℕ)) ∨ exact y < (2 ^ 52 : ℕ) * (2 ^ s : ℕ) := by
  obtain ⟨m, e, hmagnitude, habs⟩ := exists_magnitude hy
  rcases le_or_gt (s : ℤ) e with he | he
  · obtain ⟨t, rfl⟩ := Int.le.dest he
    have hmultiple : (m : ℚ) * 2 ^ (s + t : ℤ) = ((m * 2 ^ t : ℕ) : ℤ) * (2 ^ s : ℕ) := by
      rw [zpow_add₀ two_ne_zero, zpow_natCast, zpow_natCast]
      push_cast
      ring
    rw [hmultiple] at habs
    rcases eq_or_eq_neg_of_abs_eq habs with h | h
    · exact .inl ⟨_, h⟩
    · exact .inl ⟨-(m * 2 ^ t : ℕ), by rw [h]; push_cast; ring⟩
  · right
    have hm : (m : ℚ) < 2 ^ 53 := by exact_mod_cast (isCanonical_of_magnitude hmagnitude).1.1
    calc exact y ≤ |exact y| := le_abs_self _
      _ = m * 2 ^ e := habs
      _ < 2 ^ 53 * 2 ^ e := by gcongr
      _ ≤ 2 ^ 53 * 2 ^ (s - 1 : ℤ) := by gcongr <;> [norm_num; omega]
      _ = (2 ^ 52 : ℕ) * (2 ^ s : ℕ) := by
        rw [zpow_sub₀ two_ne_zero, zpow_natCast]
        push_cast
        ring

theorem HasUnit.isNearest (h : HasUnit n s) (hfinite : x.isFinite = true)
    (hexact : exact x = roundDiv n (2 ^ s) * (2 ^ s : ℕ))
    (heven : roundDiv n (2 ^ s) % 2 = 0 → ∃ m e, magnitude x = .finite m e ∧ m % 2 = 0) :
    IsNearest x n := by
  have hd : 0 < 2 ^ s := Nat.pow_pos (by decide)
  have hother (y : Float) (hy : y.isFinite = true) (hne : exact y ≠ exact x) :
      |exact x - n| ≤ |exact y - n| ∧
        (|exact y - n| = |exact x - n| → roundDiv n (2 ^ s) % 2 = 0) := by
    rw [hexact] at hne ⊢
    exact closest_of_multiple_or_below hd h.lower (multiple_or_small hy s) hne
  refine ⟨hfinite, fun y hy => ?_, fun y hy hne heq => heven ((hother y hy hne).2 heq)⟩
  by_cases hne : exact y = exact x
  · rw [hne]
  · exact (hother y hy hne).1

theorem hasUnit_log2 (h : 2 ^ 53 ≤ n) : HasUnit n (n.log2 - 52) := by
  have hn : n ≠ 0 := Nat.ne_of_gt (Nat.lt_of_lt_of_le (by decide) h)
  have hlog : 53 ≤ n.log2 := (Nat.le_log2 hn).2 h
  obtain ⟨hlower, hupper⟩ := (Nat.log2_eq_iff hn).1 rfl
  constructor
  · rwa [← Nat.pow_add, Nat.add_sub_cancel' (by omega)]
  · rwa [← Nat.pow_add, show 53 + (n.log2 - 52) = n.log2 + 1 by omega]

theorem HasUnit.log2_eq (h : HasUnit n s) : n.log2 = 52 + s := by
  have hn : n ≠ 0 := Nat.ne_of_gt (Nat.lt_of_lt_of_le (by positivity) h.lower)
  refine (Nat.log2_eq_iff hn).2 ⟨?_, ?_⟩
  · rw [Nat.pow_add]
    exact h.lower
  · rw [Nat.add_right_comm, Nat.pow_add]
    exact h.upper

theorem HasUnit.roundDiv_bounds (h : HasUnit n s) :
    2 ^ 52 ≤ roundDiv n (2 ^ s) ∧ roundDiv n (2 ^ s) ≤ 2 ^ 53 := by
  have hd : 0 < 2 ^ s := Nat.pow_pos (by decide)
  constructor
  · exact ((Nat.le_div_iff_mul_le hd).2 h.lower).trans (div_le_roundDiv n _)
  · have hupper := h.upper
    have hround := roundDiv_mul_le n (2 ^ s)
    by_contra hlt
    have hmul := Nat.mul_le_mul_right (2 ^ s) (Nat.lt_of_not_le hlt)
    rw [Nat.succ_mul] at hmul
    omega

theorem HasUnit.ofNat_eq (h : HasUnit n s) (hs : 1 ≤ s) :
    ∃ k t : Nat, IsFull k ∧ ofNat n = ofMantissa k t ∧ k * 2 ^ t = roundDiv n (2 ^ s) * 2 ^ s ∧
      (roundDiv n (2 ^ s) % 2 = 0 → k % 2 = 0) := by
  obtain ⟨hlower, hupper⟩ := h.roundDiv_bounds
  simp only [ofNat, Nat.pow_eq, h.log2_eq, Nat.add_sub_cancel_left]
  rw [if_neg (by omega)]
  by_cases hm : roundDiv n (2 ^ s) < 2 ^ 53
  · refine ⟨_, s, ⟨hlower, hm⟩, ?_, rfl, id⟩
    rw [if_pos hm]
    congr 1
    omega
  · refine ⟨2 ^ 52, s + 1, ⟨Nat.le_refl _, by decide⟩, ?_, ?_, fun _ => by decide⟩
    · rw [if_neg hm]
      congr 1
      omega
    · rw [Nat.le_antisymm hupper (Nat.le_of_not_lt hm)]
      ring

theorem ofMantissa_finite (h : IsFull m) (hl : -1074 ≤ e) (hu : e ≤ 971) :
    (ofMantissa m e).isFinite = true ∧ exact (ofMantissa m e) = m * 2 ^ e ∧
      magnitude (ofMantissa m e) = .finite m e := by
  have hunpack : (ofMantissa m e).toModel.unpack = .finite .positive m e h.pos := by
    rw [ofMantissa_full h]
    exact unpack_pack h hl hu
  refine ⟨?_, ?_, ?_⟩
  · rw [isFinite_eq, hunpack]
    rfl
  · rw [exact, hunpack]
    simp [Sign.apply]
  · rw [magnitude, hunpack]

theorem two_mul_pow_le {l t : Nat} (h : l < t) : 2 * 2 ^ l ≤ 2 ^ t := by
  rw [← Nat.pow_succ']
  exact Nat.pow_le_pow_right (by decide) h

theorem IsFull.lt_exponent_iff (h : IsFull m) (l t : Nat) :
    l + 1 < t ↔ 2 ^ 53 * (2 * 2 ^ l) ≤ m * 2 ^ t := by
  rw [← Nat.pow_succ']
  constructor
  · intro ht
    calc 2 ^ 53 * 2 ^ (l + 1) = 2 ^ 52 * (2 * 2 ^ (l + 1)) := by ring
      _ ≤ m * 2 ^ t := Nat.mul_le_mul h.1 (two_mul_pow_le ht)
  · intro hle
    by_contra ht
    have hpow : 2 ^ t ≤ 2 ^ (l + 1) := Nat.pow_le_pow_right (by decide) (Nat.le_of_not_lt ht)
    exact absurd hle (Nat.not_le_of_lt (Nat.mul_lt_mul_of_lt_of_le h.2 hpow (by positivity)))

theorem HasUnit.le_multiple_iff (h : HasUnit n s) (l : Nat) :
    2 ^ 53 * (2 * 2 ^ l) ≤ roundDiv n (2 ^ s) * 2 ^ s ↔ 2 ^ 53 * (2 * 2 ^ l) ≤ n + 2 ^ l := by
  obtain ⟨hlower, hupper⟩ := h.roundDiv_bounds
  have hl : 0 < 2 ^ l := by positivity
  rcases lt_trichotomy s (l + 1) with hs | rfl | hs
  · have hpow : 2 ^ s ≤ 2 ^ l := Nat.pow_le_pow_right (by decide) (Nat.le_of_lt_succ hs)
    have hround := Nat.mul_le_mul hupper hpow
    have hn := h.upper.trans_le (Nat.mul_le_mul_left (2 ^ 53) hpow)
    omega
  · have hunit : 0 < 2 ^ (l + 1) := by positivity
    have hsucc : 2 ^ (l + 1) = 2 * 2 ^ l := Nat.pow_succ'
    rw [← hsucc, Nat.mul_le_mul_right_iff hunit, le_roundDiv_iff hunit (by decide), hsucc]
    omega
  · have hpow := two_mul_pow_le hs
    rw [Nat.pow_succ'] at hpow
    have hround := Nat.mul_le_mul hlower hpow
    have hn := (Nat.mul_le_mul_left (2 ^ 52) hpow).trans h.lower
    omega

theorem ofNat_zero : ofNat 0 = 0 := rfl

theorem exact_ofNat_of_le (h : n ≤ 2 ^ 53) : (ofNat n).isFinite = true ∧ exact (ofNat n) = n := by
  rcases Nat.lt_or_eq_of_le h with hlt | rfl
  · exact exact_ofNat hlt
  · have hfull : IsFull (2 ^ 52) := ⟨Nat.le_refl _, by decide⟩
    have heq : ofNat (2 ^ 53) = ofMantissa (2 ^ 52) 1 := ofNat_scaled hfull 1
    obtain ⟨hfinite, hexact, -⟩ := ofMantissa_finite hfull (e := 1) (by decide) (by decide)
    rw [heq]
    refine ⟨hfinite, hexact.trans ?_⟩
    norm_num

theorem overflow_eq : 2 ^ 1024 = 2 ^ 53 * (2 * 2 ^ 970) := by
  rw [← Nat.mul_assoc, ← Nat.pow_succ, ← Nat.pow_add]

theorem lt_overflow (h : n ≤ 2 ^ 53) : n < 2 ^ 1024 - 2 ^ 970 := by
  have hpos : 0 < 2 ^ 970 := by positivity
  rw [overflow_eq]
  omega

theorem HasUnit.ofNat_cases (h : HasUnit n s) (hs : 1 ≤ s) :
    ofNat n = infinity ∧ 2 ^ 1024 - 2 ^ 970 ≤ n ∨
      IsNearest (ofNat n) n ∧ n < 2 ^ 1024 - 2 ^ 970 := by
  obtain ⟨k, t, hfull, hofNat, hvalue, heven⟩ := h.ofNat_eq hs
  have hlimit : 970 + 1 < t ↔ 2 ^ 1024 - 2 ^ 970 ≤ n := by
    rw [hfull.lt_exponent_iff, hvalue, h.le_multiple_iff, overflow_eq]
    omega
  rw [hofNat]
  rcases Nat.lt_or_ge 971 t with ht | ht
  · left
    rw [ofMantissa_full hfull]
    exact ⟨pack_overflow hfull (by omega), hlimit.1 ht⟩
  · right
    obtain ⟨hfinite, hexact, hmagnitude⟩ :=
      ofMantissa_finite hfull (e := t) (by omega) (by omega)
    have hexact' : exact (ofMantissa k t) = roundDiv n (2 ^ s) * (2 ^ s : ℕ) := by
      rw [hexact, zpow_natCast]
      exact_mod_cast hvalue
    exact ⟨h.isNearest hfinite hexact' fun hround => ⟨k, t, hmagnitude, heven hround⟩, by omega⟩

theorem ofNat_rounds (n : Nat) :
    ofNat n = infinity ∧ 2 ^ 1024 - 2 ^ 970 ≤ n ∨
      IsNearest (ofNat n) n ∧ n < 2 ^ 1024 - 2 ^ 970 := by
  rcases Nat.lt_or_ge n (2 ^ 53) with hn | hn
  · obtain ⟨hfinite, hexact⟩ := exact_ofNat hn
    exact .inr ⟨hexact ▸ isNearest_exact hfinite, lt_overflow hn.le⟩
  · have hlog : 53 ≤ n.log2 := (Nat.le_log2 (by omega)).2 hn
    exact (hasUnit_log2 hn).ofNat_cases (by omega)

theorem ofNat_eq_infinity_iff : ofNat n = infinity ↔ 2 ^ 1024 - 2 ^ 970 ≤ n := by
  rcases ofNat_rounds n with ⟨hinf, hn⟩ | ⟨hnearest, hn⟩
  · exact ⟨fun _ => hn, fun _ => hinf⟩
  · refine ⟨fun hinf => ?_, fun hle => absurd hle (Nat.not_le_of_lt hn)⟩
    have hfinite := hnearest.isFinite
    rw [hinf] at hfinite
    cases hfinite

theorem isNearest_ofNat (h : n < 2 ^ 1024 - 2 ^ 970) : IsNearest (ofNat n) n := by
  rcases ofNat_rounds n with ⟨-, hn⟩ | ⟨hnearest, -⟩
  · exact absurd hn (Nat.not_le_of_lt h)
  · exact hnearest

theorem isNaN_ofNat (n : Nat) : (ofNat n).isNaN = false := by
  rcases ofNat_rounds n with ⟨hinf, -⟩ | ⟨hnearest, -⟩
  · rw [hinf]
    rfl
  · exact isNaN_of_isFinite hnearest.isFinite

theorem ofNat_le_ofNat (h : m ≤ n) : ofNat m ≤ ofNat n := by
  rcases ofNat_rounds n with ⟨hinf, -⟩ | ⟨hnearest, hn⟩
  · rw [hinf]
    exact le_infinity (isNaN_ofNat m)
  · have hnearest' := isNearest_ofNat (h.trans_lt hn)
    rw [le_iff_exact hnearest'.isFinite hnearest.isFinite]
    rcases Nat.eq_or_lt_of_le h with rfl | hlt
    · exact le_rfl
    · exact hnearest'.exact_le hnearest (by exact_mod_cast hlt)

end ComplexCalculator.Binary64
