import ComplexCalculator.Proofs.Number.Literal

/-!
# Exact values and the order

Every finite number is a rational number, its mantissa times two to its exponent with its sign. The
comparison of two numbers looks at signs, exponents and mantissas in turn; it is the comparison of
the rational numbers, since of two mantissas of 53 bits the one with the larger exponent is larger.
Floors and naturals of magnitudes are those of the rational numbers.
-/
namespace ComplexCalculator.Binary64
open Float.Model Float.Model.UnpackedFloat

/-- The rational number that a finite number is; the others count as zero. -/
def exact (x : Float) : ℚ :=
  match x.toModel.unpack with
  | .finite s m e _ => s.apply m * 2 ^ e
  | _ => 0

variable {x y : Float} {m n : Nat} {e : Int}

theorem isFinite_eq (x : Float) : x.isFinite = x.toModel.unpack.isFinite := rfl

theorem isInf_of_isFinite (h : x.isFinite = true) : x.isInf = false := by
  rw [isFinite_eq] at h
  change x.toModel.unpack.isInf = false
  cases hu : x.toModel.unpack with
  | infinity s => rw [hu] at h; cases h
  | _ => rfl

theorem isNaN_of_isFinite (h : x.isFinite = true) : x.isNaN = false := by
  rw [isFinite_eq] at h
  change x.toModel.unpack.isNaN = false
  cases hu : x.toModel.unpack with
  | notANumber => rw [hu] at h; cases h
  | _ => rfl

theorem scaled_pos (hm : 0 < m) (e : Int) : (0 : ℚ) < m * 2 ^ e :=
  mul_pos (Nat.cast_pos.2 hm) (zpow_pos two_pos e)

/-- A mantissa is below 53 bits only at the least exponent. -/
def IsCanonical (m : Nat) (e : Int) : Prop :=
  m < 2 ^ 53 ∧ -1074 ≤ e ∧ (-1074 < e → 2 ^ 52 ≤ m)

theorem isCanonical_zero : IsCanonical 0 (-1074) :=
  ⟨by decide, Int.le_refl _, fun h => absurd h (Int.lt_irrefl _)⟩

theorem isCanonical_of_unpack {f : Float.Model} {s : Sign} {hm : 0 < m}
    (h : f.unpack = .finite s m e hm) : IsCanonical m e := by
  obtain ⟨hs, rfl⟩ | ⟨hf, he, -, -⟩ := unpack_finite h
  · exact ⟨Nat.lt_trans hs (by decide), Int.le_refl _, fun h => absurd h (Int.lt_irrefl _)⟩
  · exact ⟨hf.2, he, fun _ => hf.1⟩

theorem scaled_lt_of_exponent_lt {d : Int} (hm : IsCanonical m d) (hn : IsCanonical n e)
    (h : d < e) : (m : ℚ) * 2 ^ d < n * 2 ^ e := by
  have hm' : (m : ℚ) < 2 ^ 53 := by exact_mod_cast hm.1
  have hn' : (2 : ℚ) ^ 52 ≤ n := by exact_mod_cast hn.2.2 (Int.lt_of_le_of_lt hm.2.1 h)
  calc (m : ℚ) * 2 ^ d < 2 ^ 53 * 2 ^ d := by gcongr
    _ = 2 ^ 52 * 2 ^ (d + 1) := by rw [zpow_add₀ two_ne_zero, zpow_one]; ring
    _ ≤ 2 ^ 52 * 2 ^ e := by gcongr <;> [norm_num; omega]
    _ ≤ n * 2 ^ e := by gcongr

theorem compare_scaled {d : Int} (hm : IsCanonical m d) (hn : IsCanonical n e) :
    (compare d e).then (compare m n) = compare ((m : ℚ) * 2 ^ d) (n * 2 ^ e) := by
  rcases lt_trichotomy d e with h | rfl | h
  · rw [compare_lt_iff_lt.2 h, compare_lt_iff_lt.2 (scaled_lt_of_exponent_lt hm hn h)]
    rfl
  · have hpow : (0 : ℚ) < 2 ^ d := zpow_pos two_pos d
    rw [compare_eq_iff_eq.2 rfl, Ordering.eq_then]
    rcases lt_trichotomy m n with h | rfl | h
    · rw [compare_lt_iff_lt.2 h, compare_lt_iff_lt.2 (by gcongr)]
    · rw [compare_eq_iff_eq.2 rfl, compare_eq_iff_eq.2 rfl]
    · rw [compare_gt_iff_gt.2 h, compare_gt_iff_gt.2 (by gcongr)]
  · rw [compare_gt_iff_gt.2 h, compare_gt_iff_gt.2 (scaled_lt_of_exponent_lt hn hm h)]
    rfl

theorem swap_compare_scaled {d : Int} (hm : IsCanonical m d) (hn : IsCanonical n e) :
    ((compare d e).then (compare m n)).swap =
      compare (-((m : ℚ) * 2 ^ d)) (-(n * 2 ^ e)) := by
  rw [compare_scaled hm hn]
  rcases lt_trichotomy ((m : ℚ) * 2 ^ d) (n * 2 ^ e) with h | h | h
  · rw [compare_lt_iff_lt.2 h, compare_gt_iff_gt.2 (neg_lt_neg h)]
    rfl
  · rw [h, compare_eq_iff_eq.2 rfl, compare_eq_iff_eq.2 rfl]
    rfl
  · rw [compare_gt_iff_gt.2 h, compare_lt_iff_lt.2 (neg_lt_neg h)]
    rfl

theorem compare_exact (hx : x.isFinite = true) (hy : y.isFinite = true) :
    x.toModel.unpack.compare y.toModel.unpack = some (compare (exact x) (exact y)) := by
  rw [isFinite_eq] at hx hy
  unfold exact
  cases hu : x.toModel.unpack with
  | notANumber => rw [hu] at hx; cases hx
  | infinity s => rw [hu] at hx; cases hx
  | zero s =>
    cases hv : y.toModel.unpack with
    | notANumber => rw [hv] at hy; cases hy
    | infinity t => rw [hv] at hy; cases hy
    | zero t => exact congrArg some (compare_eq_iff_eq.2 rfl).symm
    | finite t n e hn =>
      have hpos := scaled_pos hn e
      cases t with
      | positive => exact congrArg some (compare_lt_iff_lt.2 (by simpa [Sign.apply])).symm
      | negative => exact congrArg some (compare_gt_iff_gt.2 (by simpa [Sign.apply])).symm
  | finite s m d hm =>
    have hposm := scaled_pos hm d
    have hcm := isCanonical_of_unpack hu
    cases hv : y.toModel.unpack with
    | notANumber => rw [hv] at hy; cases hy
    | infinity t => rw [hv] at hy; cases hy
    | zero t =>
      cases s with
      | positive => exact congrArg some (compare_gt_iff_gt.2 (by simpa [Sign.apply])).symm
      | negative => exact congrArg some (compare_lt_iff_lt.2 (by simpa [Sign.apply])).symm
    | finite t n e hn =>
      have hposn := scaled_pos hn e
      have hcn := isCanonical_of_unpack hv
      cases s with
      | positive =>
        cases t with
        | positive => exact congrArg some (compare_scaled hcm hcn)
        | negative =>
          refine congrArg some (compare_gt_iff_gt.2 ?_).symm
          simp only [Sign.apply, Int.cast_neg, Int.cast_natCast]
          linarith
      | negative =>
        cases t with
        | positive =>
          refine congrArg some (compare_lt_iff_lt.2 ?_).symm
          simp only [Sign.apply, Int.cast_neg, Int.cast_natCast]
          linarith
        | negative =>
          refine congrArg some ((swap_compare_scaled hcm hcn).trans ?_)
          simp only [Sign.apply, Int.cast_neg, Int.cast_natCast, neg_mul]

theorem le_iff_exact (hx : x.isFinite = true) (hy : y.isFinite = true) :
    x ≤ y ↔ exact x ≤ exact y := by
  have hle : x ≤ y ↔ x.toModel.unpack.le y.toModel.unpack = true := decide_eq_true_iff
  rw [hle, UnpackedFloat.le, compare_exact hx hy, Option.any_some, Ordering.isLE_iff_ne_gt]
  exact compare_le_iff_le

theorem lt_iff_exact (hx : x.isFinite = true) (hy : y.isFinite = true) :
    x < y ↔ exact x < exact y := by
  have hlt : x < y ↔ x.toModel.unpack.lt y.toModel.unpack = true := decide_eq_true_iff
  rw [hlt, UnpackedFloat.lt, compare_exact hx hy, beq_iff_eq, Option.some_inj, compare_lt_iff_lt]

theorem exact_zero : (0 : Float).isFinite = true ∧ exact 0 = 0 := ⟨rfl, rfl⟩

theorem unpack_infinity : infinity.toModel.unpack = .infinity .positive := by
  have hinf : infinity = .ofModel (.pack (.infinity .positive)) := rfl
  rw [hinf]
  rfl

theorem le_infinity (h : x.isNaN = false) : x ≤ infinity := by
  have hle : x ≤ infinity ↔ x.toModel.unpack.le infinity.toModel.unpack = true := decide_eq_true_iff
  change x.toModel.unpack.isNaN = false at h
  rw [hle, unpack_infinity]
  cases hu : x.toModel.unpack with
  | notANumber => rw [hu] at h; cases h
  | infinity s => cases s <;> rfl
  | _ => rfl

theorem isFinite_of_beq_zero (h : (x == 0) = true) : x.isFinite = true := by
  rw [beq_zero_eq] at h
  rw [isFinite_eq]
  cases hu : x.toModel.unpack with
  | notANumber => rw [hu] at h; cases h
  | infinity s => rw [hu] at h; cases s <;> cases h
  | _ => rfl

theorem magnitude_of_not_finite (h : x.isFinite = false) :
    magnitude x = .nan ∨ magnitude x = .infinite := by
  rw [isFinite_eq] at h
  unfold magnitude
  cases hu : x.toModel.unpack with
  | notANumber => exact .inl rfl
  | infinity s => exact .inr rfl
  | _ => rw [hu] at h; cases h

theorem ratio_eq (m : Nat) (e : Int) :
    ((ratio m e).1 : ℚ) / (ratio m e).2 = m * 2 ^ e := by
  cases e with
  | ofNat k => simp [ratio]
  | negSucc k => simp [ratio, zpow_negSucc, div_eq_mul_inv]

theorem floor_eq (m : Nat) (e : Int) : floor m e = ⌊(m : ℚ) * 2 ^ e⌋₊ := by
  rw [floor, ← ratio_eq, Nat.floor_div_eq_div]

theorem natural?_eq_some_iff : natural? (.finite m e) = some n ↔ (m : ℚ) * 2 ^ e = n := by
  have hd := ratio_den_pos m e
  rw [← ratio_eq, div_eq_iff (Nat.cast_ne_zero.2 hd.ne'), ← Nat.cast_mul, Nat.cast_inj]
  simp only [natural?, Option.ite_none_right_eq_some, Option.some_inj]
  constructor
  · rintro ⟨hdvd, rfl⟩
    exact (Nat.div_mul_cancel (Nat.dvd_of_mod_eq_zero hdvd)).symm
  · intro h
    rw [h]
    exact ⟨Nat.mul_mod_left _ _, Nat.mul_div_cancel _ hd⟩

theorem exists_magnitude (hx : x.isFinite = true) :
    ∃ m e, magnitude x = .finite m e ∧ |exact x| = m * 2 ^ e := by
  rw [isFinite_eq] at hx
  unfold magnitude exact
  cases hu : x.toModel.unpack with
  | notANumber => rw [hu] at hx; cases hx
  | infinity s => rw [hu] at hx; cases hx
  | zero s => exact ⟨0, -1074, rfl, by simp⟩
  | finite s m e hm =>
    refine ⟨m, e, rfl, ?_⟩
    cases s <;> simp [Sign.apply]

theorem exact_ofNat (h : n < 2 ^ 53) : (ofNat n).isFinite = true ∧ exact (ofNat n) = n := by
  rcases Nat.eq_zero_or_pos n with rfl | hn
  · exact ⟨exact_zero.1, exact_zero.2.trans Nat.cast_zero.symm⟩
  have hk : n.log2 < 53 := (Nat.log2_lt hn.ne').2 h
  have hf := isFull_shifted hn hk
  have hu : (ofNat n).toModel.unpack =
      .finite .positive (n * 2 ^ (52 - n.log2)) (-(52 - n.log2 : Nat)) hf.pos := by
    rw [ofNat_shifted hf (Nat.sub_le _ _), ofMantissa_full hf]
    exact unpack_pack hf (by omega) (by omega)
  constructor
  · rw [isFinite_eq, hu]
    rfl
  · rw [exact, hu]
    simp [Sign.apply]

theorem exact_one : (1 : Float).isFinite = true ∧ exact 1 = 1 := by
  obtain ⟨hfinite, hexact⟩ := exact_ofNat (n := 1) (by decide)
  exact ⟨hfinite, hexact.trans Nat.cast_one⟩

theorem isCanonical_of_magnitude (h : magnitude x = .finite m e) : IsCanonical m e ∧ e ≤ 971 := by
  unfold magnitude at h
  cases hu : x.toModel.unpack with
  | notANumber => rw [hu] at h; cases h
  | infinity s => rw [hu] at h; cases h
  | zero s =>
    rw [hu] at h
    cases h
    exact ⟨isCanonical_zero, by decide⟩
  | finite s m' e' hm =>
    have hcanonical := isCanonical_of_unpack hu
    have hbound : e' ≤ 971 := by
      obtain ⟨-, rfl⟩ | ⟨-, -, hle, -⟩ := unpack_finite hu
      · decide
      · exact hle
    rw [hu] at h
    cases h
    exact ⟨hcanonical, hbound⟩

theorem eq_of_scaled_eq {d : Int} (hm : IsCanonical m d) (hn : IsCanonical n e)
    (h : (m : ℚ) * 2 ^ d = n * 2 ^ e) : m = n ∧ d = e := by
  have heq := (compare_scaled hm hn).trans (compare_eq_iff_eq.2 h)
  obtain ⟨he, hm⟩ := Ordering.then_eq_eq.1 heq
  exact ⟨compare_eq_iff_eq.1 hm, compare_eq_iff_eq.1 he⟩

theorem magnitude_eq_iff_abs (hx : x.isFinite = true) (hy : y.isFinite = true) :
    magnitude x = magnitude y ↔ |exact x| = |exact y| := by
  obtain ⟨m, d, hm, hxm⟩ := exists_magnitude hx
  obtain ⟨n, e, hn, hyn⟩ := exists_magnitude hy
  rw [hm, hn, hxm, hyn, Magnitude.finite.injEq]
  constructor
  · rintro ⟨rfl, rfl⟩
    rfl
  · exact eq_of_scaled_eq (isCanonical_of_magnitude hm).1 (isCanonical_of_magnitude hn).1

theorem beq_iff_exact (hx : x.isFinite = true) (hy : y.isFinite = true) :
    (x == y) = true ↔ exact x = exact y := by
  have hbeq : (x == y) = x.toModel.unpack.beq y.toModel.unpack := rfl
  rw [hbeq, UnpackedFloat.beq, compare_exact hx hy, beq_iff_eq, Option.some_inj,
    compare_eq_iff_eq]

theorem eq_iff_sign_abs {p q : ℚ} : p = q ↔ (p < 0 ↔ q < 0) ∧ |p| = |q| := by
  constructor
  · rintro rfl
    exact ⟨Iff.rfl, rfl⟩
  · rintro ⟨hsign, habs⟩
    rcases abs_eq_abs.1 habs with h | h
    · exact h
    · -- of two opposite numbers not both or neither are below zero, unless they are zero
      rcases lt_trichotomy q 0 with hq | hq | hq
      · have := hsign.2 hq
        linarith
      · linarith
      · have := hsign.1 (by linarith)
        linarith

theorem exists_unpack_infinity (hx : x.isNaN = false) (h : x.isFinite = false) :
    ∃ s, x.toModel.unpack = .infinity s := by
  change x.toModel.unpack.isNaN = false at hx
  rw [isFinite_eq] at h
  cases hu : x.toModel.unpack with
  | notANumber => rw [hu] at hx; cases hx
  | infinity s => exact ⟨s, rfl⟩
  | _ => rw [hu] at h; cases h

theorem lt_zero_iff (x : Float) :
    x < 0 ↔ x.toModel.unpack.lt (.zero .positive) = true :=
  decide_eq_true_iff

theorem beq_iff_of_infinity {s : Sign} (hx : x.toModel.unpack = .infinity s)
    (hy : y.isNaN = false) : (x == y) = true ↔ (x < 0 ↔ y < 0) ∧ magnitude x = magnitude y := by
  have hbeq : (x == y) = x.toModel.unpack.beq y.toModel.unpack := rfl
  change y.toModel.unpack.isNaN = false at hy
  rw [hbeq, lt_zero_iff, lt_zero_iff, magnitude, magnitude, hx]
  cases hv : y.toModel.unpack with
  | notANumber => rw [hv] at hy; cases hy
  | infinity t => cases s <;> cases t <;> decide
  | zero t => cases s <;> simp [UnpackedFloat.beq, UnpackedFloat.compare]
  | finite t n e hn => cases s <;> simp [UnpackedFloat.beq, UnpackedFloat.compare]

theorem beq_infinity_of_isFinite {s : Sign} (hx : x.isFinite = true)
    (hy : y.toModel.unpack = .infinity s) : (x == y) = false := by
  rw [isFinite_eq] at hx
  change x.toModel.unpack.beq y.toModel.unpack = false
  rw [hy]
  cases hu : x.toModel.unpack with
  | notANumber => rw [hu] at hx; cases hx
  | infinity t => rw [hu] at hx; cases hx
  | zero t => cases s <;> rfl
  | finite t m d hm => cases s <;> rfl

theorem beq_iff (hx : x.isNaN = false) (hy : y.isNaN = false) :
    (x == y) = true ↔ (x < 0 ↔ y < 0) ∧ magnitude x = magnitude y := by
  cases hfx : x.isFinite with
  | false =>
    obtain ⟨s, hu⟩ := exists_unpack_infinity hx hfx
    exact beq_iff_of_infinity hu hy
  | true =>
    cases hfy : y.isFinite with
    | false =>
      obtain ⟨s, hv⟩ := exists_unpack_infinity hy hfy
      obtain ⟨m, e, hm, -⟩ := exists_magnitude hfx
      have hinfinite : magnitude y = .infinite := by rw [magnitude, hv]
      simp [beq_infinity_of_isFinite hfx hv, hm, hinfinite]
    | true =>
      rw [beq_iff_exact hfx hfy, lt_iff_exact hfx exact_zero.1, lt_iff_exact hfy exact_zero.1,
        exact_zero.2, magnitude_eq_iff_abs hfx hfy, eq_iff_sign_abs]

theorem beq_congr_left {z : Float} (hx : x.isNaN = false) (hy : y.isNaN = false)
    (hz : z.isNaN = false) (h : (x == y) = true) : (x == z) = (y == z) := by
  obtain ⟨hsign, hmagnitude⟩ := (beq_iff hx hy).1 h
  rw [Bool.eq_iff_iff, beq_iff hx hz, beq_iff hy hz, hsign, hmagnitude]

theorem beq_of_beq {z : Float} (hx : x.isNaN = false) (hy : y.isNaN = false)
    (hz : z.isNaN = false) (hxz : (x == z) = true) (hyz : (y == z) = true) : (x == y) = true := by
  obtain ⟨hsign, hmagnitude⟩ := (beq_iff hx hz).1 hxz
  obtain ⟨hsign', hmagnitude'⟩ := (beq_iff hy hz).1 hyz
  exact (beq_iff hx hy).2 ⟨hsign.trans hsign'.symm, hmagnitude.trans hmagnitude'.symm⟩

theorem magnitude_ne_nan (hx : x.isNaN = false) : magnitude x ≠ .nan := by
  change x.toModel.unpack.isNaN = false at hx
  rw [magnitude]
  cases hu : x.toModel.unpack with
  | notANumber => rw [hu] at hx; cases hx
  | _ => exact Magnitude.noConfusion

theorem isNegative_eq (hx : x.isNaN = false) (hzero : magnitude x ≠ .finite 0 (-1074)) :
    isNegative x = decide (x < 0) := by
  change x.toModel.unpack.isNaN = false at hx
  have hlt : decide (x < 0) = x.toModel.unpack.lt (.zero .positive) := by
    rw [Bool.eq_iff_iff, decide_eq_true_iff, lt_zero_iff]
  rw [magnitude] at hzero
  rw [hlt, isNegative]
  cases hu : x.toModel.unpack with
  | notANumber => rw [hu] at hx; cases hx
  | infinity s => cases s <;> rfl
  | zero s => rw [hu] at hzero; exact absurd rfl hzero
  | finite s m e hm => cases s <;> rfl

theorem not_lt_zero_of_magnitude (h : magnitude x = .finite 0 (-1074)) : ¬x < 0 := by
  rw [magnitude] at h
  rw [lt_zero_iff]
  cases hu : x.toModel.unpack with
  | notANumber => rw [hu] at h; cases h
  | infinity s => rw [hu] at h; cases h
  | zero s => exact Bool.false_ne_true
  | finite s m e hm =>
    rw [hu] at h
    cases h
    exact absurd hm (Nat.lt_irrefl 0)

end ComplexCalculator.Binary64
