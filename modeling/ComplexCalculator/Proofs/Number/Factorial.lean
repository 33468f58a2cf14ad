import ComplexCalculator.Number.Factorial
import ComplexCalculator.Proofs.Binary64.Order

/-!
# Factorials of finite numbers

The product 1 * 2 * ... * k, rounded after each factor, overflows with the factor 171 and stays
infinite from there on, so stopping at an overflow changes nothing. The loop that counts its factors
in binary64 numbers stops with the factor 171 at the latest, long before its counter could stick.
-/
namespace ComplexCalculator.Number
open Binary64

def roundedFactorial : Nat → Float
  | 0 => 1
  | k + 1 => roundedFactorial k * Binary64.ofNat (k + 1)

theorem infinity_mul_ofNat (k : Nat) : infinity * Binary64.ofNat (k + 1) = infinity := by
  have hmul (x : Float) : infinity * x =
      .ofModel (.pack (.mul .binary64 (.infinity .positive) x.toModel.unpack)) := by
    rw [← unpack_infinity]
    rfl
  have hinf : Float.ofModel (.pack (.infinity .positive)) = infinity := rfl
  have hfinite {m : Nat} {e : Int} (hf : IsFull m) (he : -1074 ≤ e) :
      infinity * ofMantissa m e = infinity := by
    rw [hmul]
    obtain h | h := ofMantissa_cases hf he
    · rw [h, unpack_infinity]
      exact hinf
    · rw [h]
      exact hinf
  obtain h | ⟨d, hd, hf, h⟩ | ⟨m, d, hf, h⟩ := ofNat_cases (k + 1)
  · cases h
  · rw [h]
    exact hfinite hf (by omega)
  · rw [h]
    exact hfinite hf (by omega)

theorem roundedFactorial_climbs :
    (∀ k < 170, (roundedFactorial (k + 1)).isFinite = true ∧
      roundedFactorial k ≤ roundedFactorial (k + 1)) ∧
    roundedFactorial 171 = infinity := by
  decide +kernel

theorem isFinite_roundedFactorial {k : Nat} (h : k ≤ 170) :
    (roundedFactorial k).isFinite = true := by
  cases k with
  | zero => exact exact_one.1
  | succ k => exact (roundedFactorial_climbs.1 k h).1

theorem roundedFactorial_eq_infinity {k : Nat} (h : 171 ≤ k) : roundedFactorial k = infinity := by
  induction k, h using Nat.le_induction with
  | base => exact roundedFactorial_climbs.2
  | succ k _ ih => rw [roundedFactorial, ih, infinity_mul_ofNat]

theorem isInf_roundedFactorial (k : Nat) : (roundedFactorial k).isInf = true ↔ 171 ≤ k := by
  constructor
  · intro hinf
    by_contra hk
    have hfinite := isFinite_roundedFactorial (Nat.le_of_not_lt hk)
    cases hinf.symm.trans (isInf_of_isFinite hfinite)
  · intro hk
    rw [roundedFactorial_eq_infinity hk]
    rfl

theorem isNaN_roundedFactorial (k : Nat) : (roundedFactorial k).isNaN = false := by
  rcases Nat.lt_or_ge 170 k with hk | hk
  · rw [roundedFactorial_eq_infinity hk]
    rfl
  · exact isNaN_of_isFinite (isFinite_roundedFactorial hk)

theorem exact_roundedFactorial_le {k l : Nat} (h : k ≤ l) (hl : l ≤ 170) :
    exact (roundedFactorial k) ≤ exact (roundedFactorial l) := by
  induction l, h using Nat.le_induction with
  | base => exact le_rfl
  | succ l _ ih =>
    obtain ⟨hfinite, hstep⟩ := roundedFactorial_climbs.1 l hl
    have hl' : l ≤ 170 := by omega
    exact (ih hl').trans ((le_iff_exact (isFinite_roundedFactorial hl') hfinite).1 hstep)

theorem roundedFactorial_le {k l : Nat} (h : k ≤ l) :
    roundedFactorial k ≤ roundedFactorial l := by
  rcases Nat.lt_or_ge 170 l with hl | hl
  · rw [roundedFactorial_eq_infinity hl]
    exact le_infinity (isNaN_roundedFactorial k)
  · have hk : k ≤ 170 := h.trans hl
    exact (le_iff_exact (isFinite_roundedFactorial hk) (isFinite_roundedFactorial hl)).2
      (exact_roundedFactorial_le h hl)

theorem product_roundedFactorial (count i : Nat) :
    product count (i + 1) (roundedFactorial i) = roundedFactorial (i + count) := by
  induction count generalizing i with
  | zero => rfl
  | succ count ih =>
    have hnext : roundedFactorial i * Binary64.ofNat (i + 1) = roundedFactorial (i + 1) := rfl
    rw [product, hnext, ih (i + 1), Nat.add_right_comm, Nat.add_assoc i count 1]
    split
    · rename_i hinf
      have hi := (isInf_roundedFactorial (i + 1)).1 hinf
      rw [roundedFactorial_eq_infinity hi, roundedFactorial_eq_infinity (by omega)]
    · rfl

theorem counter_succ : ∀ k < 172, Binary64.ofNat k + 1 = Binary64.ofNat (k + 1) := by
  decide +kernel

/-- A counter that went on would stick where the numbers lie two apart. -/
example : (9007199254740992 : Float) + 1 = 9007199254740992 := rfl

theorem counter_le_iff {bound : Float} (hb : bound.isFinite = true) {k : Nat} (hk : k < 171) :
    Binary64.ofNat (k + 1) ≤ bound ↔ k + 1 ≤ ⌊exact bound⌋₊ := by
  obtain ⟨hfinite, hexact⟩ := exact_ofNat (n := k + 1) (by omega)
  rw [le_iff_exact hfinite hb, hexact, Nat.le_floor_iff' (Nat.succ_ne_zero k)]

theorem loop?_roundedFactorial {bound : Float} (hb : bound.isFinite = true) (rounds k : Nat)
    (hrounds : k + rounds = 171) (hk : k ≤ 170) (hfloor : k ≤ ⌊exact bound⌋₊) :
    loop? bound rounds (Binary64.ofNat (k + 1)) (roundedFactorial k) =
      some (roundedFactorial ⌊exact bound⌋₊) := by
  induction rounds generalizing k with
  | zero => omega
  | succ rounds ih =>
    have hnext : roundedFactorial k * Binary64.ofNat (k + 1) = roundedFactorial (k + 1) := rfl
    have hle := counter_le_iff hb (Nat.lt_succ_of_le hk)
    simp only [loop?, hle, hnext]
    rcases Nat.lt_or_ge k ⌊exact bound⌋₊ with hlt | hge
    · rw [if_pos (Nat.succ_le_of_lt hlt)]
      split
      · rename_i hinf
        have hk' := (isInf_roundedFactorial (k + 1)).1 hinf
        rw [roundedFactorial_eq_infinity hk', roundedFactorial_eq_infinity (hk'.trans hlt)]
      · rename_i hinf
        rw [isInf_roundedFactorial] at hinf
        rw [counter_succ (k + 1) (by omega)]
        exact ih (k + 1) (by omega) (by omega) hlt
    · rw [if_neg (Nat.not_le.2 (Nat.lt_succ_of_le hge)), Nat.le_antisymm hfloor hge]

variable {n : Number} {policy : FactorialPolicy} {k : Nat}

theorem finite_parts (hn : n.isFinite = true) : n.re.isFinite = true ∧ n.im.isFinite = true :=
  Bool.and_eq_true_iff.1 hn

theorem factorial_of_factors (h : factors? policy n = some k) :
    n.factorial policy = ofReal (roundedFactorial k) := by
  have hproduct : product k 1 1 = roundedFactorial (0 + k) := product_roundedFactorial k 0
  rw [Nat.zero_add] at hproduct
  simp only [factorial, h]
  exact congrArg ofReal hproduct

theorem factorial_of_no_factors (h : factors? policy n = none) : n.factorial policy = nan := by
  simp only [factorial, h]

theorem exact_of_not_negative (hre : n.re.isFinite = true) (hneg : ¬ n.re < 0) :
    ∃ m e, magnitude n.re = .finite m e ∧ exact n.re = m * 2 ^ e := by
  obtain ⟨m, e, hm, habs⟩ := exists_magnitude hre
  rw [lt_iff_exact hre exact_zero.1, exact_zero.2, not_lt] at hneg
  exact ⟨m, e, hm, (abs_of_nonneg hneg).symm.trans habs⟩

theorem factors?_staircase (hre : n.re.isFinite = true) :
    factors? .staircase n = some ⌊exact n.re⌋₊ := by
  by_cases hneg : n.re < 0
  · obtain ⟨m, e, hm, -⟩ := exists_magnitude hre
    have hexact := (lt_iff_exact hre exact_zero.1).1 hneg
    rw [exact_zero.2] at hexact
    simp only [factors?, hm, if_pos hneg, Nat.floor_of_nonpos hexact.le]
  · obtain ⟨m, e, hm, hexact⟩ := exact_of_not_negative hre hneg
    simp only [factors?, hm, if_neg hneg, floor_eq, hexact]

theorem factors?_strict (hre : n.re.isFinite = true) :
    factors? .strict n = some k ↔ (n.im == 0) = true ∧ exact n.re = k := by
  by_cases hneg : n.re < 0
  · have hexact := (lt_iff_exact hre exact_zero.1).1 hneg
    rw [exact_zero.2] at hexact
    have hk : exact n.re ≠ k := (hexact.trans_le k.cast_nonneg).ne
    simp [factors?, hneg, hk]
  · obtain ⟨m, e, hm, hexact⟩ := exact_of_not_negative hre hneg
    simp [factors?, hm, hneg, hexact, natural?_eq_some_iff]

theorem floor_of_factors (hre : n.re.isFinite = true) (h : factors? policy n = some k) :
    ⌊exact n.re⌋₊ = k := by
  cases policy with
  | strict => rw [((factors?_strict hre).1 h).2, Nat.floor_natCast]
  | staircase =>
    rw [factors?_staircase hre] at h
    exact Option.some.inj h

theorem loop?_factorial (hre : n.re.isFinite = true) (h : factors? policy n = some k) :
    (loop? n.re 171 1 1).map ofReal = some (n.factorial policy) := by
  have hloop : loop? n.re 171 1 1 = some (roundedFactorial ⌊exact n.re⌋₊) :=
    loop?_roundedFactorial hre 171 0 rfl (Nat.zero_le _) (Nat.zero_le _)
  rw [hloop, floor_of_factors hre h, factorial_of_factors h, Option.map_some]

theorem isNaN_factorial (h : (n.factorial policy).isNaN = false) :
    ∃ k, factors? policy n = some k := by
  cases hf : factors? policy n with
  | some k => exact ⟨k, rfl⟩
  | none =>
    rw [factorial_of_no_factors hf] at h
    cases h

theorem factors?_le {m : Number} {l : Nat} (hn : n.re.isFinite = true) (hm : m.re.isFinite = true)
    (hle : n.re ≤ m.re) (hk : factors? policy n = some k) (hl : factors? policy m = some l) :
    k ≤ l := by
  rw [← floor_of_factors hn hk, ← floor_of_factors hm hl]
  exact Nat.floor_le_floor ((le_iff_exact hn hm).1 hle)

/-- The factorial of a finite number. The strict policy gives natural numbers their rounded product
and nothing else; the staircase policy gives every number that of its floor, which below one is the
empty product. So the two agree where the strict one gives a number, neither of them ever falls, and
the loop has come to its answer after 171 rounds, however large its bound is. Where there is a
factorial, this answer is the factorial. -/
theorem factorial_of_finite (n : Number) (hn : n.isFinite = true) :
    (∀ k : Nat, (n.im == 0) = true → exact n.re = k →
      n.factorial .strict = ofReal (roundedFactorial k)) ∧
    ((¬ ∃ k : Nat, (n.im == 0) = true ∧ exact n.re = k) → n.factorial .strict = nan) ∧
    (1 ≤ n.re → n.factorial .staircase = ofReal (roundedFactorial ⌊exact n.re⌋₊)) ∧
    (n.re < 1 → n.factorial .staircase = one) ∧
    ((n.factorial .strict).isNaN = false → n.factorial .staircase = n.factorial .strict) ∧
    (∀ policy (m : Number), m.isFinite = true → n.re ≤ m.re → (n.factorial policy).isNaN = false →
      (m.factorial policy).isNaN = false → (n.factorial policy).re ≤ (m.factorial policy).re) ∧
    loop? n.re 171 1 1 = some (roundedFactorial ⌊exact n.re⌋₊) ∧
    ∀ policy, (n.factorial policy).isNaN = false →
      (loop? n.re 171 1 1).map ofReal = some (n.factorial policy) := by
  have hre := (finite_parts hn).1
  have hstaircase := factorial_of_factors (factors?_staircase hre)
  refine ⟨fun k him hk => ?_, fun hk => ?_, fun _ => hstaircase, fun hlt => ?_, fun hnan => ?_,
    fun policy m hm hle hnan hnan' => ?_, ?_, fun policy hnan => ?_⟩
  · exact factorial_of_factors ((factors?_strict hre).2 ⟨him, hk⟩)
  · apply factorial_of_no_factors
    exact Option.eq_none_iff_forall_ne_some.2 fun k hf => hk ⟨k, (factors?_strict hre).1 hf⟩
  · rw [lt_iff_exact hre exact_one.1, exact_one.2] at hlt
    rw [hstaircase, Nat.floor_eq_zero.2 hlt]
    rfl
  · obtain ⟨k, hk⟩ := isNaN_factorial hnan
    rw [hstaircase, factorial_of_factors hk, floor_of_factors hre hk]
  · obtain ⟨k, hk⟩ := isNaN_factorial hnan
    obtain ⟨l, hl⟩ := isNaN_factorial hnan'
    rw [factorial_of_factors hk, factorial_of_factors hl]
    exact roundedFactorial_le (factors?_le hre (finite_parts hm).1 hle hk hl)
  · exact loop?_roundedFactorial hre 171 0 rfl (Nat.zero_le _) (Nat.zero_le _)
  · obtain ⟨k, hk⟩ := isNaN_factorial hnan
    exact loop?_factorial hre hk

theorem factorial_of_finite_unreachable :
    let n : Number := ⟨1e300, -2⟩
    n.isFinite = true ∧ 1 ≤ n.re ∧ n.factorial .staircase = ofReal infinity ∧
      loop? n.re 171 1 1 = some infinity := by
  intro n
  obtain ⟨hn, hone, hcounter⟩ :
      n.isFinite = true ∧ 1 ≤ n.re ∧ Binary64.ofNat (170 + 1) ≤ n.re := by
    decide +kernel
  have hfloor : 171 ≤ ⌊exact n.re⌋₊ :=
    (counter_le_iff (finite_parts hn).1 (by decide)).1 hcounter
  obtain ⟨-, -, hstaircase, -, -, -, hloop, -⟩ := factorial_of_finite n hn
  have hstaircase := hstaircase hone
  rw [roundedFactorial_eq_infinity hfloor] at hstaircase hloop
  exact ⟨hn, hone, hstaircase, hloop⟩

end ComplexCalculator.Number
