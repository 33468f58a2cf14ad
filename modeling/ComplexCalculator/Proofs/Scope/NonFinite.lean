import ComplexCalculator.Scope.Standard
import ComplexCalculator.Session.Line
import ComplexCalculator.Proofs.Number.Factorial

/-!
# Factorials of values that are not finite

The strict policy refuses every number with an infinite or NaN part. The staircase policy looks at
the real part alone: it refuses an infinite or NaN real part, and of a finite one it takes the
factorial whatever the imaginary part is. So an imaginary part that has overflowed has a factorial.
-/
namespace ComplexCalculator
open Binary64

namespace Number

variable {n : Number}

theorem factors?_of_real_part (policy : FactorialPolicy) (h : n.re.isFinite = false) :
    factors? policy n = none := by
  rcases magnitude_of_not_finite h with hm | hm <;> cases policy <;>
    simp [factors?, hm, natural?]

theorem factors?_of_imaginary_part (h : n.im.isFinite = false) : factors? .strict n = none := by
  have him : (n.im == 0) = false := by
    by_contra hzero
    have hfinite := isFinite_of_beq_zero (Bool.eq_true_of_not_eq_false hzero)
    cases h.symm.trans hfinite
  simp [factors?, him]

theorem factors?_strict_of_not_finite (h : n.isFinite = false) : factors? .strict n = none := by
  rcases Bool.and_eq_false_iff.1 h with hre | him
  · exact factors?_of_real_part .strict hre
  · exact factors?_of_imaginary_part him

theorem ofReal_roundedFactorial_ne_nan (k : Nat) : ofReal (roundedFactorial k) ≠ nan := by
  intro h
  have hnan := isNaN_roundedFactorial k
  have hre : roundedFactorial k = Binary64.nan := congrArg Number.re h
  rw [hre] at hnan
  cases hnan

end Number

open Number

/-- In every scope the factorial of a value that is not finite is NaN under the strict policy, and
under the staircase policy exactly when the real part is not finite. Otherwise only the imaginary
part is infinite or NaN, and the staircase policy gives the factorial of the floor of the real
part. -/
theorem factorial_of_non_finite (s : Store) (i : Nat) {t : Expr}
    (h : (t.evaluate (s.context i)).value.isFinite = false) :
    let n := (t.evaluate (s.context i)).value
    let policy := (s.settings i).factorial
    let result := ((Expr.factorial t).evaluate (s.context i)).value
    (result = Number.nan ↔ policy = .strict ∨ n.re.isFinite = false) ∧
      (policy = .staircase → n.re.isFinite = true →
        result = ofReal (roundedFactorial ⌊exact n.re⌋₊)) := by
  intro n policy result
  have hresult : result = n.factorial policy := by
    simp only [result, Expr.evaluate]
    rfl
  have hstaircase (hpolicy : policy = .staircase) (hre : n.re.isFinite = true) :
      result = ofReal (roundedFactorial ⌊exact n.re⌋₊) := by
    rw [hresult, hpolicy]
    exact factorial_of_factors (factors?_staircase hre)
  refine ⟨⟨fun hnan => ?_, ?_⟩, hstaircase⟩
  · by_contra hno
    obtain ⟨hpolicy, hre⟩ := not_or.1 hno
    have hpolicy : policy = .staircase := by
      cases hp : policy with
      | strict => exact absurd hp hpolicy
      | staircase => rfl
    rw [hstaircase hpolicy (Bool.eq_true_of_not_eq_false hre)] at hnan
    exact ofReal_roundedFactorial_ne_nan _ hnan
  · rintro (hpolicy | hre)
    · rw [hresult, hpolicy]
      exact factorial_of_no_factors (factors?_strict_of_not_finite h)
    · rw [hresult]
      exact factorial_of_no_factors (factors?_of_real_part policy hre)

theorem factorial_of_non_finite_quotient :
    let s := Store.standard (some { Settings.standard with factorial := .staircase })
    let t := Expr.binary .div (.symbol "i") (.number .zero)
    (t.evaluate (s.context 0)).value.isFinite = false ∧
      (t.evaluate (s.context 0)).value.im = infinity ∧
      ((Expr.factorial t).evaluate (s.context 0)).value = Number.nan := by
  intro s t
  obtain ⟨hvalue, him, hre⟩ :
      (t.evaluate (s.context 0)).value.isFinite = false ∧
        (t.evaluate (s.context 0)).value.im = infinity ∧
        (t.evaluate (s.context 0)).value.re.isFinite = false := by
    decide +kernel
  exact ⟨hvalue, him, (factorial_of_non_finite s 0 hvalue).1.2 (.inr hre)⟩

/-- The imaginary part of the product overflows and its real part is zero, so that under the
staircase policy its factorial is one. -/
theorem imaginary_overflow_has_factorial :
    let s := Store.standard (some { Settings.standard with factorial := .staircase })
    let large := Expr.factorial (.number (.ofReal (ofNat 170)))
    let t := Expr.binary .mul (.binary .mul (.symbol "i") large) large
    parse (s.vocabulary 0) "(i*170!*170!)!" = .ok (.factorial t) ∧
      (t.evaluate (s.context 0)).value.isFinite = false ∧
      ((Expr.factorial t).evaluate (s.context 0)).value = one ∧
      ((Expr.factorial t).evaluate (s.context 0)).value ≠ Number.nan := by
  intro s large t
  have hs : Stream.ofString "(i*170!*170!)!" =
      .token ⟨.mark .opening, 0⟩ (.token ⟨.name "i", 1⟩ (.token ⟨.mark .times, 2⟩
        (.token ⟨.number (ofNat 170), 3⟩ (.token ⟨.mark .factorial, 6⟩ (.token ⟨.mark .times, 7⟩
          (.token ⟨.number (ofNat 170), 8⟩ (.token ⟨.mark .factorial, 11⟩
            (.token ⟨.mark .closing, 12⟩ (.token ⟨.mark .factorial, 13⟩ (.ending 14)))))))))) := by
    decide +kernel
  refine ⟨?_, by decide +kernel⟩
  simp only [parse, hs]
  rfl

end ComplexCalculator
