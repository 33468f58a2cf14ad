/-!
# Greek letters

A name is a run of ASCII letters or one Greek letter. The Greek letters are the capitals, the small
letters and the symbol variants such as ϑ and ϖ; accented letters are none of them. ASCII letters
and digits are the core library's.
-/
namespace ComplexCalculator.Text

def isGreek (c : Char) : Bool :=
  let n := c.toNat
  (0x391 ≤ n && n ≤ 0x3A9) || (0x3B1 ≤ n && n ≤ 0x3C9) || (0x3D0 ≤ n && n ≤ 0x3F5)

theorem le_toNat_of_isGreek {c : Char} (h : isGreek c = true) : 0x391 ≤ c.toNat := by
  simp only [isGreek, Bool.or_eq_true, Bool.and_eq_true, decide_eq_true_eq] at h
  omega

theorem toNat_le_of_isAlpha {c : Char} (h : c.isAlpha = true) :
    0x41 ≤ c.toNat ∧ c.toNat ≤ 0x7A := by
  have hval : (decide (0x41 ≤ c.val ∧ c.val ≤ 0x5A) ||
      (decide (0x61 ≤ c.val) && decide (c.val ≤ 0x7A))) = true := h
  simp only [Bool.or_eq_true, Bool.and_eq_true, decide_eq_true_eq, UInt32.le_iff_toNat_le] at hval
  change (0x41 ≤ c.toNat ∧ c.toNat ≤ 0x5A) ∨ (0x61 ≤ c.toNat ∧ c.toNat ≤ 0x7A) at hval
  omega

theorem toNat_le_of_isDigit {c : Char} (h : c.isDigit = true) :
    0x30 ≤ c.toNat ∧ c.toNat ≤ 0x39 := by
  simp only [Char.isDigit, Bool.and_eq_true, decide_eq_true_eq, UInt32.le_iff_toNat_le,
    ge_iff_le] at h
  exact h

end ComplexCalculator.Text
