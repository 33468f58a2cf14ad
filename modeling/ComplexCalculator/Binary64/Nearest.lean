import ComplexCalculator.Binary64.Magnitude

/-!
# Nearest binary64 number of a natural number

A natural number of at most 53 bits is kept; of a longer one the leading 53 bits are kept, rounded
to nearest with ties to even. The result is infinite from the middle between the largest finite
number and the next power of two on.
-/
namespace ComplexCalculator.Binary64

/-- A quotient rounded to the nearest natural number, a half going to the even one. -/
def roundDiv (n d : Nat) : Nat :=
  let q := n / d
  let r := n % d
  if 2 * r < d then q else if d < 2 * r then q + 1 else q + q % 2

theorem roundDiv_mul_le (n d : Nat) : 2 * (roundDiv n d * d) ≤ 2 * n + d := by
  have hn := Nat.div_add_mod n d
  have hc := Nat.mul_comm d (n / d)
  unfold roundDiv
  dsimp only
  split
  · omega
  · split
    · rw [Nat.add_mul]
      omega
    · rcases Nat.mod_two_eq_zero_or_one (n / d) with h | h <;> rw [h, Nat.add_mul] <;> omega

theorem le_roundDiv_mul {n d : Nat} (h : 0 < d) : 2 * n ≤ 2 * (roundDiv n d * d) + d := by
  have hn := Nat.div_add_mod n d
  have hc := Nat.mul_comm d (n / d)
  have hr := Nat.mod_lt n h
  unfold roundDiv
  dsimp only
  split
  · omega
  · split
    · rw [Nat.add_mul]
      omega
    · rcases Nat.mod_two_eq_zero_or_one (n / d) with h | h <;> rw [h, Nat.add_mul] <;> omega

theorem roundDiv_even_of_tie {n d : Nat} (h : 2 * (n % d) = d) : roundDiv n d % 2 = 0 := by
  unfold roundDiv
  dsimp only
  rw [if_neg (by omega), if_neg (by omega)]
  omega

def ofMantissa (m : Nat) (e : Int) : Float :=
  if h : 0 < m then ⟨.pack (.finite .positive m e h)⟩ else 0

def ofNat (n : Nat) : Float :=
  let k := n.log2
  if k < 53 then ofMantissa (n * Nat.pow 2 (52 - k)) (k - 52)
  else
    let m := roundDiv n (Nat.pow 2 (k - 52))
    if m < Nat.pow 2 53 then ofMantissa m (k - 52) else ofMantissa (Nat.pow 2 52) (k - 51)

end ComplexCalculator.Binary64
