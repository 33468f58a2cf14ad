import ComplexCalculator.Number.Text
import ComplexCalculator.Proofs.Binary64.Packing

/-!
# Literals

A literal is a real number whose real part is a natural number or infinite. Its text is a run of
digits, and the digits are read back to the same number, where a negative zero counts as zero. Every
run of digits is read to a literal.
-/
namespace ComplexCalculator
namespace Binary64

theorem natural?_scaled (m k : Nat) : natural? (.finite m k) = some (m * 2 ^ k) := by
  simp only [natural?, ratio, Nat.pow_eq, Nat.mod_one, Nat.div_one, if_true]

theorem natural?_shifted (n k : Nat) : natural? (.finite (n * 2 ^ k) (-k)) = some n := by
  have hk : 0 < 2 ^ k := Nat.pow_pos (by decide)
  cases k with
  | zero => simpa using natural?_scaled n 0
  | succ k =>
    change natural? (.finite _ (.negSucc k)) = _
    simp only [natural?, ratio, Nat.pow_eq, Nat.mul_mod_left, Nat.mul_div_cancel _ hk, if_true]

theorem natural?_zero (e : Int) : natural? (.finite 0 e) = some 0 := by
  cases e with
  | ofNat k => simp [natural?, ratio]
  | negSucc k => simp [natural?, ratio]

theorem natural?_eq_some {m n : Nat} {e : Int} (h : natural? (.finite m e) = some n) :
    (∃ k : Nat, e = k ∧ n = m * 2 ^ k) ∨ ∃ k : Nat, e = -k ∧ m = n * 2 ^ k := by
  cases e with
  | ofNat k =>
    rw [Int.ofNat_eq_natCast, natural?_scaled] at h
    exact .inl ⟨k, rfl, (Option.some.inj h).symm⟩
  | negSucc k =>
    simp only [natural?, ratio, Nat.pow_eq] at h
    obtain ⟨hd, hq⟩ := Option.ite_none_right_eq_some.1 h
    refine .inr ⟨k + 1, by omega, ?_⟩
    rw [← Option.some.inj hq]
    exact (Nat.div_mul_cancel (Nat.dvd_of_mod_eq_zero hd)).symm

theorem shift_le {n k : Nat} (hm : 0 < n * 2 ^ k) (hu : n * 2 ^ k < 2 ^ 53) : k ≤ 52 := by
  have hn : 0 < n := Nat.pos_of_mul_pos_right hm
  have hk : 2 ^ k < 2 ^ 53 := Nat.lt_of_le_of_lt (Nat.le_mul_of_pos_left _ hn) hu
  exact Nat.lt_succ_iff.1 ((Nat.pow_lt_pow_iff_right (by decide)).1 hk)

theorem integer?_isSome (x : Float) : (integer? x).isSome = (natural? (magnitude x)).isSome := by
  unfold integer?
  cases natural? (magnitude x) <;> rfl

theorem roundDiv_mul_self (m : Nat) {d : Nat} (hd : 0 < d) : roundDiv (m * d) d = m := by
  simp only [roundDiv, Nat.mul_div_cancel _ hd, Nat.mul_mod_left, Nat.mul_zero, if_pos hd]

theorem div_le_roundDiv (n d : Nat) : n / d ≤ roundDiv n d := by
  unfold roundDiv
  dsimp only
  split
  · exact Nat.le_refl _
  · split <;> omega

theorem log2_scaled {m : Nat} (h : IsFull m) (k : Nat) : (m * 2 ^ k).log2 = 52 + k := by
  have hk : 0 < 2 ^ k := Nat.pow_pos (by decide)
  refine (Nat.log2_eq_iff (Nat.ne_of_gt (Nat.mul_pos h.pos hk))).2 ⟨?_, ?_⟩
  · rw [Nat.pow_add]
    exact Nat.mul_le_mul_right _ h.1
  · rw [Nat.add_right_comm, Nat.pow_add]
    exact Nat.mul_lt_mul_of_pos_right h.2 hk

theorem log2_shifted {n k : Nat} (h : IsFull (n * 2 ^ k)) (hk : k ≤ 52) : n.log2 = 52 - k := by
  have hn : 0 < n := Nat.pos_of_mul_pos_right h.pos
  have hp : 2 ^ (52 - k) * 2 ^ k = 2 ^ 52 := by rw [← Nat.pow_add]; congr 1; omega
  have hp' : 2 ^ (52 - k + 1) * 2 ^ k = 2 ^ 53 := by rw [← Nat.pow_add]; congr 1; omega
  refine (Nat.log2_eq_iff (Nat.ne_of_gt hn)).2 ⟨?_, ?_⟩
  · exact Nat.le_of_mul_le_mul_right (hp ▸ h.1) (Nat.pow_pos (by decide))
  · exact Nat.lt_of_mul_lt_mul_right (hp' ▸ h.2)

theorem ofNat_scaled {m : Nat} (h : IsFull m) (k : Nat) : ofNat (m * 2 ^ k) = ofMantissa m k := by
  simp only [ofNat, Nat.pow_eq, log2_scaled h]
  by_cases hk : k = 0
  · subst hk
    simp
  · rw [if_neg (by omega), Nat.add_sub_cancel_left, roundDiv_mul_self _ (Nat.pow_pos (by decide)),
      if_pos h.2]
    congr 1
    omega

theorem ofNat_shifted {n k : Nat} (h : IsFull (n * 2 ^ k)) (hk : k ≤ 52) :
    ofNat n = ofMantissa (n * 2 ^ k) (-k) := by
  simp only [ofNat, Nat.pow_eq, log2_shifted h hk]
  rw [if_pos (by omega), Nat.sub_sub_self hk]
  congr 1
  omega

theorem isFull_shifted {n : Nat} (hn : 0 < n) (hk : n.log2 < 53) :
    IsFull (n * 2 ^ (52 - n.log2)) := by
  obtain ⟨hl, hu⟩ := (Nat.log2_eq_iff (Nat.ne_of_gt hn)).1 rfl
  have hp : 0 < 2 ^ (52 - n.log2) := Nat.pow_pos (by decide)
  have hl' := Nat.mul_le_mul_right (2 ^ (52 - n.log2)) hl
  have hu' := Nat.mul_lt_mul_of_pos_right hu hp
  rw [← Nat.pow_add] at hl' hu'
  rw [show n.log2 + (52 - n.log2) = 52 by omega] at hl'
  rw [show n.log2 + 1 + (52 - n.log2) = 53 by omega] at hu'
  exact ⟨hl', hu'⟩

theorem ofNat_cases (n : Nat) :
    n = 0 ∨ (∃ k : Nat, k ≤ 52 ∧ IsFull (n * 2 ^ k) ∧ ofNat n = ofMantissa (n * 2 ^ k) (-k)) ∨
      ∃ m k : Nat, IsFull m ∧ ofNat n = ofMantissa m k := by
  rcases Nat.eq_zero_or_pos n with hn | hn
  · exact .inl hn
  refine .inr ?_
  obtain ⟨hl, -⟩ := (Nat.log2_eq_iff (Nat.ne_of_gt hn)).1 rfl
  by_cases hk : n.log2 < 53
  · have hf := isFull_shifted hn hk
    exact .inl ⟨52 - n.log2, Nat.sub_le _ _, hf, ofNat_shifted hf (Nat.sub_le _ _)⟩
  · have hd : 0 < 2 ^ (n.log2 - 52) := Nat.pow_pos (by decide)
    have hm : 2 ^ 52 ≤ roundDiv n (2 ^ (n.log2 - 52)) := by
      refine Nat.le_trans ((Nat.le_div_iff_mul_le hd).2 ?_) (div_le_roundDiv n _)
      rw [← Nat.pow_add, show 52 + (n.log2 - 52) = n.log2 by omega]
      exact hl
    refine .inr ?_
    simp only [ofNat, Nat.pow_eq, if_neg hk]
    split
    · rename_i hlt
      exact ⟨_, n.log2 - 52, ⟨hm, hlt⟩, by congr 1; omega⟩
    · exact ⟨2 ^ 52, n.log2 - 51, ⟨Nat.le_refl _, by decide⟩, by congr 1; omega⟩

theorem beq_zero_eq (x : Float) : (x == 0) = x.toModel.unpack.beq (.zero .positive) := rfl

theorem zero_le_iff (x : Float) :
    0 ≤ x ↔ Float.Model.UnpackedFloat.le (.zero .positive) x.toModel.unpack = true :=
  decide_eq_true_iff

def unsigned (x : Float) : Float := if x == 0 then 0 else x

theorem unsigned_zero : unsigned 0 = 0 := rfl

theorem unsigned_of_ne {x : Float} (h : (x == 0) = false) : unsigned x = x := by
  rw [unsigned, h]
  rfl

theorem ofMantissa_full {m : Nat} (h : IsFull m) (e : Int) :
    ofMantissa m e = .ofModel (.pack (.finite .positive m e h.pos)) :=
  dif_pos h.pos

theorem ofMantissa_cases {m : Nat} (h : IsFull m) {e : Int} (he : -1074 ≤ e) :
    ofMantissa m e = infinity ∨
      (ofMantissa m e).toModel.unpack = .finite .positive m e h.pos := by
  rw [ofMantissa_full h]
  by_cases hu : e ≤ 971
  · exact .inr (unpack_pack h he hu)
  · exact .inl (pack_overflow h (Int.not_le.1 hu))

theorem eq_of_unpack {x : Float} {m : Nat} {e : Int} {hm : 0 < m} (h : IsFull m)
    (hx : x.toModel.unpack = .finite .positive m e hm) : x = ofMantissa m e := by
  obtain ⟨hs, -⟩ | ⟨-, -, -, hp⟩ := unpack_finite hx
  · exact absurd h.1 (Nat.not_le_of_lt hs)
  · rw [ofMantissa_full h, hp]

theorem ofNat_of_finite {x : Float} {m n : Nat} {e : Int} {hm : 0 < m}
    (hx : x.toModel.unpack = .finite .positive m e hm)
    (hn : natural? (.finite m e) = some n) : ofNat n = x := by
  obtain ⟨hs, he⟩ | ⟨hf, -, -, -⟩ := unpack_finite hx
  · -- a mantissa below the full ones is no multiple of `2 ^ 1074`
    obtain ⟨k, hk, -⟩ | ⟨k, hk, rfl⟩ := natural?_eq_some hn
    · omega
    · have := shift_le hm (Nat.lt_trans hs (by decide))
      omega
  · rw [eq_of_unpack hf hx]
    obtain ⟨k, rfl, rfl⟩ | ⟨k, rfl, rfl⟩ := natural?_eq_some hn
    · exact ofNat_scaled hf k
    · exact ofNat_shifted hf (shift_le hm hf.2)

theorem ofNat_of_natural? {x : Float} {n : Nat} (hx : 0 ≤ x)
    (hn : natural? (magnitude x) = some n) : ofNat n = unsigned x := by
  rw [zero_le_iff] at hx
  unfold magnitude at hn
  cases hu : x.toModel.unpack with
  | notANumber => simp [hu, natural?] at hn
  | infinity s => simp [hu, natural?] at hn
  | zero s =>
    have hz : (x == 0) = true := by rw [beq_zero_eq, hu]; rfl
    rw [hu] at hn
    obtain rfl : 0 = n := Option.some.inj ((natural?_zero _).symm.trans hn)
    rw [unsigned, hz]
    rfl
  | finite s m e hm =>
    rw [hu] at hn hx
    cases s with
    | negative => simp [Float.Model.UnpackedFloat.le, Float.Model.UnpackedFloat.compare] at hx
    | positive =>
      rw [unsigned_of_ne (by rw [beq_zero_eq, hu]; rfl)]
      exact ofNat_of_finite hu hn

theorem isNaN_of_beq_zero {x : Float} (h : (x == 0) = true) : x.isNaN = false := by
  rw [beq_zero_eq] at h
  change x.toModel.unpack.isNaN = false
  cases hu : x.toModel.unpack with
  | notANumber => rw [hu] at h; cases h
  | _ => rfl

theorem isNaN_of_zero_le {x : Float} (h : 0 ≤ x) : x.isNaN = false := by
  rw [zero_le_iff] at h
  change x.toModel.unpack.isNaN = false
  cases hu : x.toModel.unpack with
  | notANumber => rw [hu] at h; cases h
  | _ => rfl

theorem eq_zero_of_isNegative {x : Float} {n : Nat} (hx : 0 ≤ x) (hs : isNegative x = true)
    (hn : natural? (magnitude x) = some n) : n = 0 := by
  rw [zero_le_iff] at hx
  unfold isNegative at hs
  unfold magnitude at hn
  cases hu : x.toModel.unpack with
  | notANumber => simp [hu] at hs
  | infinity s => simp [hu, natural?] at hn
  | zero s =>
    rw [hu] at hn
    exact (Option.some.inj ((natural?_zero _).symm.trans hn)).symm
  | finite s m e hm =>
    rw [hu] at hx hs
    cases s with
    | positive => cases hs
    | negative => simp [Float.Model.UnpackedFloat.le, Float.Model.UnpackedFloat.compare] at hx

theorem beq_self {x : Float} (h : x.isNaN = false) : (x == x) = true := by
  change x.toModel.unpack.isNaN = false at h
  change x.toModel.unpack.beq x.toModel.unpack = true
  cases hu : x.toModel.unpack with
  | notANumber => rw [hu] at h; cases h
  | infinity s => cases s <;> rfl
  | zero s => rfl
  | finite s m e hm =>
    cases s <;> simp [Float.Model.UnpackedFloat.beq, Float.Model.UnpackedFloat.compare]

theorem unsigned_beq {x : Float} (h : x.isNaN = false) : (unsigned x == x) = true := by
  cases hz : x == 0 with
  | false =>
    rw [unsigned_of_ne hz]
    exact beq_self h
  | true =>
    simp only [unsigned, hz, if_true]
    rw [beq_zero_eq] at hz
    change Float.Model.UnpackedFloat.beq (.zero .positive) x.toModel.unpack = true
    cases hu : x.toModel.unpack with
    | notANumber => rw [hu] at hz; cases hz
    | infinity s => rw [hu] at hz; cases s <;> cases hz
    | zero s => rfl
    | finite s m e hm => rw [hu] at hz; cases s <;> cases hz

end Binary64

namespace Number
open Binary64

def IsLiteral (z : Number) : Prop :=
  z.isReal = true ∧ (z.re = infinity ∨ 0 ≤ z.re ∧ (integer? z.re).isSome = true)

def unsigned (z : Number) : Number := ⟨Binary64.unsigned z.re, Binary64.unsigned z.im⟩

structure IsDigitsOf (ds : List Char) (x : Float) : Prop where
  ne_nil : ds ≠ []
  isDigit : ∀ c ∈ ds, c.isDigit = true
  value : ofNat (Nat.ofDigitChars 10 ds 0) = x

theorem isDigitsOf_repr (n : Nat) : IsDigitsOf n.repr.toList (ofNat n) where
  ne_nil := by
    rw [Nat.toList_repr]
    exact Nat.toDigits_ne_nil
  isDigit := fun c hc => by
    rw [Nat.toList_repr] at hc
    exact Nat.isDigit_of_mem_toDigits (by decide) (by decide) hc
  value := by rw [Nat.toList_repr, Nat.ofDigitChars_ten_toDigits]

theorem isDigitsOf_overflow : IsDigitsOf overflowDigits infinity where
  ne_nil := by decide
  isDigit := List.all_eq_true.1 (by decide +kernel)
  value := by decide +kernel

theorem exactPart_infinity : exactPart infinity = String.ofList overflowDigits := by
  decide +kernel

theorem exactPart_natural {x : Float} {n : Nat} (hx : 0 ≤ x)
    (hn : natural? (magnitude x) = some n) : exactPart x = n.repr := by
  have hs : (isNegative x && n != 0) = false := by
    cases h : isNegative x with
    | false => rfl
    | true => simp [eq_zero_of_isNegative hx h hn]
  unfold exactPart
  cases hm : magnitude x with
  | nan => simp [hm, natural?] at hn
  | infinite => simp [hm, natural?] at hn
  | finite m e =>
    rw [hm] at hn
    simp only [hn, hs, Bool.false_eq_true, if_false]

theorem IsLiteral.isNaN_re {z : Number} (h : z.IsLiteral) : z.re.isNaN = false := by
  rcases h.2 with hre | ⟨hre, -⟩
  · rw [hre]
    rfl
  · exact isNaN_of_zero_le hre

theorem IsLiteral.text_eq {z : Number} (h : z.IsLiteral) : z.text none = exactPart z.re := by
  have hz : z.isNaN = false := by
    simp only [isNaN, h.isNaN_re, isNaN_of_beq_zero h.1, Bool.or_self]
  simp only [text, hz, Bool.false_eq_true, if_false, part]
  exact if_pos h.1

theorem IsLiteral.digits {z : Number} (h : z.IsLiteral) :
    IsDigitsOf (z.text none).toList z.unsigned.re := by
  rw [h.text_eq]
  rcases h.2 with hre | ⟨hre, hn⟩
  · simp only [unsigned, hre, exactPart_infinity, String.toList_ofList]
    exact isDigitsOf_overflow
  · rw [integer?_isSome, Option.isSome_iff_exists] at hn
    obtain ⟨n, hn⟩ := hn
    rw [exactPart_natural hre hn]
    simp only [unsigned, ← ofNat_of_natural? hre hn]
    exact isDigitsOf_repr n

theorem isReal_ofReal (x : Float) : (ofReal x).isReal = true := by
  have h : ((0 : Float) == 0) = true := by decide +kernel
  exact h

theorem ofMantissa_isLiteral {m n : Nat} {e : Int} (h : IsFull m) (he : -1074 ≤ e)
    (hn : natural? (.finite m e) = some n) : (ofReal (ofMantissa m e)).IsLiteral := by
  refine ⟨isReal_ofReal _, (ofMantissa_cases h he).imp id fun hu => ⟨?_, ?_⟩⟩
  · simp only [ofReal, zero_le_iff, hu]
    rfl
  · simp only [ofReal, integer?_isSome, magnitude, hu, hn, Option.isSome_some]

theorem ofNat_isLiteral (n : Nat) : (ofReal (ofNat n)).IsLiteral := by
  obtain rfl | ⟨k, hk, hf, hn⟩ | ⟨m, k, hf, hn⟩ := ofNat_cases n
  · exact ⟨isReal_ofReal _, .inr (by decide +kernel)⟩
  · rw [hn]
    exact ofMantissa_isLiteral hf (by omega) (natural?_shifted n k)
  · rw [hn]
    exact ofMantissa_isLiteral hf (by omega) (natural?_scaled m k)

theorem unsigned_ofNat (n : Nat) : (ofReal (ofNat n)).unsigned = ofReal (ofNat n) := by
  have h (m : Nat) (e : Int) (hf : IsFull m) (he : -1074 ≤ e) :
      Binary64.unsigned (ofMantissa m e) = ofMantissa m e := by
    refine unsigned_of_ne ?_
    rcases ofMantissa_cases hf he with hi | hu
    · rw [hi]
      rfl
    · rw [beq_zero_eq, hu]
      rfl
  have hr : Binary64.unsigned (ofNat n) = ofNat n := by
    obtain rfl | ⟨k, hk, hf, hn⟩ | ⟨m, k, hf, hn⟩ := ofNat_cases n
    · rfl
    · rw [hn]
      exact h _ _ hf (by omega)
    · rw [hn]
      exact h _ _ hf (by omega)
  simp only [unsigned, ofReal, hr, unsigned_zero]

theorem IsLiteral.unsigned_eq {z : Number} (h : z.IsLiteral) :
    z.unsigned = ofReal z.unsigned.re := by
  have him : Binary64.unsigned z.im = 0 := if_pos h.1
  simp only [unsigned, ofReal, him]

theorem IsLiteral.unsigned_equals {z : Number} (h : z.IsLiteral) :
    z.unsigned.equals z = true :=
  equals_iff.2 ⟨unsigned_beq h.isNaN_re, unsigned_beq (isNaN_of_beq_zero h.1)⟩

end Number
end ComplexCalculator
