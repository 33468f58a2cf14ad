import Mathlib
import ComplexCalculator.Binary64.Nearest

/-!
# Packed and unpacked numbers

A binary64 number is stored as a sign, an exponent and a mantissa. A normal number has a mantissa of
53 bits and an exponent from -1074 to 971; such a pair is stored and found again unchanged, and a
pair with a larger exponent is stored as an infinity.
-/
namespace ComplexCalculator.Binary64
open Float.Model Float.Model.UnpackedFloat

def IsFull (m : Nat) : Prop := 2 ^ 52 ≤ m ∧ m < 2 ^ 53

theorem IsFull.pos {m : Nat} (h : IsFull m) : 0 < m :=
  Nat.lt_of_lt_of_le (by decide) h.1

theorem IsFull.log2_eq {m : Nat} (h : IsFull m) : m.log2 = 52 :=
  (Nat.log2_eq_iff (Nat.ne_of_gt h.pos)).2 h

theorem isFull_append (v : BitVec 52) : IsFull (1#1 ++ v).toNat := by
  have hv := v.isLt
  rw [BitVec.toNat_append, ← Nat.shiftLeft_add_eq_or_of_lt hv]
  simp only [Nat.shiftLeft_eq, BitVec.toNat_ofNat]
  constructor <;> omega

theorem append_ofNat {m : Nat} (h : IsFull m) : (1#1 ++ BitVec.ofNat 52 m).toNat = m := by
  have hv := (BitVec.ofNat 52 m).isLt
  rw [BitVec.toNat_append, ← Nat.shiftLeft_add_eq_or_of_lt hv]
  simp only [Nat.shiftLeft_eq, BitVec.toNat_ofNat]
  have := h.1
  have := h.2
  omega

theorem ofNat_append (v : BitVec 52) : BitVec.ofNat 52 (1#1 ++ v).toNat = v := by
  have hv := v.isLt
  apply BitVec.eq_of_toNat_eq
  rw [BitVec.toNat_ofNat, BitVec.toNat_append, ← Nat.shiftLeft_add_eq_or_of_lt hv]
  simp only [Nat.shiftLeft_eq, BitVec.toNat_ofNat]
  omega

theorem sign_of_fields (s : Sign) (e : BitVec 11) (m : BitVec 52) :
    Sign.ofBitVec (unpackSign (packComponents .binary64 s e m)) = s := by
  have h : unpackSign (packComponents .binary64 s e m) = s.toBitVec := by
    simp only [unpackSign, packComponents, BitVec.extractLsb]
    rw [BitVec.extractLsb'_append_eq_of_le (by decide),
      BitVec.extractLsb'_append_eq_of_le (by decide)]
    exact BitVec.extractLsb'_eq_self
  rw [h]
  cases s <;> rfl

theorem fields_of_bits (b : BitVec Format.binary64.numBits) :
    packComponents .binary64 (Sign.ofBitVec (unpackSign b)) (unpackExponent b) (unpackMantissa b) =
      b := by
  have hs (v : BitVec 1) : (Sign.ofBitVec v).toBitVec = v := by
    revert v
    decide
  simp only [packComponents, hs]
  ext i hi
  simp only [unpackSign, unpackExponent, unpackMantissa, BitVec.getElem_append]
  grind

theorem bias_value : ((Format.binary64.exponentBias : Nat) : Int) = 1023 := rfl

theorem pack_full (s : Sign) {m : Nat} (h : IsFull m) (e : Int) :
    UnpackedFloat.pack .binary64 (.finite s m e h.pos) =
      if 971 < e then packedInfinity .binary64 s
      else packComponents .binary64 s (BitVec.ofNat 11 (e + 1075).toNat) (BitVec.ofNat 52 m) := by
  have hl : m.log2 + 1 = Format.binary64.mantissaBits := by rw [h.log2_eq]; rfl
  have hb : (e + 1023 + ((52 : Nat) : Int)).toNat = (e + 1075).toNat := by omega
  rw [UnpackedFloat.pack]
  simp only [bias_value, if_pos hl, hb]
  by_cases he : 971 < e
  · rw [if_pos he, if_pos (by omega)]
  · rw [if_neg he, if_neg (by omega)]

theorem unpack_pack {m : Nat} (h : IsFull m) {e : Int} (hl : -1074 ≤ e) (hu : e ≤ 971) :
    (Float.Model.pack (.finite .positive m e h.pos)).unpack = .finite .positive m e h.pos := by
  have he : (BitVec.ofNat 11 (e + 1075).toNat).toNat = (e + 1075).toNat := by
    rw [BitVec.toNat_ofNat]
    omega
  have hinf : BitVec.ofNat 11 (e + 1075).toNat ≠ -1#11 := by
    intro hc
    have := he.symm.trans (congrArg BitVec.toNat hc)
    simp at this
    omega
  have hzero : BitVec.ofNat 11 (e + 1075).toNat ≠ 0#11 := by
    intro hc
    have := he.symm.trans (congrArg BitVec.toNat hc)
    simp at this
    omega
  change UnpackedFloat.unpack .binary64 (UnpackedFloat.pack .binary64 _) = _
  rw [pack_full _ h, if_neg (by omega), UnpackedFloat.unpack]
  simp only [unpackExponent_packComponents, unpackMantissa_packComponents, sign_of_fields,
    if_neg hinf, if_neg hzero, append_ofNat h, he]
  simp only [bias_value]
  congr 1
  omega

theorem pack_overflow {m : Nat} (h : IsFull m) {e : Int} (hu : 971 < e) :
    Float.ofModel (.pack (.finite .positive m e h.pos)) = infinity := by
  have hp : Float.Model.pack (.finite .positive m e h.pos) = .pack (.infinity .positive) := by
    simp only [Float.Model.pack, pack_full _ h, if_pos hu]
    rfl
  rw [hp]
  decide +kernel

theorem pack_fields (b : BitVec Format.binary64.numBits) {e : Int}
    (he : (unpackExponent b).toNat = (e + 1075).toNat) (hu : e ≤ 971) :
    UnpackedFloat.pack .binary64 (.finite (Sign.ofBitVec (unpackSign b)) _ e
      (isFull_append (unpackMantissa b)).pos) = b := by
  have hexp : BitVec.ofNat 11 (e + 1075).toNat = unpackExponent b := by
    rw [← he, BitVec.ofNat_toNat, BitVec.setWidth_eq]
  rw [pack_full _ (isFull_append _), if_neg (by omega), hexp, ofNat_append]
  exact fields_of_bits b

theorem finite_of_bits {b : BitVec Format.binary64.numBits} {s : Sign} {m : Nat} {e : Int}
    {hm : 0 < m} (h : UnpackedFloat.unpack .binary64 b = .finite s m e hm) :
    m < 2 ^ 52 ∧ e = -1074 ∨
      IsFull m ∧ -1074 ≤ e ∧ e ≤ 971 ∧ UnpackedFloat.pack .binary64 (.finite s m e hm) = b := by
  simp only [UnpackedFloat.unpack, bias_value] at h
  split at h
  · split at h <;> cases h
  · rename_i hinf
    split at h
    · rename_i hzero
      split at h
      · cases h
      · cases h
        exact .inl ⟨(unpackMantissa b).isLt, by rw [hzero]; rfl⟩
    · rename_i hzero
      cases h
      have hlt : (unpackExponent b).toNat < 2048 := (unpackExponent b).isLt
      have hinf' : (unpackExponent b).toNat ≠ 2047 := fun hc => hinf (BitVec.eq_of_toNat_eq hc)
      have hzero' : (unpackExponent b).toNat ≠ 0 := fun hc => hzero (BitVec.eq_of_toNat_eq hc)
      exact .inr ⟨isFull_append _, by omega, by omega, pack_fields b (by omega) (by omega)⟩

theorem unpack_finite {f : Float.Model} {s : Sign} {m : Nat} {e : Int} {hm : 0 < m}
    (h : f.unpack = .finite s m e hm) :
    m < 2 ^ 52 ∧ e = -1074 ∨
      IsFull m ∧ -1074 ≤ e ∧ e ≤ 971 ∧ Float.Model.pack (.finite s m e hm) = f := by
  obtain hs | ⟨hf, hl, hu, hp⟩ := finite_of_bits h
  · exact .inl hs
  · obtain ⟨⟨b⟩, hv⟩ := f
    exact .inr ⟨hf, hl, hu, by simp only [Float.Model.pack, hp]⟩

end ComplexCalculator.Binary64
