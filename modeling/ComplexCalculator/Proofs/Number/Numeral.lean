import ComplexCalculator.Proofs.Binary64.Nearest
import ComplexCalculator.Proofs.Decimal.Reading
import ComplexCalculator.Proofs.Number.Literal
import ComplexCalculator.Proofs.Token.Partition

/-!
# Runs of digits read back

A run of digits is one token. Its number is the nearest one to the natural number that the digits
stand for, so that it does not depend on zeros in front and does not fall when the natural number
grows. The text of the number is again a run of digits. It often stands for another natural number,
but this has the same nearest number: the text of a finite number is its exact value, and the text
of infinity is beyond the last number that is rounded down. Up to `2 ^ 53` every natural number is a
number itself, and of the digits only the zeros in front are lost.
-/
namespace ComplexCalculator
open Binary64

structure IsRunOf (ds : List Char) (n : Nat) : Prop where
  ne_nil : ds ≠ []
  isDigit : ∀ c ∈ ds, c.isDigit = true
  value : Nat.ofDigitChars 10 ds 0 = n

def IsNumeral (text : String) (x : Float) : Prop :=
  Stream.ofString text = .token ⟨.number x, 0⟩ (.ending text.length)

/-- The same run without the zeros in front, but one zero if there is nothing else. -/
def dropLeadingZeros (ds : List Char) : List Char :=
  match ds.dropWhile (· == '0') with
  | [] => ['0']
  | rest => rest

variable {ds : List Char} {c : Char} {n : Nat} {x y : Float}

theorem exists_digitChar (h : c.isDigit = true) : ∃ d < 10, Nat.digitChar d = c := by
  have hc := Text.toNat_le_of_isDigit h
  have hlt : c.toNat - 48 < 10 := by omega
  refine ⟨c.toNat - 48, hlt, Char.toNat_inj.1 ?_⟩
  rw [Nat.toNat_digitChar_of_lt_ten hlt]
  omega

theorem toDigits_ofDigitChars_of_pos (h : ∀ c ∈ ds, c.isDigit = true) (hn : 0 < n) :
    Nat.toDigits 10 (Nat.ofDigitChars 10 ds n) = Nat.toDigits 10 n ++ ds := by
  induction ds generalizing n with
  | nil => rw [Nat.ofDigitChars_nil, List.append_nil]
  | cons c ds ih =>
    obtain ⟨hc, hds⟩ := List.forall_mem_cons.1 h
    obtain ⟨d, hd, rfl⟩ := exists_digitChar hc
    rw [Nat.ofDigitChars_cons_digitChar_of_lt_ten hd, ih hds (by omega),
      ← Nat.toDigits_append_toDigits (by decide) hn hd, Nat.toDigits_of_lt_base hd,
      List.append_assoc, List.singleton_append]

theorem toDigits_ofDigitChars (h : ∀ c ∈ ds, c.isDigit = true) :
    Nat.toDigits 10 (Nat.ofDigitChars 10 ds 0) = dropLeadingZeros ds := by
  induction ds with
  | nil => rfl
  | cons c ds ih =>
    obtain ⟨hc, hds⟩ := List.forall_mem_cons.1 h
    obtain ⟨d, hd, rfl⟩ := exists_digitChar hc
    rw [Nat.ofDigitChars_cons_digitChar_of_lt_ten hd, Nat.mul_zero, Nat.zero_add]
    rcases Nat.eq_zero_or_pos d with rfl | hpos
    · exact ih hds
    · have hne : Nat.digitChar d ≠ '0' := fun h => Nat.ne_of_gt hpos (Nat.digitChar_eq_zero.1 h)
      rw [toDigits_ofDigitChars_of_pos hds hpos, Nat.toDigits_of_lt_base hd]
      simp [dropLeadingZeros, hne]

namespace Number

theorem text_ofNat (h : n ≤ 2 ^ 53) : (ofReal (ofNat n)).text none = n.repr := by
  obtain ⟨hfinite, hexact⟩ := exact_ofNat_of_le h
  obtain ⟨m, e, hmagnitude, habs⟩ := exists_magnitude hfinite
  have hnatural : natural? (magnitude (ofNat n)) = some n := by
    rw [hmagnitude, natural?_eq_some_iff, ← habs, hexact, Nat.abs_cast]
  have hzero : ofNat 0 ≤ ofNat n := ofNat_le_ofNat (Nat.zero_le n)
  rw [ofNat_zero] at hzero
  rw [(ofNat_isLiteral n).text_eq]
  exact exactPart_natural hzero hnatural

theorem exists_isRunOf_text (n : Nat) :
    ∃ m, IsRunOf ((ofReal (ofNat n)).text none).toList m ∧ ofNat m = ofNat n := by
  have hdigits := (ofNat_isLiteral n).digits
  rw [unsigned_ofNat] at hdigits
  exact ⟨_, ⟨hdigits.ne_nil, hdigits.isDigit, rfl⟩, hdigits.value⟩

end Number

namespace IsRunOf

theorem read? (h : IsRunOf ds n) {rest : List Char} (hr : ∀ c ∈ rest.head?, c.isDigit = false) :
    Lexeme.read? (ds ++ rest) = some (.number (ofNat n), ds.length) := by
  rw [read?_digits h.ne_nil h.isDigit hr, h.value]

theorem isNumeral (h : IsRunOf ds n) : IsNumeral (String.ofList ds) (ofNat n) := by
  have hend : Cuts (0 + 0 + ds.length) [] (.ending (0 + 0 + ds.length + 0)) := .ending nofun
  have hcuts : Cuts 0 ([] ++ (ds ++ [])) _ := .token nofun (.digits h.ne_nil h.isDigit nofun) hend
  rw [List.nil_append, List.append_nil, h.value] at hcuts
  rw [IsNumeral, Stream.ofString, Cursor.start, String.toList_ofList, hcuts.stream_eq]
  simp

theorem zeros (h : IsRunOf ds n) (k : Nat) : IsRunOf (Decimal.zeros k ++ ds) n where
  ne_nil := List.append_ne_nil_of_right_ne_nil _ h.ne_nil
  isDigit := List.forall_mem_append.2 ⟨Decimal.isDigit_zeros k, h.isDigit⟩
  value := by rw [Decimal.ofDigitChars_zeros_append, h.value]

theorem repr_toList (h : IsRunOf ds n) : n.repr.toList = dropLeadingZeros ds := by
  rw [Nat.toList_repr, ← h.value, toDigits_ofDigitChars h.isDigit]

end IsRunOf

theorem IsNumeral.unique {text : String} (hx : IsNumeral text x) (hy : IsNumeral text y) :
    x = y := by
  have heq := hx.symm.trans hy
  simpa using heq

/-- A run of digits is read to the nearest number, or to infinity, and the text of this number is
read to the same one. -/
theorem digits_read_back (h : IsRunOf ds n) :
    ∃ x, IsNumeral (String.ofList ds) x ∧
      (∀ rest, (∀ c ∈ rest.head?, c.isDigit = false) →
        Lexeme.read? (ds ++ rest) = some (.number x, ds.length)) ∧
      (n < 2 ^ 1024 - 2 ^ 970 → IsNearest x n) ∧
      (x = infinity ↔ 2 ^ 1024 - 2 ^ 970 ≤ n) ∧
      (∀ es m y, IsRunOf es m → IsNumeral (String.ofList es) y → n ≤ m → x ≤ y) ∧
      (∀ k, IsNumeral (String.ofList (Decimal.zeros k ++ ds)) x) ∧
      let text := (Number.ofReal x).text none
      (∃ m, IsRunOf text.toList m) ∧ IsNumeral text x ∧
        (n ≤ 2 ^ 53 → text.toList = dropLeadingZeros ds) := by
  obtain ⟨m, hrun, hm⟩ := Number.exists_isRunOf_text n
  refine ⟨ofNat n, h.isNumeral, fun rest hr => h.read? hr, isNearest_ofNat, ofNat_eq_infinity_iff,
    ?_, fun k => (h.zeros k).isNumeral, ⟨m, hrun⟩, ?_, fun hn => ?_⟩
  · intro es k y hes hy hle
    rw [hy.unique hes.isNumeral]
    exact ofNat_le_ofNat hle
  · have hnumeral := hrun.isNumeral
    rwa [String.ofList_toList, hm] at hnumeral
  · rw [Number.text_ofNat hn, h.repr_toList]

theorem digits_read_back_leading_zeros :
    let ds := "0009007199254740992".toList
    IsRunOf ds (2 ^ 53) ∧ ∃ x, IsNumeral (String.ofList ds) x ∧ IsNearest x (2 ^ 53 : ℕ) ∧
      x ≠ infinity ∧ ((Number.ofReal x).text none).toList = "9007199254740992".toList := by
  intro ds
  have hrun : IsRunOf ds (2 ^ 53) := ⟨by decide, List.all_eq_true.1 (by decide), by decide +kernel⟩
  have hlt : 2 ^ 53 < 2 ^ 1024 - 2 ^ 970 := lt_overflow (Nat.le_refl _)
  obtain ⟨x, hx, -, hnearest, hinfinity, -, -, -, -, htext⟩ := digits_read_back hrun
  refine ⟨hrun, x, hx, hnearest hlt, fun h => ?_, htext (Nat.le_refl _)⟩
  exact absurd (hinfinity.1 h) (Nat.not_le_of_lt hlt)

end ComplexCalculator
