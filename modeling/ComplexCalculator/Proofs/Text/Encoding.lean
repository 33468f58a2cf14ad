import ComplexCalculator.Text.Source

/-!
# Texts as bytes

A character is one byte, or a first byte and one to three more that add six bits each to its code.
No code has two forms, and a surrogate or a number above U+10FFFF has none. Bytes are read as a text
exactly when they are forms one after the other, and then the text is the characters whose codes the
forms give.
-/
namespace ComplexCalculator.Text

def IsTail (b : UInt8) : Prop := 0x80 ≤ b.toNat ∧ b.toNat ≤ 0xBF

/-- The bytes of a character and its code. First bytes C0 and C1, and low second bytes behind E0 and
F0, would give codes that have a shorter form; high second bytes behind ED surrogates, and behind F4
numbers that are too large. -/
inductive Form : List UInt8 → Nat → Prop
  | one {a : UInt8} (ha : a.toNat ≤ 0x7F) : Form [a] a.toNat
  | two {a b : UInt8} (ha : 0xC2 ≤ a.toNat ∧ a.toNat ≤ 0xDF) (hb : IsTail b) :
      Form [a, b] (a.toNat % 32 * 64 + b.toNat % 64)
  | three {a b c : UInt8} (ha : 0xE0 ≤ a.toNat ∧ a.toNat ≤ 0xEF) (hb : IsTail b) (hc : IsTail c)
      (hshort : a.toNat = 0xE0 → 0xA0 ≤ b.toNat) (hsurrogate : a.toNat = 0xED → b.toNat ≤ 0x9F) :
      Form [a, b, c] (a.toNat % 16 * 4096 + b.toNat % 64 * 64 + c.toNat % 64)
  | four {a b c d : UInt8} (ha : 0xF0 ≤ a.toNat ∧ a.toNat ≤ 0xF4) (hb : IsTail b) (hc : IsTail c)
      (hd : IsTail d) (hshort : a.toNat = 0xF0 → 0x90 ≤ b.toNat)
      (hlarge : a.toNat = 0xF4 → b.toNat ≤ 0x8F) :
      Form [a, b, c, d]
        (a.toNat % 8 * 262144 + b.toNat % 64 * 4096 + c.toNat % 64 * 64 + d.toNat % 64)

inductive Encodes : List UInt8 → List Nat → Prop
  | nil : Encodes [] []
  | cons {bs rest : List UInt8} {n : Nat} {ns : List Nat} (h : Form bs n) (hrest : Encodes rest ns) :
      Encodes (bs ++ rest) (n :: ns)

def codes (text : String) : List Nat := text.toList.map Char.toNat

variable {bs : List UInt8} {n : Nat} {ns : List Nat} {bytes : ByteArray}

theorem toNat_byte (h : n < 256) : (UInt8.ofNat n).toNat = n := by
  rw [UInt8.toNat_ofNat']
  exact Nat.mod_eq_of_lt h

theorem Form.congr {m : Nat} (h : Form bs m) (hn : m = n) : Form bs n := hn ▸ h

theorem form_utf8EncodeChar (c : Char) : Form (String.utf8EncodeChar c) c.toNat := by
  have hvalid : c.toNat < 0xD800 ∨ 0xDFFF < c.toNat ∧ c.toNat < 0x110000 := c.valid
  have hval : c.val.toNat = c.toNat := rfl
  simp only [String.utf8EncodeChar, hval]
  generalize c.toNat = n at hvalid
  have hlast := toNat_byte (n := n % 64 + 0x80) (by omega)
  have hlow := toNat_byte (n := n / 64 % 64 + 0x80) (by omega)
  have hmiddle := toNat_byte (n := n / 4096 % 64 + 0x80) (by omega)
  split
  · have ha := toNat_byte (n := n) (by omega)
    exact (Form.one (by omega)).congr ha
  split
  · have ha := toNat_byte (n := n / 64 % 32 + 0xC0) (by omega)
    exact (Form.two (by omega) ⟨by omega, by omega⟩).congr (by omega)
  split
  · have ha := toNat_byte (n := n / 4096 % 16 + 0xE0) (by omega)
    exact (Form.three (by omega) ⟨by omega, by omega⟩ ⟨by omega, by omega⟩ (by omega)
      (by omega)).congr (by omega)
  · have ha := toNat_byte (n := n / 262144 % 8 + 0xF0) (by omega)
    exact (Form.four (by omega) ⟨by omega, by omega⟩ ⟨by omega, by omega⟩ ⟨by omega, by omega⟩
      (by omega) (by omega)).congr (by omega)

theorem Form.isValidChar (h : Form bs n) : n.isValidChar := by
  unfold Nat.isValidChar
  cases h with
  | one ha => omega
  | two ha hb => omega
  | three ha hb hc hshort hsurrogate =>
    unfold IsTail at hb hc
    omega
  | four ha hb hc hd hshort hlarge =>
    unfold IsTail at hb hc hd
    omega

theorem eq_byte {b : UInt8} (h : b.toNat = n) : b = UInt8.ofNat n := by
  rw [← h, UInt8.ofNat_toNat]

theorem Form.eq_utf8EncodeChar {c : Char} (h : Form bs c.toNat) : bs = String.utf8EncodeChar c := by
  have hval : c.val.toNat = c.toNat := rfl
  simp only [String.utf8EncodeChar, hval]
  generalize c.toNat = n at h
  cases h with
  | one ha => rw [if_pos ha, ← eq_byte rfl]
  | two ha hb =>
    unfold IsTail at hb
    rw [if_neg (by omega), if_pos (by omega)]
    simp only [List.cons.injEq, and_true]
    exact ⟨eq_byte (by omega), eq_byte (by omega)⟩
  | three ha hb hc hshort hsurrogate =>
    unfold IsTail at hb hc
    rw [if_neg (by omega), if_neg (by omega), if_pos (by omega)]
    simp only [List.cons.injEq, and_true]
    exact ⟨eq_byte (by omega), eq_byte (by omega), eq_byte (by omega)⟩
  | four ha hb hc hd hshort hlarge =>
    unfold IsTail at hb hc hd
    rw [if_neg (by omega), if_neg (by omega), if_neg (by omega)]
    simp only [List.cons.injEq, and_true]
    exact ⟨eq_byte (by omega), eq_byte (by omega), eq_byte (by omega), eq_byte (by omega)⟩

theorem encodes_flatMap (cs : List Char) :
    Encodes (cs.flatMap String.utf8EncodeChar) (cs.map Char.toNat) := by
  induction cs with
  | nil => exact .nil
  | cons c cs ih => exact .cons (form_utf8EncodeChar c) ih

theorem Encodes.exists_text (h : Encodes bs ns) :
    ∃ text : String, codes text = ns ∧ bs = text.toList.flatMap String.utf8EncodeChar := by
  suffices hchars : ∃ cs : List Char, cs.map Char.toNat = ns ∧
      bs = cs.flatMap String.utf8EncodeChar by
    obtain ⟨cs, hns, hbs⟩ := hchars
    exact ⟨String.ofList cs, by rw [codes, String.toList_ofList, hns],
      by rw [String.toList_ofList, hbs]⟩
  induction h with
  | nil => exact ⟨[], rfl, rfl⟩
  | @cons form rest n ns hform hrest ih =>
    obtain ⟨cs, rfl, rfl⟩ := ih
    obtain ⟨c, rfl⟩ : ∃ c : Char, c.toNat = n := ⟨Char.ofNatAux n hform.isValidChar, rfl⟩
    exact ⟨c :: cs, rfl, by rw [List.flatMap_cons, hform.eq_utf8EncodeChar]⟩

theorem codes_injective {s t : String} (h : codes s = codes t) : s = t :=
  String.toList_inj.1 ((List.map_inj_right fun _ _ => Char.toNat_inj.1).1 h)

theorem toUTF8_toList (text : String) :
    text.toUTF8.data.toList = text.toList.flatMap String.utf8EncodeChar := by
  rw [String.toUTF8_eq_toByteArray, ← String.ofList_toList (s := text), String.toByteArray_ofList,
    String.toList_ofList]
  exact List.toList_data_toByteArray

theorem encodes_codes_iff {text : String} :
    Encodes bytes.data.toList (codes text) ↔ bytes = text.toUTF8 := by
  constructor
  · intro h
    obtain ⟨other, hcodes, hbytes⟩ := h.exists_text
    rw [codes_injective hcodes, ← toUTF8_toList] at hbytes
    exact ByteArray.ext (Array.toList_inj.1 hbytes)
  · rintro rfl
    rw [toUTF8_toList]
    exact encodes_flatMap text.toList

theorem read?_bytes_eq_some_iff {text : String} :
    (Source.bytes bytes).read? = some text ↔ Encodes bytes.data.toList (codes text) := by
  rw [encodes_codes_iff]
  constructor
  · intro h
    obtain ⟨hvalid, htext⟩ := Option.dite_none_right_eq_some.1 h
    cases htext
    rfl
  · rintro rfl
    exact Source.read?_toUTF8 text

theorem read?_bytes_eq_none_iff :
    (Source.bytes bytes).read? = none ↔ ∀ ns, ¬Encodes bytes.data.toList ns := by
  constructor
  · intro h ns hns
    obtain ⟨text, rfl, -⟩ := hns.exists_text
    rw [read?_bytes_eq_some_iff.2 hns] at h
    cases h
  · intro h
    refine Option.eq_none_iff_forall_ne_some.2 fun text htext => ?_
    exact h _ (read?_bytes_eq_some_iff.1 htext)

end ComplexCalculator.Text
