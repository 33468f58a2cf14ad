/-!
# Source texts

An expression arrives as a text or as bytes. Bytes are read as strict UTF-8: a truncated or
overlong form, a surrogate or a code above U+10FFFF makes the whole source unreadable.
-/
namespace ComplexCalculator.Text

inductive Source
  | text (content : String)
  | bytes (content : ByteArray)

def Source.read? : Source → Option String
  | .text content => some content
  | .bytes content => String.fromUTF8? content

theorem Source.read?_text (content : String) : (Source.text content).read? = some content := rfl

theorem Source.read?_toUTF8 (content : String) :
    (Source.bytes content.toUTF8).read? = some content := by
  simp only [Source.read?, String.fromUTF8?, String.toUTF8_eq_toByteArray,
    dif_pos content.isValidUTF8]
  rfl

end ComplexCalculator.Text
