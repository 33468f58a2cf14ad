import ComplexCalculator.Proofs.Scope.Command
import ComplexCalculator.Proofs.Text.Encoding

/-!
# Lines given as bytes

Bytes that are the forms of a text's characters stand for the text wherever a source is taken: they
have its tokens, at places counted in characters, and they are read and run in every scope as the
text is. All other bytes are refused before a token of them is read, and change nothing.
-/
namespace ComplexCalculator
open Text

/-- The source is taken for the text. -/
structure Text.Source.StandsFor (source : Source) (text : String) : Prop where
  stream : Stream.ofSource? source = some (Stream.ofString text)
  reader : Reader.ofSource? source = some (Reader.start text)
  parse : ∀ (s : Store) (i : Nat), s.parse i source = s.parse i (.text text)
  execute : ∀ (s : Store) (i : Nat), s.execute i source = s.execute i (.text text)
  obey : ∀ (s : Store) (i : Nat), s.obey i (.execute source) = s.obey i (.execute (.text text))

/-- The source has no token, and no scope takes it for a line. -/
structure Text.Source.IsRefused (source : Source) : Prop where
  stream : Stream.ofSource? source = none
  reader : Reader.ofSource? source = none
  parse : ∀ (s : Store) (i : Nat), s.parse i source = .error .encoding
  execute : ∀ (s : Store) (i : Nat), s.execute i source = .error .encoding
  obey : ∀ (s : Store) (i : Nat), s.obey i (.execute source) = s

namespace Text.Source

variable {source : Source} {text : String}

theorem standsFor_of_read (h : source.read? = some text) : source.StandsFor text := by
  have hparse (s : Store) (i : Nat) : s.parse i source = s.parse i (.text text) := by
    rw [Store.parse, Store.parse, h, read?_text]
  have hexecute (s : Store) (i : Nat) : s.execute i source = s.execute i (.text text) := by
    rw [Store.execute, Store.execute, hparse]
  exact {
    stream := by rw [Stream.ofSource?, h, Option.map_some]
    reader := by rw [Reader.ofSource?, h, Option.map_some]
    parse := hparse
    execute := hexecute
    obey := fun s i => by rw [Store.obey, Store.obey, hexecute] }

theorem isRefused_of_not_read (h : source.read? = none) : source.IsRefused := by
  have hparse (s : Store) (i : Nat) : s.parse i source = .error .encoding := by
    rw [Store.parse, h]
  have hexecute (s : Store) (i : Nat) : s.execute i source = .error .encoding := by
    rw [Store.execute, hparse]
  exact {
    stream := by rw [Stream.ofSource?, h, Option.map_none]
    reader := by rw [Reader.ofSource?, h, Option.map_none]
    parse := hparse
    execute := hexecute
    obey := fun s i => by rw [Store.obey, hexecute] }

end Text.Source

/-- Each text is encoded by one byte string. Bytes that encode a text stand for it, whether they are
cut into tokens, read, or run as a line; bytes that encode nothing are refused. -/
theorem bytes_stand_for_text :
    (∀ text : String, ∃ bytes : ByteArray, ∀ other : ByteArray,
      Encodes other.data.toList (codes text) ↔ other = bytes) ∧
    ∀ bytes : ByteArray,
      (∀ text, Encodes bytes.data.toList (codes text) → (Source.bytes bytes).StandsFor text) ∧
      ((∀ ns, ¬Encodes bytes.data.toList ns) → (Source.bytes bytes).IsRefused) := by
  refine ⟨fun text => ?_, fun bytes => ⟨fun text h => ?_, fun h => ?_⟩⟩
  · exact ⟨text.toUTF8, fun other => encodes_codes_iff⟩
  · exact Source.standsFor_of_read (read?_bytes_eq_some_iff.2 h)
  · exact Source.isRefused_of_not_read (read?_bytes_eq_none_iff.2 h)

theorem bytes_stand_for_text_refused :
    (Source.bytes ⟨#[0x32, 0x2A, 0xCF, 0x80]⟩).StandsFor "2*π" ∧
    ∀ bytes ∈ [#[0x32, 0xCF], #[0xC0, 0xAF], #[0xED, 0xA0, 0x80], #[0xF4, 0x90, 0x80, 0x80]],
      (Source.bytes ⟨bytes⟩).IsRefused := by
  constructor
  · exact (bytes_stand_for_text.2 _).1 "2*π" (encodes_codes_iff.2 (by decide +kernel))
  · intro bytes hbytes
    refine (bytes_stand_for_text.2 _).2 (read?_bytes_eq_none_iff.1 ?_)
    revert bytes
    decide +kernel

end ComplexCalculator
