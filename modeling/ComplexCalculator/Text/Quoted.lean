import ComplexCalculator.Text.Unprintable

/-!
# Quoted text

A text is shown between apostrophes, or between double quotes when it holds an apostrophe and no
double quote. The delimiter and the backslash are escaped by a backslash, the three common control
characters by a letter, and every other unprintable character by its code in two, four or eight
hexadecimal digits, the fewest that hold it.
-/
namespace ComplexCalculator.Text

def delimiter (cs : List Char) : Char :=
  if '\'' ∈ cs ∧ '"' ∉ cs then '"' else '\''

def hexDigits : Nat → Nat → List Char
  | 0, _ => []
  | width + 1, n => hexDigits width (n / 16) ++ [Nat.digitChar (n % 16)]

def escapeCode (n : Nat) : List Char :=
  if n < 0x100 then '\\' :: 'x' :: hexDigits 2 n
  else if n < 0x10000 then '\\' :: 'u' :: hexDigits 4 n
  else '\\' :: 'U' :: hexDigits 8 n

def escape (quote c : Char) : List Char :=
  if c = quote ∨ c = '\\' then ['\\', c]
  else if c = '\n' then ['\\', 'n']
  else if c = '\r' then ['\\', 'r']
  else if c = '\t' then ['\\', 't']
  else if isUnprintable c then escapeCode c.toNat
  else [c]

def quoted (text : String) : String :=
  let quote := delimiter text.toList
  String.ofList (quote :: text.toList.flatMap (escape quote) ++ [quote])

end ComplexCalculator.Text
